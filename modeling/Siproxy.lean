import Siproxy.Control
import Siproxy.Transitions
import Siproxy.Shape
import Siproxy.Sessions
import Siproxy.Noninterference
import Siproxy.SipClient
import Siproxy.Match
import Siproxy.Producers
import Siproxy.Lib.Heap
import Siproxy.Lib.Lines
import Siproxy.Telnet
import Siproxy.SipInput
import Siproxy.SipIsolation
import Siproxy.SipStream
import Siproxy.Queue
import Siproxy.Monitor
import Siproxy.Lib.Writers
import Siproxy.Uart
import Siproxy.Lib.Parts
import Siproxy.TelnetRecv
import Siproxy.TelnetSend
import Siproxy.Options
import Siproxy.QMethod
import Siproxy.Negotiation
import Siproxy.Dispatch
import Siproxy.Lib.LastWrite
import Siproxy.Broker
import Siproxy.Lib.Pattern
import Siproxy.MatchLanguage
import Siproxy.Fields
import Siproxy.ModemLines
import Siproxy.SmsFetch
import Siproxy.Receive
import Siproxy.TelnetInput
import Siproxy.MsgPool
import Siproxy.ReadLine
import Siproxy.SmsLength
import Siproxy.Unexpected
import Siproxy.OptionMap
import Siproxy.InPlace
import Siproxy.SbBuffer
import Siproxy.Environ
import Siproxy.Mssp
import Siproxy.SendSb
import Siproxy.Zmp
import Siproxy.NewEnviron
import Siproxy.Program
import Siproxy.Lib.Keyed
import Siproxy.Mqtt.Delivery
import Siproxy.Mqtt.Progress
import Siproxy.QueueCleanup
import Siproxy.Lib.Framing
import Siproxy.Mqtt.Packet
import Siproxy.Mqtt.Reader
import Siproxy.Mqtt.Writer
import Siproxy.Mqtt.Pipe
import Siproxy.Mqtt.Wire
import Siproxy.Mqtt.WireProgress
import Siproxy.Mqtt.Utf8
import Siproxy.Mqtt.Connection
