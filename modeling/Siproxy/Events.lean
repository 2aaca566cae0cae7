import Siproxy.Lib.CString

/-!
# Events

The events that the three channels (modem, SIP client, MQTT broker) hand to the event handler
thread: `enum EVENT` and `struct evt` of `main.c`.
-/

namespace Siproxy

open CString

/-- `enum EVENT`. -/
inductive Event where
  | none
  -- modem events
  | modemColp
  | modemClip
  | modemNoCarrier
  | modemNoAnswer
  | modemBusy
  | modemOk
  | modemError
  | modemSms
  | modemMax
  -- sip events
  | sipCalling
  | sipIncoming
  | sipEarly
  | sipConnecting
  | sipConfirmed
  | sipDisconnctd
  | sipMax
  -- mqtt events
  | mqttCalling
  | mqttCalled
  | mqttStatus
  | mqttSms
  | mqttMax
  | unknow
  deriving DecidableEq, Repr

/-- `sizeof (evt->val)`. -/
def evtValSize : ℕ := 1024

/-- A well-formed `struct evt`: `val` is a C string that fits its array with the terminator. -/
structure Evt where
  event : Event
  val : CStr
  fits : val.strlen < evtValSize
  deriving DecidableEq

/-- An event that carries no text. -/
def Evt.bare (e : Event) : Evt := ⟨e, ⟨[], by simp⟩, by decide⟩

/-- `NO CARRIER`, `NO ANSWER` and `BUSY`: the modem's leg of the call is over. -/
def Event.isModemEnd : Event → Bool
  | .modemNoCarrier | .modemNoAnswer | .modemBusy => true
  | _ => false

end Siproxy
