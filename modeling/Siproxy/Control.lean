import Siproxy.Events
import Siproxy.Lib.Machine

/-!
# The call control block and its state machine

`struct siproxy_ctrl`, the handlers `state_init` … `state_unknow`, and the dispatcher `state` of
`main.c`.  A handler maps the control block to a new one and to the list of the calls it makes to
the outside (`Output`); where the C code would leave an array, dereference NULL or exit, the
handler halts with the reason (`Halt`).  Diagnostics on stdout and stderr and the sleeps are left
out; the rows of `state_tbl` whose handler is invoked are recorded (`Outcome.ran`).
-/

namespace Siproxy

open CString

/-- `enum STATE`. -/
inductive State where
  | init
  | incoming
  | calling
  | early
  | connecting
  | confirmed
  | disconnctd
  | terminated
  | unknow
  deriving DecidableEq, Repr

/-- `enum CALL_INIT`: the leg the call was initiated from. -/
inductive CallInit where
  | none
  | fromModem
  | fromSip
  deriving DecidableEq, Repr

/-- The fields of `struct siproxy_ctrl` that the state machine reads or writes. -/
structure SiproxyCtrl where
  sipState : State
  modemState : State
  mqttState : State
  state : State
  initDir : CallInit
  /-- The SIP peer URL, set from the command line before the handler thread starts. -/
  sipPeer : CStr
  /-- The other phone number. -/
  simNum : CharArray 255
  uartFd : ℤ
  deriving DecidableEq

/-- `siproxy` as it stands when the event handler thread starts. -/
def initCtrl (sipPeer : CStr) (uartFd : ℤ) : SiproxyCtrl where
  sipState := .init
  modemState := .init
  mqttState := .init
  state := .init
  initDir := .none
  sipPeer := sipPeer
  simNum := .zero 255
  uartFd := uartFd

/-- `siproxy_reset`. -/
def siproxyReset (c : SiproxyCtrl) : SiproxyCtrl :=
  { c with
    sipState := .init
    modemState := .init
    mqttState := .init
    state := .init
    initDir := .none
    simNum := .zero 255 }

theorem siproxyReset_eq (c : SiproxyCtrl) : siproxyReset c = initCtrl c.sipPeer c.uartFd := rfl

/-! ### Topics -/

def topicAliceCalled : CStr := .lit "/100001Alice/Called/PhoneOther" (by decide)

def topicAliceModem : CStr := .lit "/100001Alice/Modem/Status" (by decide)

def topicSms : CStr := .lit "/100001Alice/SMS" (by decide)

def modemCallOk : CStr := .lit "Ok" (by decide)

/-! ### What the handlers ask for -/

/-- A call of one of the utility functions that act on the broker, the SIP client or the modem. -/
inductive Output where
  | mqttPub (topic payload : CStr) (retained : Bool)
  | sipMakeCall (peer : CStr)
  | sipAnswerCall
  | sipHangupCall
  | modemMakeCall (uart : ℤ) (num : CStr)
  | modemAnswerCall (uart : ℤ)
  | modemHangupCall (uart : ℤ)
  | modemSendSms (uart : ℤ) (pdu : CStr) (tpduLen : ℤ)
  deriving DecidableEq

/-- Why the handler thread stops. -/
inductive Halt where
  /-- `mqtt_pub` could not start the send: `exit (-1)`. -/
  | exit
  /-- A `+CLIP` line without two double quotes: `memcpy` from or up to NULL. -/
  | clipUnquoted
  /-- A quoted number that does not fit `phone[256]` with its terminator. -/
  | phoneOverflow
  /-- `strncpy` past the end of `sim_num`. -/
  | simNumOverflow
  /-- A read of `sim_num` past its end, as it holds no terminator. -/
  | simNumUnterminated
  deriving DecidableEq, Repr

/-- Broken-down local time, as far as `%Y-%m-%dT%H:%M:%S` prints it. -/
structure Tm where
  year : Fin 10000
  mon : Fin 12
  mday : Fin 32
  hour : Fin 24
  min : Fin 60
  sec : Fin 61
  deriving DecidableEq

/-- One event together with the answers of the system while it is processed. -/
structure Input where
  evt : Evt
  /-- `tv.tv_sec` of `gettimeofday`. -/
  tvSec : ℕ
  /-- What `MQTTAsync_sendMessage` returns; `MQTTASYNC_SUCCESS` is `0`. -/
  sendRc : ℤ
  deriving DecidableEq

/-- `mqtt_pub`. -/
def mqttPub (sendRc : ℤ) (topic payload : CStr) (retained : Bool) : Except Halt Output :=
  if sendRc = 0 then .ok (.mqttPub topic payload retained) else .error .exit

/-! ### The text of an SMS topic -/

/-- The last decimal digit of a number. -/
def digit (n : ℕ) : Byte := UInt8.ofNat (48 + n % 10)

theorem digit_ne_zero (n : ℕ) : digit n ≠ 0 := by
  have : ∀ k : Fin 10, UInt8.ofNat (48 + k.val) ≠ 0 := by decide
  exact this ⟨n % 10, Nat.mod_lt _ (by decide)⟩

def twoDigits (n : ℕ) : List Byte := [digit (n / 10), digit n]

/-- `strftime (uuid, 20, "%Y-%m-%dT%H:%M:%S", tm)`: nineteen characters. -/
def strftime (tm : Tm) : CStr where
  bytes := twoDigits (tm.year / 100) ++ twoDigits tm.year ++ text "-" ++ twoDigits (tm.mon + 1) ++
    text "-" ++ twoDigits tm.mday ++ text "T" ++ twoDigits tm.hour ++ text ":" ++
    twoDigits tm.min ++ text ":" ++ twoDigits tm.sec
  noNul := by
    have hd (n : ℕ) : 0 ∉ twoDigits n := by
      simp [twoDigits, (digit_ne_zero _).symm]
    have ht : 0 ∉ text "-" ∧ 0 ∉ text "T" ∧ 0 ∉ text ":" := by decide
    simp only [List.mem_append, hd, ht, or_self, not_false_iff]

/-- `snprintf (sms_topic, 64, TOPIC_SMS"/%s", uuid)`. -/
def smsTopic (tm : Tm) : CStr :=
  snprintf 64 ⟨topicSms.bytes ++ text "/" ++ (strftime tm).bytes, by
    have ht : 0 ∉ text "/" := by decide
    simp only [List.mem_append, topicSms.noNul, ht, (strftime tm).noNul, or_self, not_false_iff]⟩

/-- `(strlen (evt->val) - 2)/2` in `size_t`, passed as an `int`. -/
def tpduLen (val : CStr) : ℤ := (((BitVec.ofNat 64 val.strlen - 2) / 2).setWidth 32).toInt

/-! ### Handlers -/

/-- The control block and the outputs of a handler, unless it halts. -/
abbrev Result := Except Halt (SiproxyCtrl × List Output)

/-- The number between the first two double quotes of a `+CLIP` line, copied to `phone[256]`. -/
def clipPhone (val : CStr) : Except Halt CStr :=
  match strstr (text "\"") val.bytes with
  | none => .error .clipUnquoted
  | some start =>
    match strstr (text "\"") (val.bytes.drop (start + 1)) with
    | none => .error .clipUnquoted
    | some len => if len < 256 then .ok (val.slice (start + 1) len) else .error .phoneOverflow

/-- `state_init`. -/
def stateInit (inp : Input) (c : SiproxyCtrl) : Result :=
  match inp.evt.event with
  | .mqttCalling =>
    match (CharArray.zero 255).strncpy inp.evt.val inp.evt.val.strlen with
    | none => .error .simNumOverflow
    | some simNum => .ok ({ c with simNum := simNum, mqttState := .incoming }, [])
  | .modemClip =>
    if c.initDir = .none then do
      let phone ← clipPhone inp.evt.val
      let pub ← mqttPub inp.sendRc topicAliceCalled phone false
      .ok ({ c with
              initDir := .fromModem
              modemState := .incoming
              sipState := .calling
              state := .incoming }, [pub, .sipMakeCall c.sipPeer])
    else .ok (c, [])
  | .sipIncoming =>
    if c.initDir = .none ∧ c.mqttState = .incoming then
      .ok ({ c with
              initDir := .fromSip
              sipState := .incoming
              state := .incoming }, [.sipAnswerCall])
    else .ok (c, [])
  | _ => .ok (c, [])

/-- The modem's leg is over: hang up the SIP leg, whichever side initiated the call. -/
def endFromModem (c : SiproxyCtrl) : SiproxyCtrl × List Output :=
  (siproxyReset c,
    (if c.initDir = .fromSip then [.sipHangupCall] else []) ++
      (if c.initDir = .fromModem then [.sipHangupCall] else []))

/-- The SIP leg is over: hang up the modem's leg, whichever side initiated the call. -/
def endFromSip (c : SiproxyCtrl) : SiproxyCtrl × List Output :=
  (siproxyReset c,
    (if c.initDir = .fromModem then [.modemHangupCall c.uartFd] else []) ++
      (if c.initDir = .fromSip then [.modemHangupCall c.uartFd] else []))

/-- The SIP leg is confirmed: dial the stored number (first `if`), or answer the modem's call
(second `if`). -/
def sipConfirmed (c : SiproxyCtrl) : Result :=
  match c.initDir with
  | .fromSip =>
    match c.simNum.str? with
    | none => .error .simNumUnterminated
    | some num => .ok ({ c with sipState := .confirmed, modemState := .calling },
        [.modemMakeCall c.uartFd num])
  | .fromModem =>
    .ok ({ c with sipState := .confirmed, modemState := .confirmed, state := .confirmed },
      [.modemAnswerCall c.uartFd])
  | .none => .ok (c, [])

/-- `state_incoming`. -/
def stateIncoming (inp : Input) (c : SiproxyCtrl) : Result :=
  match inp.evt.event with
  | .modemColp =>
    if c.initDir = .fromSip then do
      let pub ← mqttPub inp.sendRc topicAliceModem modemCallOk false
      .ok ({ c with modemState := .confirmed, state := .confirmed }, [pub])
    else .ok (c, [])
  | .modemNoCarrier | .modemNoAnswer | .modemBusy => .ok (endFromModem c)
  | .sipConfirmed => sipConfirmed c
  | .sipDisconnctd => .ok (endFromSip c)
  | _ => .ok (c, [])

/-- `state_confirmed`. -/
def stateConfirmed (inp : Input) (c : SiproxyCtrl) : Result :=
  match inp.evt.event with
  | .modemNoCarrier | .modemNoAnswer | .modemBusy => .ok (endFromModem c)
  | .sipDisconnctd => .ok (endFromSip c)
  | _ => .ok (c, [])

/-- A handler whose `switch` does nothing on any event. -/
def stateIgnore (_ : Input) (c : SiproxyCtrl) : Result := .ok (c, [])

/-- `state_calling`. -/
def stateCalling := stateIgnore

/-- `state_early`. -/
def stateEarly := stateIgnore

/-- `state_connecting`. -/
def stateConnecting := stateIgnore

/-- `state_disconnctd`. -/
def stateDisconnctd := stateIgnore

/-- `state_terminated`. -/
def stateTerminated := stateIgnore

/-- `state_unknow`. -/
def stateUnknow := stateIgnore

/-! ### Dispatch -/

/-- `state_tbl`. -/
def stateTbl : List (State × (Input → SiproxyCtrl → Result)) :=
  [(.init, stateInit), (.incoming, stateIncoming), (.calling, stateCalling), (.early, stateEarly),
    (.connecting, stateConnecting), (.confirmed, stateConfirmed), (.disconnctd, stateDisconnctd),
    (.terminated, stateTerminated), (.unknow, stateUnknow)]

/-- What one call of `state` leaves behind. -/
structure Outcome where
  ctrl : SiproxyCtrl
  outs : List Output
  /-- The rows of `state_tbl` whose handler was invoked, in order. -/
  ran : List State
  deriving DecidableEq

/-- The loop of `state` over the rows of the table that are left.  An SMS leaves the function in
the first round; otherwise every row is compared with the state the rows before it have left. -/
def scanTbl (localtime : ℕ → Tm) (inp : Input) :
    List (State × (Input → SiproxyCtrl → Result)) → SiproxyCtrl → Except Halt Outcome
  | [], c => .ok ⟨c, [], []⟩
  | (st, func) :: rows, c =>
    match inp.evt.event with
    | .modemSms => do
      let pub ← mqttPub inp.sendRc (smsTopic (localtime inp.tvSec)) inp.evt.val true
      .ok ⟨c, [pub], []⟩
    | .mqttSms => .ok ⟨c, [.modemSendSms c.uartFd inp.evt.val (tpduLen inp.evt.val)], []⟩
    | _ =>
      if c.state = st then do
        let (c', outs) ← func inp c
        let rest ← scanTbl localtime inp rows c'
        .ok ⟨rest.ctrl, outs ++ rest.outs, st :: rest.ran⟩
      else scanTbl localtime inp rows c

/-- `state`. -/
def state (localtime : ℕ → Tm) (c : SiproxyCtrl) (inp : Input) : Except Halt Outcome :=
  scanTbl localtime inp stateTbl c

/-- One round of the event handler thread, as a machine. -/
def step (localtime : ℕ → Tm) (c : SiproxyCtrl) (inp : Input) : Result :=
  (state localtime c inp).map fun o => (o.ctrl, o.outs)

end Siproxy
