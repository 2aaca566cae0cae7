import Mathlib.Algebra.Order.Ring.Nat
import Siproxy.Lib.CString
import Siproxy.Lib.Lines

/-!
# The telnet tracker

The receiving half of `telnet.c`: the option table of RFC 1143, the subnegotiation buffer with the
decoders that read it, and the body of the loop of `_process` (`byteStep`).

A `TELNET_EV_DATA` event refers to a range of the receive buffer by its offset, or to the local
variable that holds the current byte.
-/

namespace Siproxy.Telnet

open CString

/-- `telnet_state_t`. -/
inductive TelnetState where
  | data
  | iac
  | will
  | wont
  | do_
  | dont
  | sb
  | sbData
  | sbDataIac
  deriving DecidableEq, Repr

/-- The `Q_*` states of an option. -/
inductive QState where
  | no
  | yes
  | wantNo
  | wantYes
  | wantNoOp
  | wantYesOp
  deriving DecidableEq, Repr

/-- `telnet_rfc1143_t`, with the two halves of `state`. -/
structure Rfc1143 where
  telopt : Byte
  us : QState
  him : QState
  deriving DecidableEq

/-- `telnet_telopt_t`. -/
structure Telopt where
  telopt : Byte
  us : Byte
  him : Byte
  deriving DecidableEq

/-- An entry of an `ENVIRON` or `MSSP` event; names and values are the ranges of the buffer that
were written for them. -/
structure EnvValue where
  type : Byte
  var : List Byte
  value : List Byte
  deriving DecidableEq

/-- Where the bytes of a `TELNET_EV_DATA` event are. -/
inductive Ptr where
  /-- An offset in the receive buffer. -/
  | buffer (off : ℕ)
  /-- The local variable `byte` of `_process`. -/
  | byte (b : Byte)
  deriving DecidableEq

/-- `telnet_event_t`. -/
inductive TelnetEvent where
  | data (ptr : Ptr) (size : ℕ)
  | send (bytes : List Byte)
  | iac (cmd : Byte)
  | will (telopt : Byte)
  | wont (telopt : Byte)
  | do_ (telopt : Byte)
  | dont (telopt : Byte)
  | subnegotiation (telopt : Byte) (buffer : List Byte)
  | zmp (argv : List (List Byte))
  | ttype (cmd : Byte) (name : Option (List Byte))
  | environ (cmd : Byte) (values : List EnvValue)
  /-- An entry that was counted but not filled has no name and no value. -/
  | mssp (values : List (Option EnvValue))
  | warning (msg : String)
  deriving DecidableEq

/-- `telnet_t`.  The list `heap` tells which of the next allocations succeed; behind its end they
all do. -/
structure Tracker where
  telopts : List Telopt
  /-- `TELNET_FLAG_PROXY`. -/
  proxy : Bool
  q : List Rfc1143
  /-- The first `buffer_pos` bytes of the buffer. -/
  buffer : List Byte
  bufferSize : ℕ
  state : TelnetState
  sbTelopt : Byte
  heap : List Bool
  deriving DecidableEq

/-- `telnet_init`. -/
def telnetInit (telopts : List Telopt) (proxy : Bool) (heap : List Bool) : Tracker :=
  ⟨telopts, proxy, [], [], 0, .data, 0, heap⟩

/-- Whether the next allocation succeeds. -/
def Tracker.allocOk (t : Tracker) : Bool := t.heap.headD true

/-- After an allocation. -/
def Tracker.alloc (t : Tracker) : Tracker := { t with heap := t.heap.tail }

/-! ### Option negotiation -/

/-- `_check_telopt`; `251` is `WILL` and `253` is `DO`. -/
def checkTelopt (t : Tracker) (telopt : Byte) (us : Bool) : Bool :=
  match t.telopts.find? (·.telopt = telopt) with
  | none => false
  | some row => if us then row.us == 251 else row.him == 253

/-- `_get_rfc1143`. -/
def getRfc1143 (t : Tracker) (telopt : Byte) : Rfc1143 :=
  (t.q.find? (·.telopt = telopt)).getD ⟨telopt, .no, .no⟩

/-- The first entry for an option is overwritten. -/
def replaceFirst (r : Rfc1143) : List Rfc1143 → List Rfc1143
  | [] => []
  | r' :: rs => if r'.telopt = r.telopt then r :: rs else r' :: replaceFirst r rs

/-- `_set_rfc1143`.  The table grows by four entries, three of them zero, and its size is an
`unsigned char`. -/
def setRfc1143 (t : Tracker) (telopt : Byte) (us him : QState) : Tracker × List TelnetEvent :=
  if t.q.any (·.telopt = telopt) then
    ({ t with q := replaceFirst ⟨telopt, us, him⟩ t.q }, [])
  else if t.allocOk then
    let q := t.q ++ ⟨telopt, us, him⟩ :: List.replicate 3 ⟨0, .no, .no⟩
    ({ t.alloc with q := q.take (q.length % 256) }, [])
  else (t.alloc, [.warning "realloc() failed: Cannot allocate memory"])

/-- `_send_negotiate`. -/
def sendNegotiate (cmd telopt : Byte) : TelnetEvent := .send [255, cmd, telopt]

/-- An option is set and events are raised. -/
def settle (t : Tracker) (telopt : Byte) (us him : QState) (evs : List TelnetEvent) :
    Tracker × List TelnetEvent :=
  ((setRfc1143 t telopt us him).1, (setRfc1143 t telopt us him).2 ++ evs)

/-- `_negotiate`, in the states `WILL`, `WONT`, `DO` and `DONT`. -/
def negotiate (t : Tracker) (telopt : Byte) : Tracker × List TelnetEvent :=
  let q := getRfc1143 t telopt
  match t.state with
  | .will =>
    if t.proxy then (t, [.will telopt])
    else
      match q.him with
      | .no =>
        if checkTelopt t telopt false then
          settle t telopt q.us .yes [sendNegotiate 253 telopt, .will telopt]
        else (t, [sendNegotiate 254 telopt])
      | .yes => (t, [])
      | .wantNo => settle t telopt q.us .no [.wont telopt, .warning "DONT answered by WILL"]
      | .wantNoOp => settle t telopt q.us .yes [.will telopt, .warning "DONT answered by WILL"]
      | .wantYes => settle t telopt q.us .yes [.will telopt]
      | .wantYesOp => settle t telopt q.us .wantNo [sendNegotiate 254 telopt, .will telopt]
  | .wont =>
    if t.proxy then (t, [.wont telopt])
    else
      match q.him with
      | .no => (t, [])
      | .yes => settle t telopt q.us .no [sendNegotiate 254 telopt, .wont telopt]
      | .wantNo => settle t telopt q.us .no [.wont telopt]
      | .wantNoOp => settle t telopt q.us .wantYes [.do_ telopt]
      | .wantYes | .wantYesOp => settle t telopt q.us .no []
  | .do_ =>
    if t.proxy then (t, [.do_ telopt])
    else
      match q.us with
      | .no =>
        if checkTelopt t telopt true then
          settle t telopt .yes q.him [sendNegotiate 251 telopt, .do_ telopt]
        else (t, [sendNegotiate 252 telopt])
      | .yes => (t, [])
      | .wantNo => settle t telopt .no q.him [.dont telopt, .warning "WONT answered by DO"]
      | .wantNoOp => settle t telopt .yes q.him [.do_ telopt, .warning "WONT answered by DO"]
      | .wantYes => settle t telopt .yes q.him [.do_ telopt]
      | .wantYesOp => settle t telopt .wantNo q.him [sendNegotiate 252 telopt, .do_ telopt]
  | .dont =>
    if t.proxy then (t, [.dont telopt])
    else
      match q.us with
      | .no => (t, [])
      | .yes => settle t telopt .no q.him [sendNegotiate 252 telopt, .dont telopt]
      | .wantNo => settle t telopt .no q.him [.wont telopt]
      | .wantNoOp =>
        settle t telopt .wantYes q.him [sendNegotiate 251 telopt, .will telopt]
      | .wantYes | .wantYesOp => settle t telopt .no q.him []
  | _ => (t, [])

/-! ### The subnegotiation buffer -/

/-- `_buffer_sizes`. -/
def bufferSizes : List ℕ := [0, 512, 2048, 8192, 16384]

/-- The size behind the current one in the table. -/
def nextBufferSize (size : ℕ) : Option ℕ := ((bufferSizes.dropWhile (· ≠ size)).drop 1).head?

/-- `_buffer_byte`; the flag tells whether the byte was stored. -/
def bufferByte (t : Tracker) (byte : Byte) : Tracker × Bool × List TelnetEvent :=
  if t.buffer.length = t.bufferSize then
    match nextBufferSize t.bufferSize with
    | none => (t, false, [.warning "subnegotiation buffer size limit reached"])
    | some size =>
      if t.allocOk then
        ({ t.alloc with buffer := t.buffer ++ [byte], bufferSize := size }, true, [])
      else (t.alloc, false, [.warning "realloc() failed"])
  else ({ t with buffer := t.buffer ++ [byte] }, true, [])

/-! ### Decoders -/

/-- The positions of a decoder that copies the buffer onto itself. -/
structure Cursor where
  buf : List Byte
  c : ℕ
  out : ℕ
  deriving DecidableEq

/-- `*out++ = '\0'`. -/
def Cursor.nul (k : Cursor) : Cursor := { k with buf := k.buf.set k.out 0, out := k.out + 1 }

/-- The copying loops: up to a byte that stops them, and over an escape byte, if there is one. -/
def copyUntil (stop : Byte → Bool) (esc : Option Byte) (size : ℕ) (k : Cursor) : Cursor :=
  if k.c < size then
    if stop (k.buf.getD k.c 0) then k
    else
      let c := if esc = some (k.buf.getD k.c 0) then k.c + 1 else k.c
      copyUntil stop esc size ⟨k.buf.set k.out (k.buf.getD c 0), c + 1, k.out + 1⟩
  else k
termination_by size - k.c
decreasing_by
  split <;> omega

theorem le_copyUntil_c (stop : Byte → Bool) (esc : Option Byte) (size : ℕ) (k : Cursor) :
    k.c ≤ (copyUntil stop esc size k).c := by
  fun_induction copyUntil stop esc size k with
  | case1 => exact le_rfl
  | case2 k hlt hgo c ih =>
    refine le_trans ?_ ih
    simp only [c]
    split <;> omega
  | case3 => exact le_rfl

theorem length_nul (k : Cursor) : k.nul.buf.length = k.buf.length := List.length_set

theorem length_copyUntil (stop : Byte → Bool) (esc : Option Byte) (size : ℕ) (k : Cursor) :
    (copyUntil stop esc size k).buf.length = k.buf.length := by
  fun_induction copyUntil stop esc size k with
  | case1 => rfl
  | case2 k hlt hgo c ih => simpa using ih
  | case3 => rfl

/-- A value whose name and text are still ranges of the buffer. -/
structure RangeValue where
  type : Byte
  var : ℕ × ℕ
  value : Option (ℕ × ℕ)

/-- The bytes of a range. -/
def range (buf : List Byte) (r : ℕ × ℕ) : List Byte := (buf.drop r.1).take r.2

def RangeValue.read (buf : List Byte) (v : RangeValue) : EnvValue :=
  ⟨v.type, range buf v.var, (v.value.map (range buf)).getD []⟩

/-- The counting loop of `_environ_telnet`: `VAR` is `0`, `ESC` is `2` and `USERVAR` is `3`. -/
def environCount : List Byte → ℕ
  | [] => 0
  | [b] => if b = 0 ∨ b = 3 then 1 else 0
  | b :: x :: s =>
    if b = 0 ∨ b = 3 then environCount (x :: s) + 1
    else if b = 2 then environCount s
    else environCount (x :: s)

/-- The parsing loop of `_environ_telnet`; `VALUE` is `1`. -/
def environVars (size : ℕ) : ℕ → Cursor → List RangeValue × Cursor
  | 0, k => ([], k)
  | n + 1, k =>
    let type := k.buf.getD k.c 0
    let k₁ := copyUntil (fun b => b = 0 || b = 1 || b = 3) (some 2) size { k with c := k.c + 1 }
    let var := (k.out, k₁.out - k.out)
    let k₂ := k₁.nul
    if k₂.c < size ∧ k₂.buf.getD k₂.c 0 = 1 then
      let k₃ := copyUntil (fun b => b = 0 || b = 3) (some 2) size { k₂ with c := k₂.c + 1 }
      let rest := environVars size n k₃.nul
      (⟨type, var, some (k₂.out, k₃.out - k₂.out)⟩ :: rest.1, rest.2)
    else
      let rest := environVars size n k₂
      (⟨type, var, none⟩ :: rest.1, rest.2)

theorem length_environVars (size n : ℕ) (k : Cursor) :
    (environVars size n k).2.buf.length = k.buf.length := by
  induction n generalizing k with
  | zero => rfl
  | succ n ih =>
    unfold environVars
    dsimp only
    split_ifs <;> simp only [ih, length_nul, length_copyUntil]

/-- `_environ_telnet`; the flag is its return value. -/
def environTelnet (t : Tracker) : Tracker × Bool × List TelnetEvent :=
  let telopt := toString t.sbTelopt.toNat
  match t.buffer with
  | [] => (t, false, [])
  | cmd :: rest =>
    if cmd ≠ 1 ∧ cmd ≠ 0 ∧ cmd ≠ 2 then
      (t, false, [.warning ("telopt " ++ telopt ++ " subneg has invalid command")])
    else
      match rest with
      | [] => (t, true, [.environ cmd []])
      | type :: _ =>
        if type ≠ 0 ∧ type ≠ 3 then
          (t, false, [.warning ("telopt " ++ telopt ++ " subneg missing variable type")])
        else if t.buffer.getLast? = some 2 then
          (t, false, [.warning ("telopt " ++ telopt ++ " subneg ends with ESC")])
        else if t.allocOk then
          let vars := environVars t.buffer.length (environCount rest) ⟨t.buffer, 1, 0⟩
          ({ t.alloc with buffer := vars.2.buf }, true,
            [.environ cmd (vars.1.map (·.read vars.2.buf))])
        else (t.alloc, false, [.warning "calloc() failed: Cannot allocate memory"])

/-- The loop of `_mssp_telnet`; `VAR` is `1` and `VAL` is `2`. -/
def msspLoop (size : ℕ) (k : Cursor) (nextType : Byte) (var : Option (ℕ × ℕ))
    (values : List RangeValue) : Option (List RangeValue × Cursor) :=
  if k.c < size then
    let k₁ := copyUntil (fun b => b = 1 || b = 2) none size k
    let part := (k.out, k₁.out - k.out)
    let k₂ := k₁.nul
    let next := k₂.buf.getD k₂.c 0
    let k₃ : Cursor := { k₂ with c := k₂.c + 1 }
    have : k.c < k₃.c := Nat.lt_succ_of_le (le_copyUntil_c _ _ size k)
    if nextType = 1 then msspLoop size k₃ next (some part) values
    else
      match var with
      | some var =>
        if nextType = 2 then msspLoop size k₃ next (some var) (values ++ [⟨0, var, some part⟩])
        else none
      | none => none
  else some (values, k)
termination_by size - k.c
decreasing_by
  all_goals exact Nat.sub_lt_sub_left (by assumption) this

theorem length_msspLoop {size : ℕ} {k k' : Cursor} {nextType : Byte} {var : Option (ℕ × ℕ)}
    {values values' : List RangeValue}
    (h : msspLoop size k nextType var values = some (values', k')) :
    k'.buf.length = k.buf.length := by
  fun_induction msspLoop size k nextType var values with
  | case1 k var values hlt k₁ part k₂ next k₃ _ ih =>
    rw [ih h]
    exact (length_nul k₁).trans (length_copyUntil _ _ _ _)
  | case2 k values hlt k₁ part k₂ next k₃ _ var hvar ih =>
    rw [ih h]
    exact (length_nul k₁).trans (length_copyUntil _ _ _ _)
  | case3 => cases h
  | case4 => cases h
  | case5 k =>
    cases h
    rfl

/-- `_mssp_telnet`.  As many entries are allocated as there are `VAL` bytes. -/
def msspTelnet (t : Tracker) : Tracker × Bool × List TelnetEvent :=
  match t.buffer with
  | [] => (t, false, [])
  | b :: _ =>
    if b ≠ 1 then (t, false, [.warning "MSSP subnegotiation has invalid data"])
    else if t.allocOk then
      match msspLoop t.buffer.length ⟨t.buffer, 1, 0⟩ b none [] with
      | none => (t.alloc, false, [.warning "invalid MSSP subnegotiation data"])
      | some (values, k) =>
        ({ t.alloc with buffer := k.buf }, false,
          [.mssp (values.map (fun v => some (v.read k.buf)) ++
            List.replicate (t.buffer.count 2 - values.length) none)])
    else (t.alloc, false, [.warning "calloc() failed: Cannot allocate memory"])

/-- `_zmp_telnet`: the arguments are the strings in the buffer. -/
def zmpTelnet (t : Tracker) : Tracker × Bool × List TelnetEvent :=
  if t.buffer.getLast? ≠ some 0 then (t, false, [.warning "incomplete ZMP frame"])
  else if t.allocOk then (t.alloc, false, [.zmp (Lines.scan 0 [] t.buffer).1])
  else (t.alloc, false, [.warning "calloc() failed: Cannot allocate memory"])

/-- `_ttype_telnet`: `IS` is `0` and `SEND` is `1`. -/
def ttypeTelnet (t : Tracker) : Tracker × Bool × List TelnetEvent :=
  match t.buffer with
  | [] => (t, false, [.warning "incomplete TERMINAL-TYPE request"])
  | b :: name =>
    if b = 0 then
      if t.allocOk then (t.alloc, false, [.ttype 0 (some name)])
      else (t.alloc, false, [.warning "malloc() failed: Cannot allocate memory"])
    else if b = 1 then (t, false, [.ttype 1 none])
    else (t, false, [.warning "TERMINAL-TYPE request has invalid type"])

/-- `_subnegotiate`; the flag is its return value. -/
def subnegotiate (t : Tracker) : Tracker × Bool × List TelnetEvent :=
  let r :=
    if t.sbTelopt = 93 then zmpTelnet t
    else if t.sbTelopt = 24 then ttypeTelnet t
    else if t.sbTelopt = 36 ∨ t.sbTelopt = 39 then environTelnet t
    else if t.sbTelopt = 70 then msspTelnet t
    else (t, false, [])
  (r.1, r.2.1, .subnegotiation t.sbTelopt t.buffer :: r.2.2)

/-! ### One byte -/

/-- `i - start` in `size_t`. -/
def sizeT (i start : ℕ) : ℕ := (i + 2 ^ 64 - start) % 2 ^ 64

/-- The state `IAC`; the flag tells whether data starts behind the byte. -/
def iacByte (t : Tracker) (byte : Byte) : Tracker × Bool × List TelnetEvent :=
  if byte = 250 then ({ t with state := .sb }, false, [])
  else if byte = 251 then ({ t with state := .will }, false, [])
  else if byte = 252 then ({ t with state := .wont }, false, [])
  else if byte = 253 then ({ t with state := .do_ }, false, [])
  else if byte = 254 then ({ t with state := .dont }, false, [])
  else if byte = 255 then ({ t with state := .data }, true, [.data (.byte byte) 1])
  else ({ t with state := .data }, true, [.iac byte])

/-- The body of the loop of `_process`, at position `i` and with data pending from `start` on: the
tracker, the new `start` and the events.  Where `_subnegotiate` returns a value other than `0`, the
source calls `telnet_recv` on the rest of the buffer and returns, which goes on with the loop at
`i + 1`, without another look at the byte. -/
def byteStep (t : Tracker) (i start : ℕ) (byte : Byte) : Tracker × ℕ × List TelnetEvent :=
  match t.state with
  | .data =>
    if byte = 255 then
      ({ t with state := .iac }, start,
        if i ≠ start then [.data (.buffer start) (sizeT i start)] else [])
    else (t, start, [])
  | .iac =>
    let r := iacByte t byte
    (r.1, if r.2.1 then i + 1 else start, r.2.2)
  | .will | .wont | .do_ | .dont =>
    let r := negotiate t byte
    ({ r.1 with state := .data }, i + 1, r.2)
  | .sb => ({ t with sbTelopt := byte, buffer := [], state := .sbData }, start, [])
  | .sbData =>
    if byte = 255 then ({ t with state := .sbDataIac }, start, [])
    else if t.sbTelopt = 85 ∧ byte = 251 then ({ t with state := .data }, i + 2, [])
    else
      let r := bufferByte t byte
      if r.2.1 then (r.1, start, r.2.2) else ({ r.1 with state := .data }, i + 1, r.2.2)
  | .sbDataIac =>
    if byte = 240 then
      let r := subnegotiate { t with state := .data }
      (r.1, i + 1, r.2.2)
    else if byte = 255 then
      let r := bufferByte t byte
      if r.2.1 then ({ r.1 with state := .sbData }, start, r.2.2)
      else ({ r.1 with state := .data }, i + 1, r.2.2)
    else
      let w := TelnetEvent.warning ("unexpected byte after IAC inside SB: " ++ toString byte.toNat)
      let r := subnegotiate { t with state := .iac }
      if r.2.1 then (r.1, i + 1, w :: r.2.2)
      else
        let r' := iacByte r.1 byte
        (r'.1, i + 1, w :: r.2.2 ++ r'.2.2)

/-- The states of a negotiation. -/
def TelnetState.IsVerb (s : TelnetState) : Prop := s = .will ∨ s = .wont ∨ s = .do_ ∨ s = .dont

instance (s : TelnetState) : Decidable s.IsVerb := inferInstanceAs (Decidable (_ ∨ _ ∨ _ ∨ _))

theorem byteStep_verb {t : Tracker} (h : t.state.IsVerb) (i start : ℕ) (byte : Byte) :
    byteStep t i start byte =
      ({ (negotiate t byte).1 with state := .data }, i + 1, (negotiate t byte).2) := by
  rcases h with h | h | h | h <;> simp only [byteStep, h]

/-! ### Data and its place -/

def TelnetEvent.isData : TelnetEvent → Bool
  | .data _ _ => true
  | _ => false

/-- The offset and the size of data in the receive buffer. -/
def TelnetEvent.range? : TelnetEvent → Option (ℕ × ℕ)
  | .data (.buffer off) size => some (off, size)
  | _ => none

/-- None of the events is about data. -/
def NoData (evs : List TelnetEvent) : Prop := ∀ ev ∈ evs, ev.isData = false

/-- `WILL`, `WONT`, `DO` and `DONT`. -/
def verbs : List Byte := [251, 252, 253, 254]

/-- The events of a negotiation about an option: replies, notifications and warnings. -/
def TelnetEvent.Negotiates (telopt : Byte) : TelnetEvent → Prop
  | .send bytes => ∃ cmd ∈ verbs, bytes = [255, cmd, telopt]
  | .will o | .wont o | .do_ o | .dont o => o = telopt
  | .warning _ => True
  | _ => False

theorem setRfc1143_negotiates (t : Tracker) (telopt : Byte) (us him : QState) :
    ∀ ev ∈ (setRfc1143 t telopt us him).2, ev.Negotiates telopt := by
  unfold setRfc1143
  split_ifs <;> simp [TelnetEvent.Negotiates]

theorem settle_negotiates {t : Tracker} {telopt : Byte} {us him : QState}
    {evs : List TelnetEvent} (h : ∀ ev ∈ evs, ev.Negotiates telopt) :
    ∀ ev ∈ (settle t telopt us him evs).2, ev.Negotiates telopt := by
  intro ev hev
  rcases List.mem_append.1 hev with hev | hev
  · exact setRfc1143_negotiates t telopt us him ev hev
  · exact h ev hev

theorem negotiate_negotiates (t : Tracker) (telopt : Byte) :
    ∀ ev ∈ (negotiate t telopt).2, ev.Negotiates telopt := by
  have one {us him : QState} {evs : List TelnetEvent} (h : ∀ ev ∈ evs, ev.Negotiates telopt) :
      ∀ ev ∈ (settle t telopt us him evs).2, ev.Negotiates telopt := settle_negotiates h
  unfold negotiate
  by_cases hp : t.proxy = true
  · simp only [hp, if_true]
    split <;> simp [TelnetEvent.Negotiates]
  · simp only [hp, Bool.false_eq_true, if_false]
    cases t.state with
    | will =>
      cases (getRfc1143 t telopt).him with
      | no =>
        dsimp only
        split_ifs
        · exact one (by simp [TelnetEvent.Negotiates, sendNegotiate, verbs])
        · simp [TelnetEvent.Negotiates, sendNegotiate, verbs]
      | yes => simp
      | _ => exact one (by simp [TelnetEvent.Negotiates, sendNegotiate, verbs])
    | wont =>
      cases (getRfc1143 t telopt).him with
      | no => simp
      | _ => exact one (by simp [TelnetEvent.Negotiates, sendNegotiate, verbs])
    | do_ =>
      cases (getRfc1143 t telopt).us with
      | no =>
        dsimp only
        split_ifs
        · exact one (by simp [TelnetEvent.Negotiates, sendNegotiate, verbs])
        · simp [TelnetEvent.Negotiates, sendNegotiate, verbs]
      | yes => simp
      | _ => exact one (by simp [TelnetEvent.Negotiates, sendNegotiate, verbs])
    | dont =>
      cases (getRfc1143 t telopt).us with
      | no => simp
      | _ => exact one (by simp [TelnetEvent.Negotiates, sendNegotiate, verbs])
    | _ => simp

theorem negotiate_noData (t : Tracker) (telopt : Byte) : NoData (negotiate t telopt).2 := by
  intro ev hev
  have raised := negotiate_negotiates t telopt ev hev
  cases ev with
  | data ptr size => exact raised.elim
  | _ => rfl

theorem bufferByte_noData (t : Tracker) (byte : Byte) : NoData (bufferByte t byte).2.2 := by
  unfold bufferByte
  repeat' split
  all_goals simp [NoData, TelnetEvent.isData]

/-- What `_set_rfc1143` changes: the table and the next allocations. -/
theorem setRfc1143_frame (t : Tracker) (telopt : Byte) (us him : QState) :
    ∃ q heap, (setRfc1143 t telopt us him).1 = { t with q := q, heap := heap } ∧
      heap ⊆ t.heap := by
  unfold setRfc1143
  split_ifs
  · exact ⟨_, t.heap, rfl, List.Subset.refl _⟩
  · exact ⟨_, t.heap.tail, rfl, (List.tail_sublist _).subset⟩
  · exact ⟨t.q, t.heap.tail, rfl, (List.tail_sublist _).subset⟩

theorem negotiate_frame (t : Tracker) (telopt : Byte) :
    ∃ q heap, (negotiate t telopt).1 = { t with q := q, heap := heap } ∧ heap ⊆ t.heap := by
  unfold negotiate
  dsimp only
  repeat' split
  all_goals first
    | exact setRfc1143_frame t telopt _ _
    | exact ⟨t.q, t.heap, rfl, List.Subset.refl _⟩

/-- What `_buffer_byte` changes: the buffer and the next allocations. -/
theorem bufferByte_frame (t : Tracker) (byte : Byte) :
    ∃ buffer size heap, (bufferByte t byte).1 =
      { t with buffer := buffer, bufferSize := size, heap := heap } ∧ heap ⊆ t.heap := by
  unfold bufferByte
  repeat' split
  · exact ⟨t.buffer, t.bufferSize, t.heap, rfl, List.Subset.refl _⟩
  · exact ⟨_, _, t.heap.tail, rfl, (List.tail_sublist _).subset⟩
  · exact ⟨t.buffer, t.bufferSize, t.heap.tail, rfl, (List.tail_sublist _).subset⟩
  · exact ⟨_, t.bufferSize, t.heap, rfl, List.Subset.refl _⟩

theorem bufferByte_state (t : Tracker) (byte : Byte) : (bufferByte t byte).1.state = t.state := by
  obtain ⟨buffer, size, heap, frame, -⟩ := bufferByte_frame t byte
  rw [frame]

theorem iacByte_frame (t : Tracker) (byte : Byte) :
    ∃ state, (iacByte t byte).1 = { t with state := state } := by
  unfold iacByte
  split_ifs <;> exact ⟨_, rfl⟩

/-- What the decoders change: bytes of the buffer and the next allocations. -/
theorem subnegotiate_frame (t : Tracker) :
    ∃ buffer heap, (subnegotiate t).1 = { t with buffer := buffer, heap := heap } ∧
      heap ⊆ t.heap := by
  have tail : t.heap.tail ⊆ t.heap := (List.tail_sublist _).subset
  have same : ∃ buffer heap, t = { t with buffer := buffer, heap := heap } ∧ heap ⊆ t.heap :=
    ⟨t.buffer, t.heap, rfl, List.Subset.refl _⟩
  have alloc : ∃ buffer heap, t.alloc = { t with buffer := buffer, heap := heap } ∧
      heap ⊆ t.heap := ⟨t.buffer, t.heap.tail, rfl, tail⟩
  unfold subnegotiate
  dsimp only
  split_ifs
  · unfold zmpTelnet
    split_ifs
    · exact same
    · exact alloc
    · exact alloc
  · unfold ttypeTelnet
    split
    · exact same
    · split_ifs
      · exact alloc
      · exact alloc
      · exact same
      · exact same
  · unfold environTelnet
    dsimp only
    split
    · exact same
    split
    · exact same
    split
    · exact same
    split
    · exact same
    split
    · exact same
    split
    · exact ⟨_, t.heap.tail, rfl, tail⟩
    · exact alloc
  · unfold msspTelnet
    split
    · exact same
    split
    · exact same
    split
    · split
      · exact alloc
      · exact ⟨_, t.heap.tail, rfl, tail⟩
    · exact alloc
  · exact same

theorem environTelnet_noData (t : Tracker) : NoData (environTelnet t).2.2 := by
  unfold environTelnet
  dsimp only
  repeat' split
  all_goals simp [NoData, TelnetEvent.isData]

theorem msspTelnet_noData (t : Tracker) : NoData (msspTelnet t).2.2 := by
  unfold msspTelnet
  repeat' split
  all_goals simp [NoData, TelnetEvent.isData]

theorem subnegotiate_noData (t : Tracker) : NoData (subnegotiate t).2.2 := by
  have zmp : NoData (zmpTelnet t).2.2 := by
    unfold zmpTelnet
    split_ifs <;> simp [NoData, TelnetEvent.isData]
  have ttype : NoData (ttypeTelnet t).2.2 := by
    unfold ttypeTelnet
    split
    · simp [NoData, TelnetEvent.isData]
    · split_ifs <;> simp [NoData, TelnetEvent.isData]
  intro ev hev
  rcases List.mem_cons.1 hev with rfl | hev
  · rfl
  · revert hev
    split_ifs
    · exact zmp ev
    · exact ttype ev
    · exact environTelnet_noData t ev
    · exact msspTelnet_noData t ev
    · simp

theorem iacByte_noData {t : Tracker} {byte : Byte} (h : byte ≠ 255) :
    NoData (iacByte t byte).2.2 := by
  unfold iacByte
  split_ifs <;> simp [NoData, TelnetEvent.isData]

/-- A byte of a telnet command: neither data nor an escaped `IAC`. -/
def InCommand (t : Tracker) (byte : Byte) : Prop :=
  t.state ≠ .data ∧ ¬ (t.state = .iac ∧ byte = 255)

/-- The old subnegotiation of option `85` that ends at a `WILL`. -/
def OldCompress (t : Tracker) (byte : Byte) : Prop :=
  t.state = .sbData ∧ t.sbTelopt = 85 ∧ byte = 251

instance (t : Tracker) (byte : Byte) : Decidable (OldCompress t byte) :=
  inferInstanceAs (Decidable (_ ∧ _ ∧ _))

theorem byteStep_text {t : Tracker} {byte : Byte} (hs : t.state = .data) (hb : byte ≠ 255)
    (i start : ℕ) : byteStep t i start byte = (t, start, []) := by
  simp [byteStep, hs, hb]

theorem byteStep_iac {t : Tracker} (hs : t.state = .data) (i start : ℕ) :
    byteStep t i start 255 = ({ t with state := .iac }, start,
      if i ≠ start then [.data (.buffer start) (sizeT i start)] else []) := by
  simp [byteStep, hs]

theorem byteStep_escape {t : Tracker} (hs : t.state = .iac) (i start : ℕ) :
    byteStep t i start 255 = ({ t with state := .data }, i + 1, [.data (.byte 255) 1]) := by
  simp [byteStep, hs, iacByte]

/-- In the state `IAC`, data starts behind the byte or not at all. -/
theorem iacByte_start {t : Tracker} {byte : Byte} (h : (iacByte t byte).1.state = .data) :
    (iacByte t byte).2.1 = true := by
  unfold iacByte at h ⊢
  split_ifs at h ⊢ <;> simp_all

/-- The bytes of a command raise no event about data, and data starts behind the last of them. -/
theorem byteStep_command {t : Tracker} {byte : Byte} (h : InCommand t byte) (i start : ℕ) :
    NoData (byteStep t i start byte).2.2 ∧
      ((byteStep t i start byte).1.state = .data → (byteStep t i start byte).2.1 = i + 1 ∨
        (OldCompress t byte ∧ (byteStep t i start byte).2.1 = i + 2)) := by
  obtain ⟨hdata, hesc⟩ := h
  cases hs : t.state with
  | data => exact absurd hs hdata
  | iac =>
    have hb : byte ≠ 255 := fun hb => hesc ⟨hs, hb⟩
    simp only [byteStep, hs]
    refine ⟨iacByte_noData hb, fun hd => .inl ?_⟩
    rw [if_pos (iacByte_start hd)]
  | sb => simp [byteStep, hs, NoData]
  | sbData =>
    simp only [byteStep, hs]
    split_ifs with hiac hold hok
    · simp [NoData]
    · exact ⟨by simp [NoData], fun _ => .inr ⟨⟨hs, hold⟩, rfl⟩⟩
    · refine ⟨bufferByte_noData t byte, fun hd => ?_⟩
      rw [bufferByte_state, hs] at hd
      cases hd
    · exact ⟨bufferByte_noData t byte, fun _ => .inl rfl⟩
  | sbDataIac =>
    simp only [byteStep, hs]
    split_ifs with hse hiac hok hret
    · exact ⟨subnegotiate_noData _, fun _ => .inl rfl⟩
    · exact ⟨bufferByte_noData t byte, fun hd => by cases hd⟩
    · exact ⟨bufferByte_noData t byte, fun _ => .inl rfl⟩
    · refine ⟨?_, fun _ => .inl rfl⟩
      intro ev hev
      rcases List.mem_cons.1 hev with rfl | hev
      · rfl
      · exact subnegotiate_noData _ ev hev
    · refine ⟨?_, fun _ => .inl rfl⟩
      intro ev hev
      rcases List.mem_append.1 hev with hev | hev
      · rcases List.mem_cons.1 hev with rfl | hev
        · rfl
        · exact subnegotiate_noData _ ev hev
      · exact iacByte_noData hiac ev hev
  | _ =>
    simp only [byteStep, hs]
    exact ⟨negotiate_noData t byte, fun _ => .inl trivial⟩

/-! ### What a byte does -/

/-- The byte belongs to the content of a subnegotiation: it is neither an `IAC` that is not escaped
nor the `WILL` that ends the old subnegotiation of option `85`. -/
def Content (t : Tracker) (b : Byte) : Prop :=
  (t.state = .sbData ∧ b ≠ 255 ∧ ¬ OldCompress t b) ∨ (t.state = .sbDataIac ∧ b = 255)

instance (t : Tracker) (b : Byte) : Decidable (Content t b) :=
  inferInstanceAs (Decidable ((_ ∧ _ ∧ ¬ _) ∨ (_ ∧ _)))

/-- A byte of the content goes to `_buffer_byte`, in both states. -/
theorem byteStep_content {t : Tracker} {b : Byte} (h : Content t b) (i start : ℕ) :
    byteStep t i start b =
      if (bufferByte t b).2.1 then
        ({ (bufferByte t b).1 with state := .sbData }, start, (bufferByte t b).2.2)
      else ({ (bufferByte t b).1 with state := .data }, i + 1, (bufferByte t b).2.2) := by
  rcases h with ⟨hs, h255, hold⟩ | ⟨hs, rfl⟩
  · have hnew : ¬ (t.sbTelopt = 85 ∧ b = 251) := fun hb => hold ⟨hs, hb⟩
    have same : { (bufferByte t b).1 with state := .sbData } = (bufferByte t b).1 := by
      rw [← hs, ← bufferByte_state t b]
    rw [same]
    simp only [byteStep, hs, if_neg h255, if_neg hnew]
  · simp [byteStep, hs]

/-- What a byte does to the tracker and what it raises: the parts of the source that it goes to. -/
inductive ByteAct (t : Tracker) (b : Byte) : Tracker → List TelnetEvent → Prop
  | text : t.state = .data → b ≠ 255 → ByteAct t b t []
  /-- The data in front of the byte is raised. -/
  | iac (evs : List TelnetEvent) : t.state = .data → b = 255 → (∀ ev ∈ evs, ev.isData = true) →
      ByteAct t b { t with state := .iac } evs
  | command : t.state = .iac → ByteAct t b (iacByte t b).1 (iacByte t b).2.2
  | verb : t.state.IsVerb → ByteAct t b { (negotiate t b).1 with state := .data } (negotiate t b).2
  | option : t.state = .sb →
      ByteAct t b { t with sbTelopt := b, buffer := [], state := .sbData } []
  | half : t.state = .sbData → b = 255 → ByteAct t b { t with state := .sbDataIac } []
  | oldCompress : OldCompress t b → ByteAct t b { t with state := .data } []
  | content : Content t b →
      ByteAct t b { (bufferByte t b).1 with
        state := if (bufferByte t b).2.1 then .sbData else .data } (bufferByte t b).2.2
  | finish : t.state = .sbDataIac → b = 240 →
      ByteAct t b (subnegotiate { t with state := .data }).1
        (subnegotiate { t with state := .data }).2.2
  /-- The decoder returns a value other than `0`, and the byte is not looked at again. -/
  | skipped (msg : String) : t.state = .sbDataIac → b ≠ 240 → b ≠ 255 →
      msg = "unexpected byte after IAC inside SB: " ++ toString b.toNat →
      ByteAct t b (subnegotiate { t with state := .iac }).1
        (.warning msg :: (subnegotiate { t with state := .iac }).2.2)
  | unexpected (msg : String) : t.state = .sbDataIac → b ≠ 240 → b ≠ 255 →
      msg = "unexpected byte after IAC inside SB: " ++ toString b.toNat →
      ByteAct t b (iacByte (subnegotiate { t with state := .iac }).1 b).1
        (.warning msg :: (subnegotiate { t with state := .iac }).2.2 ++
          (iacByte (subnegotiate { t with state := .iac }).1 b).2.2)

theorem byteStep_act (t : Tracker) (i start : ℕ) (b : Byte) :
    ByteAct t b (byteStep t i start b).1 (byteStep t i start b).2.2 := by
  have verb (hv : t.state.IsVerb) :
      ByteAct t b (byteStep t i start b).1 (byteStep t i start b).2.2 := by
    rw [byteStep_verb hv]
    exact .verb hv
  have content (h : Content t b) :
      ByteAct t b (byteStep t i start b).1 (byteStep t i start b).2.2 := by
    have act := ByteAct.content h
    rw [byteStep_content h]
    split_ifs at act ⊢ <;> exact act
  cases hs : t.state with
  | data =>
    by_cases h255 : b = 255
    · subst h255
      rw [byteStep_iac hs]
      refine .iac _ hs rfl ?_
      split_ifs <;> simp [TelnetEvent.isData]
    · rw [byteStep_text hs h255]
      exact .text hs h255
  | iac =>
    simp only [byteStep, hs]
    exact .command hs
  | sb =>
    simp only [byteStep, hs]
    exact .option hs
  | sbData =>
    by_cases h255 : b = 255
    · simp only [byteStep, hs, if_pos h255]
      exact .half hs h255
    · by_cases old : OldCompress t b
      · simp only [byteStep, hs, if_neg h255, if_pos old.2]
        exact .oldCompress old
      · exact content (.inl ⟨hs, h255, old⟩)
  | sbDataIac =>
    by_cases h240 : b = 240
    · simp only [byteStep, hs, if_pos h240]
      exact .finish hs h240
    · by_cases h255 : b = 255
      · exact content (.inr ⟨hs, h255⟩)
      · simp only [byteStep, hs, if_neg h240, if_neg h255]
        split_ifs
        · exact .skipped _ hs h240 h255 rfl
        · exact .unexpected _ hs h240 h255 rfl
  | _ => exact verb (by simp [TelnetState.IsVerb, hs])

end Siproxy.Telnet

namespace Siproxy

open CString Telnet

/-- The tracker behind a byte; the positions do not matter for it. -/
def advance (t : Tracker) (b : Byte) : Tracker := (byteStep t 0 0 b).1

theorem byteStep_fst (t : Tracker) (i start : ℕ) (b : Byte) :
    (byteStep t i start b).1 = advance t b := by
  unfold advance
  cases hs : t.state with
  | data =>
    simp only [byteStep, hs]
    split_ifs <;> rfl
  | sbData =>
    simp only [byteStep, hs]
    split_ifs <;> rfl
  | sbDataIac =>
    simp only [byteStep, hs]
    split_ifs <;> rfl
  | _ => simp only [byteStep, hs]

end Siproxy
