import Siproxy.Match

/-!
# The producers of events

Four functions of `main.c` allocate a `struct evt`, fill it and hand it to `queue_add`:
`modem_event_queue` for a line of the modem, `modem_event_sms_queue` for the answer to `AT+CMGR`
after a `+CMTI` line, `sip_event_queue` for a line of the SIP client, and `mqtt_event_queue` for a
message of the broker.  The event is modelled as the memory that `malloc` returns (`RawEvt`), whose
fields are indeterminate until they are written.

`produce_wellFormed_iff`: what is queued is well formed, exactly if an MQTT payload has at most 1023
bytes in front of its first NUL, and the answer to `AT+CMGR` has a line to store in front of `OK`
and no line that is too long.
-/

namespace Siproxy

open CString

/-! ### Events in memory -/

/-- A `struct evt` on the heap. -/
structure RawEvt where
  event : Option Event
  val : Cells evtValSize
  deriving DecidableEq

/-- A `struct evt` as `malloc` returns it. -/
def RawEvt.fresh : RawEvt := ⟨none, .fresh evtValSize⟩

/-- The memory holds the event with this tag and a terminated text. -/
def RawEvt.Holds (e : RawEvt) (evt : Evt) : Prop :=
  e.event = some evt.event ∧ e.val.Holds evt.val

/-- The event has the tag and holds some text. -/
def RawEvt.WellFormed (e : RawEvt) (tag : Event) : Prop :=
  ∃ evt : Evt, evt.event = tag ∧ e.Holds evt

/-- What a producer does. -/
inductive Produced where
  /-- A write leaves its array; nothing is known from then on. -/
  | fault
  /-- The producer waits for the modem. -/
  | blocked (cmds : List CStr)
  /-- The producer returns, after sending commands to the modem. -/
  | returned (cmds : List CStr) (queued : Option RawEvt)
  deriving DecidableEq

/-- No write leaves its array, and an event that is queued is well formed. -/
def Produced.WellFormed (tag : Event) : Produced → Prop
  | .fault => False
  | .blocked _ => True
  | .returned _ queued => ∀ e ∈ queued, e.WellFormed tag

/-- `malloc`, `evt->event = event`, `snprintf (evt->val, size, "%s", s)` and `queue_add`. -/
def queueEvt (malloc : Bool) (event : Event) (size : ℕ) (s : CStr) : Produced :=
  if malloc then
    match RawEvt.fresh.val.snprintf size s with
    | none => .fault
    | some val => .returned [] (some ⟨some event, val⟩)
  else .returned [] none

/-- What is queued when memory is left and the text fits its array. -/
theorem queueEvt_holds {size : ℕ} (hz : size ≠ 0) (event : Event) {s : CStr}
    (room : (snprintf size s).strlen < evtValSize) :
    ∃ raw, queueEvt true event size s = .returned [] (some raw) ∧
      raw.Holds ⟨event, snprintf size s, room⟩ := by
  unfold queueEvt
  rw [if_pos rfl]
  rcases hval : RawEvt.fresh.val.snprintf size s with _ | val
  · exact absurd room (not_lt.2 (Cells.snprintf_eq_none_iff.1 hval).2)
  · exact ⟨_, rfl, rfl, Cells.Holds.of_snprintf hz hval⟩

theorem queueEvt_some {malloc : Bool} {event : Event} {size : ℕ} (hz : size ≠ 0) {s : CStr}
    {cmds : List CStr} {raw : RawEvt}
    (h : queueEvt malloc event size s = .returned cmds (some raw)) :
    raw.event = some event ∧ raw.val.Holds (snprintf size s) := by
  unfold queueEvt at h
  split_ifs at h
  · split at h
    next => cases h
    next val hval =>
      cases h
      exact ⟨rfl, Cells.Holds.of_snprintf hz hval⟩
  · cases h

/-! ### Reading lines from the UART -/

/-- What `read (fd, &ch, 1)` returns. -/
inductive Read where
  | byte (ch : Byte)
  | eintr
  | error
  | eof
  deriving DecidableEq

/-- The loop of `read_line`, with `tot` bytes stored so far; without a value, `read` blocks. -/
def readLoop (n : ℕ) : ℕ → List Byte → List Read → Option (ℤ × List Byte × List Read)
  | _, _, [] => none
  | tot, buf, .eintr :: rs => readLoop n tot buf rs
  | _, buf, .error :: rs => some (-1, buf, rs)
  | tot, buf, .eof :: rs => if tot = 0 then some (0, buf, rs) else some (tot, buf.set tot 0, rs)
  | tot, buf, .byte ch :: rs =>
    let tot' := if tot < n - 1 then tot + 1 else tot
    let buf' := if tot < n - 1 then buf.set tot ch else buf
    if ch = 10 then some (tot', buf'.set tot' 0, rs) else readLoop n tot' buf' rs

/-- `read_line`: the number of bytes stored, the buffer and what is left to read. -/
def readLine (n : ℕ) (buf : List Byte) (rs : List Read) : Option (ℤ × List Byte × List Read) :=
  if n = 0 then some (-1, buf, rs) else readLoop n 0 buf rs

theorem readLoop_shorter {n tot : ℕ} {buf buf' : List Byte} {rs rs' : List Read} {k : ℤ}
    (h : readLoop n tot buf rs = some (k, buf', rs')) : rs'.length < rs.length := by
  fun_induction readLoop n tot buf rs with
  | case1 => cases h
  | case2 tot buf rs ih => exact Nat.lt_succ_of_lt (ih h)
  | case3 => simp_all
  | case4 => simp_all
  | case5 => simp_all
  | case6 => simp_all
  | case7 tot buf ch rs tot' buf' hch ih => exact Nat.lt_succ_of_lt (ih h)

theorem readLine_shorter {n : ℕ} (hn : n ≠ 0) {buf buf' : List Byte} {rs rs' : List Read} {k : ℤ}
    (h : readLine n buf rs = some (k, buf', rs')) : rs'.length < rs.length := by
  rw [readLine, if_neg hn] at h
  exact readLoop_shorter h

/-- Unreadable control codes are replaced by dots; `46` is `.`. -/
def dots (control : Byte → Bool) (s : List Byte) : List Byte :=
  s.map fun b => if control b then 46 else b

/-- `ch < 32` for an `unsigned char`. -/
def controlUnsigned (ch : Byte) : Bool := ch < 32

/-- `ch < 32` for a `char`, which is signed on some machines. -/
def controlChar (charSigned : Bool) (ch : Byte) : Bool := ch < 32 || (charSigned && 128 ≤ ch)

theorem dots_noNul {control : Byte → Bool} (h : control 0 = true) (s : List Byte) :
    0 ∉ dots control s := by
  simp only [dots, List.mem_map, not_exists, not_and]
  intro b _
  split_ifs with hb
  · decide
  · rintro rfl
    exact hb h

/-! ### The answer to `AT+CMGR` -/

/-- What the loop of `modem_event_sms_queue` does with a line. -/
inductive Reply where
  | skip
  | ok
  | store
  deriving DecidableEq

/-- The result of one `read_line` and the buffer, its control codes replaced. -/
structure SmsLine where
  n : ℤ
  buffer : List Byte
  deriving DecidableEq

/-- The first part of the loop body: `buffer[n] = 0`, and dots in front of it. -/
def smsLine (charSigned : Bool) (n : ℤ) (buffer : List Byte) : SmsLine :=
  if 0 < n then
    let b := buffer.set n.toNat 0
    ⟨n, dots (controlChar charSigned) (b.take n.toNat) ++ b.drop n.toNat⟩
  else ⟨n, buffer⟩

namespace SmsLine

def str (l : SmsLine) : CStr := ⟨cstr l.buffer, cstr_noNul l.buffer⟩

/-- The tests of the loop body, in their order: the echo, the header, an empty line and `OK`.  A
failed read passes them all. -/
def reply (l : SmsLine) : Reply :=
  if 0 < l.n ∧ match_ (text "AT+CMGR") l.str.bytes then .skip
  else if 0 < l.n ∧ match_ (text "+CMGR:") l.str.bytes then .skip
  else if 0 < l.n ∧ l.buffer.head? = some 46 then .skip
  else if 0 < l.n ∧ match_ (text "OK") l.str.bytes then .ok
  else .store

/-- The size given to `snprintf`: one less if the line ended in CR LF. -/
def len (l : SmsLine) : ℕ :=
  if 2 < l.str.strlen ∧ l.buffer[l.str.strlen - 2]? = some 46 then l.str.strlen - 1
  else l.str.strlen

theorem len_le (l : SmsLine) : l.len ≤ l.str.strlen := by
  unfold len
  split_ifs <;> omega

end SmsLine

/-- The last part of the loop body: the tag is set and the line is stored. -/
def storeSms (evt : RawEvt) (l : SmsLine) : Option RawEvt :=
  (evt.val.snprintf l.len l.str).map fun val => ⟨some .modemSms, val⟩

/-- How the loop of `modem_event_sms_queue` ends. -/
inductive SmsRead where
  | fault
  | blocked
  | broke (evt : RawEvt)
  deriving DecidableEq

/-- The loop of `modem_event_sms_queue`. -/
def smsLoop (charSigned : Bool) (evt : RawEvt) (buffer : List Byte) (rs : List Read) : SmsRead :=
  match h : readLine 4095 buffer rs with
  | none => .blocked
  | some (n, buffer', rs') =>
    have : rs'.length < rs.length := readLine_shorter (by decide) h
    let l := smsLine charSigned n buffer'
    match l.reply with
    | .skip => smsLoop charSigned evt l.buffer rs'
    | .ok => .broke evt
    | .store =>
      match storeSms evt l with
      | none => .fault
      | some evt' => smsLoop charSigned evt' l.buffer rs'
termination_by rs.length

/-- `char buffer[4096] = {0}`. -/
def smsBuffer : List Byte := List.replicate 4096 0

/-- The text between the first comma and the first dot of a `+CMTI` line, copied to `index[8]`. -/
def smsIndex (buf : CStr) : Option (CharArray 8) :=
  match strstr (text ".") buf.bytes with
  | none => some (.zero 8)
  | some fin =>
    match strstr (text ",") buf.bytes with
    | none => none
    | some start =>
      if h : start + 1 ≤ fin ∧ fin - (start + 1) ≤ 8 then
        some ⟨((buf.bytes.drop (start + 1)).take (fin - (start + 1)) ++
          List.replicate 8 0).take 8, by simp⟩
      else none

/-- `modem_get_sms` and `modem_delete_sms`: the command in `cmd[128]`; `stack` is what lies behind
`index`. -/
def smsCmd (cmd : CStr) (index : CharArray 8) (stack : List Byte) : CStr :=
  snprintf 128 ⟨cmd.bytes ++ cstr (index.bytes ++ stack) ++ text "\r\n", by
    have ht : 0 ∉ text "\r\n" := by decide
    simp only [List.mem_append, cmd.noNul, cstr_noNul, ht, or_self, not_false_iff]⟩

/-- `modem_event_sms_queue`. -/
def modemEventSmsQueue (charSigned malloc : Bool) (stack : List Byte) (buf : CStr)
    (rs : List Read) : Produced :=
  if match_ (text "MMS PUSH") buf.bytes then .returned [] none
  else if malloc then
    match smsIndex buf with
    | none => .fault
    | some index =>
      let get := if (strstr (text ",") buf.bytes).isSome then
        [smsCmd (.lit "AT+CMGR=" (by decide)) index stack] else []
      match smsLoop charSigned .fresh smsBuffer rs with
      | .fault => .fault
      | .blocked => .blocked get
      | .broke evt =>
        .returned (get ++ [smsCmd (.lit "AT+CMGD=" (by decide)) index stack]) (some evt)
  else .returned [] none

/-! ### The four producers -/

/-- `modem_event_queue`. -/
def modemEventQueue (charSigned malloc : Bool) (stack : List Byte) (buf : CStr)
    (rs : List Read) : Produced :=
  let event := findEvent buf.bytes modemEvents
  if event = .none then .returned [] none
  else if event = .modemSms then modemEventSmsQueue charSigned malloc stack buf rs
  else queueEvt malloc event evtValSize buf

/-- `modem_event`, on a line of the modem. -/
def modemEvent (charSigned malloc : Bool) (stack : List Byte) (line : List Byte) (rs : List Read) :
    Produced :=
  if line = [] then .returned [] none
  else modemEventQueue charSigned malloc stack ⟨dots controlUnsigned line, dots_noNul rfl line⟩ rs

/-- `sip_event_queue`. -/
def sipEventQueue (malloc : Bool) (buf : CStr) : Produced :=
  let event := findEvent buf.bytes sipEvents
  if event = .none then .returned [] none else queueEvt malloc event evtValSize buf

/-- `mqtt_event_queue`; `after` is what lies behind the payload, which has no terminator. -/
def mqttEventQueue (malloc : Bool) (topic : CStr) (payload after : List Byte) : Produced :=
  let event := findEvent topic.bytes mqttEvents
  if event = .none then .returned [] none
  else queueEvt malloc event (payload.length + 1) ⟨cstr (payload ++ after), cstr_noNul _⟩

/-- An input on one of the three channels. -/
inductive Channel where
  /-- A line of the modem, and what the modem sends after it. -/
  | uart (line stack : List Byte) (rs : List Read)
  | telnet (line : CStr)
  | mqtt (topic : CStr) (payload after : List Byte)

/-- The tag of the row of the channel's table that matches. -/
def Channel.tag : Channel → Event
  | .uart line _ _ => findEvent (dots controlUnsigned line) modemEvents
  | .telnet line => findEvent line.bytes sipEvents
  | .mqtt topic _ _ => findEvent topic.bytes mqttEvents

/-- What the producers do with an input. -/
def produce (charSigned malloc : Bool) : Channel → Produced
  | .uart line stack rs => modemEvent charSigned malloc stack line rs
  | .telnet line => sipEventQueue malloc line
  | .mqtt topic payload after => mqttEventQueue malloc topic payload after

/-! ### When an event is well formed -/

theorem queueEvt_wellFormed_iff {malloc : Bool} {event : Event} {size : ℕ} (hz : size ≠ 0)
    {s : CStr} :
    (queueEvt malloc event size s).WellFormed event ↔
      (malloc = true → min (size - 1) s.strlen < evtValSize) := by
  unfold queueEvt
  split_ifs with hm
  · rcases hv : RawEvt.fresh.val.snprintf size s with _ | val
    · have := Cells.snprintf_eq_none_iff.1 hv
      rw [strlen_snprintf] at this
      simp only [Produced.WellFormed, hm, forall_const, false_iff, not_lt]
      exact this.2
    · have hholds := Cells.Holds.of_snprintf hz hv
      have room := hholds.strlen_lt
      have good : (RawEvt.mk (some event) val).WellFormed event :=
        ⟨⟨event, snprintf size s, room⟩, rfl, rfl, hholds⟩
      rw [strlen_snprintf] at room
      simpa [Produced.WellFormed, room] using good
  · simp [Produced.WellFormed, hm]

/-- The lines that `read_line` returns on what the modem sends. -/
def smsLines (charSigned : Bool) (buffer : List Byte) (rs : List Read) : List SmsLine :=
  match h : readLine 4095 buffer rs with
  | none => []
  | some (n, buffer', rs') =>
    have : rs'.length < rs.length := readLine_shorter (by decide) h
    let l := smsLine charSigned n buffer'
    l :: smsLines charSigned l.buffer rs'
termination_by rs.length

theorem smsLines_of_none {charSigned : Bool} {buffer : List Byte} {rs : List Read}
    (h : readLine 4095 buffer rs = none) : smsLines charSigned buffer rs = [] := by
  rw [smsLines]
  split <;> simp_all

theorem smsLines_of_some {charSigned : Bool} {buffer buffer' : List Byte} {rs rs' : List Read}
    {n : ℤ} (h : readLine 4095 buffer rs = some (n, buffer', rs')) :
    smsLines charSigned buffer rs = smsLine charSigned n buffer' ::
      smsLines charSigned (smsLine charSigned n buffer').buffer rs' := by
  rw [smsLines]
  split <;> simp_all

/-- The loop of `modem_event_sms_queue` on the lines that it gets. -/
def smsOver : RawEvt → List SmsLine → SmsRead
  | _, [] => .blocked
  | evt, l :: ls =>
    match l.reply with
    | .skip => smsOver evt ls
    | .ok => .broke evt
    | .store =>
      match storeSms evt l with
      | none => .fault
      | some evt' => smsOver evt' ls

theorem smsLoop_eq_smsOver (charSigned : Bool) (evt : RawEvt) (buffer : List Byte)
    (rs : List Read) :
    smsLoop charSigned evt buffer rs = smsOver evt (smsLines charSigned buffer rs) := by
  fun_induction smsLoop charSigned evt buffer rs with
  | case1 evt buffer rs h => rw [smsLines_of_none h, smsOver]
  | case2 evt buffer rs n buffer' rs' h hlt l hl ih => rw [smsLines_of_some h, smsOver, hl, ih]
  | case3 evt buffer rs n buffer' rs' h hlt l hl => rw [smsLines_of_some h, smsOver, hl]
  | case4 evt buffer rs n buffer' rs' h hlt l hl hstore =>
    rw [smsLines_of_some h, smsOver, hl, hstore]
  | case5 evt buffer rs n buffer' rs' h hlt l hl evt' hstore ih =>
    rw [smsLines_of_some h, smsOver, hl, hstore, ih]

/-- The lines in front of the first `OK`. -/
def bodyLines (ls : List SmsLine) : List SmsLine := ls.takeWhile (·.reply ≠ .ok)

theorem bodyLines_cons {l : SmsLine} (h : l.reply ≠ .ok) (ls : List SmsLine) :
    bodyLines (l :: ls) = l :: bodyLines ls := by
  simp [bodyLines, h]

/-- Every line to be stored fits, and if `OK` comes, a line that is not empty is stored before
it. -/
def SmsFits (ls : List SmsLine) : Prop :=
  (∀ l ∈ bodyLines ls, l.reply = .store → l.len ≤ evtValSize) ∧
    ((∃ l ∈ ls, l.reply = .ok) → ∃ l ∈ bodyLines ls, l.reply = .store ∧ 0 < l.len)

theorem storeSms_eq_none_iff {evt : RawEvt} {l : SmsLine} :
    storeSms evt l = none ↔ evtValSize < l.len := by
  have := l.len_le
  rw [storeSms, Option.map_eq_none_iff, Cells.snprintf_eq_none_iff, strlen_snprintf, evtValSize]
  omega

theorem storeSms_short {evt evt' : RawEvt} {l : SmsLine} (h : storeSms evt l = some evt') :
    l.len ≤ evtValSize := by
  by_contra hlong
  rw [storeSms_eq_none_iff.2 (not_le.1 hlong)] at h
  cases h

/-- A line that is not empty makes the event well formed. -/
theorem storeSms_wellFormed {evt evt' : RawEvt} {l : SmsLine} (h : storeSms evt l = some evt')
    (hl : 0 < l.len) : evt'.WellFormed .modemSms := by
  obtain ⟨val, hval, rfl⟩ := Option.map_eq_some_iff.1 h
  have hholds := Cells.Holds.of_snprintf hl.ne' hval
  exact ⟨⟨.modemSms, _, hholds.strlen_lt⟩, rfl, rfl, hholds⟩

theorem storeSms_empty {evt evt' : RawEvt} {l : SmsLine} (h : storeSms evt l = some evt')
    (hl : l.len = 0) : evt' = ⟨some .modemSms, evt.val⟩ := by
  rw [storeSms, hl, Cells.snprintf_zero] at h
  exact (Option.some.inj h).symm

theorem not_wellFormed_of_fresh {evt : RawEvt} (h : evt.val = .fresh evtValSize) (tag : Event) :
    ¬ evt.WellFormed tag := by
  rintro ⟨e, -, -, hholds⟩
  rw [h] at hholds
  exact Cells.not_holds_fresh _ hholds

theorem storeSms_empty_wellFormed {evt evt' : RawEvt} {l : SmsLine}
    (hevt : evt.val = .fresh evtValSize ∨ evt.WellFormed .modemSms)
    (h : storeSms evt l = some evt') (hl : l.len = 0) :
    evt'.WellFormed .modemSms ↔ evt.WellFormed .modemSms := by
  obtain rfl := storeSms_empty h hl
  rcases hevt with hfresh | ⟨e, he, hevent, hholds⟩
  · have blank := @not_wellFormed_of_fresh ⟨some .modemSms, evt.val⟩ hfresh .modemSms
    exact iff_of_false blank (not_wellFormed_of_fresh hfresh _)
  · exact iff_of_true ⟨e, he, by rw [he], hholds⟩ ⟨e, he, hevent, hholds⟩

/-- No write leaves the event, and the event is well formed if `OK` comes. -/
def SmsRead.WellFormed : SmsRead → Prop
  | .fault => False
  | .blocked => True
  | .broke evt => evt.WellFormed .modemSms

theorem smsLoop_wellFormed_iff (charSigned : Bool) (evt : RawEvt) (buffer : List Byte)
    (rs : List Read)
    (hevt : evt.val = .fresh evtValSize ∨ evt.WellFormed .modemSms) :
    (smsLoop charSigned evt buffer rs).WellFormed ↔
      (∀ l ∈ bodyLines (smsLines charSigned buffer rs), l.reply = .store → l.len ≤ evtValSize) ∧
      ((∃ l ∈ smsLines charSigned buffer rs, l.reply = .ok) → evt.WellFormed .modemSms ∨
        ∃ l ∈ bodyLines (smsLines charSigned buffer rs), l.reply = .store ∧ 0 < l.len) := by
  rw [smsLoop_eq_smsOver]
  generalize smsLines charSigned buffer rs = ls
  induction ls generalizing evt with
  | nil => simp [smsOver, bodyLines, SmsRead.WellFormed]
  | cons l ls ih =>
    unfold smsOver
    cases hreply : l.reply with
    | skip =>
      rw [bodyLines_cons (by simp [hreply])]
      simp [ih evt hevt, hreply]
    | ok => simp [bodyLines, SmsRead.WellFormed, hreply]
    | store =>
      rw [bodyLines_cons (by simp [hreply])]
      rcases hstore : storeSms evt l with _ | evt'
      · have long := storeSms_eq_none_iff.1 hstore
        simp only [SmsRead.WellFormed, false_iff, not_and]
        intro hall
        exact absurd long (not_lt.2 (hall l List.mem_cons_self hreply))
      have short : l.len ≤ evtValSize := storeSms_short hstore
      rcases Nat.eq_zero_or_pos l.len with hz | hpos
      · have keep : evt'.WellFormed .modemSms ↔ evt.WellFormed .modemSms :=
          storeSms_empty_wellFormed hevt hstore hz
        have hevt' : evt'.val = .fresh evtValSize ∨ evt'.WellFormed .modemSms := by
          rw [keep, storeSms_empty hstore hz]
          exact hevt
        simp [ih evt' hevt', keep, hreply, hz]
      · have good := storeSms_wellFormed hstore hpos
        simp [ih evt' (.inr good), hreply, hpos, short, good]

theorem modemEventSmsQueue_wellFormed_iff {charSigned malloc : Bool} {stack : List Byte}
    {buf : CStr} {rs : List Read} :
    (modemEventSmsQueue charSigned malloc stack buf rs).WellFormed .modemSms ↔
      (match_ (text "MMS PUSH") buf.bytes = false → malloc = true → (smsIndex buf).isSome ∧
        SmsFits (smsLines charSigned smsBuffer rs)) := by
  have loop := smsLoop_wellFormed_iff charSigned .fresh smsBuffer rs (.inl rfl)
  have blank : ¬ RawEvt.fresh.WellFormed .modemSms := not_wellFormed_of_fresh rfl _
  simp only [blank, false_or] at loop
  rw [SmsFits, ← loop]
  unfold modemEventSmsQueue
  by_cases hmms : match_ (text "MMS PUSH") buf.bytes = true
  · simp [Produced.WellFormed, hmms]
  rw [if_neg hmms]
  rw [Bool.not_eq_true] at hmms
  by_cases hm : malloc = true
  · rw [if_pos hm]
    rcases smsIndex buf with _ | index
    · simp [Produced.WellFormed, hmms, hm]
    · rcases smsLoop charSigned .fresh smsBuffer rs with _ | _ | evt <;>
        simp [Produced.WellFormed, SmsRead.WellFormed, hmms, hm]
  · simp [Produced.WellFormed, hm]

/-- The bytes that `snprintf (evt->val, payloadlen + 1, "%s", payload)` stores are those in front of
the first NUL of the payload, whatever lies behind it. -/
theorem min_length_cstr (payload after : List Byte) :
    min payload.length (cstr (payload ++ after)).length = (cstr payload).length := by
  rw [cstr, List.takeWhile_append]
  split_ifs with h
  · rw [← cstr] at h
    simp [h]
  · have := (List.takeWhile_prefix (· ≠ (0 : Byte)) (l := payload)).length_le
    rw [← cstr] at this ⊢
    omega

/-- The condition under which the event queued for an input is well formed. -/
def Channel.Fits (charSigned malloc : Bool) : Channel → Prop
  | .uart line _ rs =>
    let buf : CStr := ⟨dots controlUnsigned line, dots_noNul rfl line⟩
    findEvent buf.bytes modemEvents = .modemSms → match_ (text "MMS PUSH") buf.bytes = false →
      malloc = true →
        (smsIndex buf).isSome ∧ SmsFits (smsLines charSigned smsBuffer rs)
  | .telnet _ => True
  | .mqtt topic payload _ =>
    findEvent topic.bytes mqttEvents ≠ .none → malloc = true → (cstr payload).length < evtValSize

/-- For every input on the three channels, the event that is queued carries the tag of the matching
row and a terminated text that was written inside its array, exactly if the input fits. -/
theorem produce_wellFormed_iff (charSigned malloc : Bool) (inp : Channel) :
    (produce charSigned malloc inp).WellFormed inp.tag ↔ inp.Fits charSigned malloc := by
  have fits (s : CStr) : min (evtValSize - 1) s.strlen < evtValSize := by
    rw [← strlen_snprintf]
    exact strlen_snprintf_lt (by decide) s
  cases inp with
  | uart line stack rs =>
    simp only [produce, Channel.tag, Channel.Fits, modemEvent, modemEventQueue]
    by_cases hline : line = []
    · have quiet : findEvent (dots controlUnsigned []) modemEvents ≠ .modemSms := by decide
      simp [hline, Produced.WellFormed, quiet]
    rw [if_neg hline]
    split_ifs with hnone hsms
    · simp [Produced.WellFormed, hnone]
    · rw [hsms, modemEventSmsQueue_wellFormed_iff]
      simp
    · simp only [hsms, false_imp_iff, iff_true]
      exact (queueEvt_wellFormed_iff (by decide)).2 fun _ => fits _
  | telnet line =>
    simp only [produce, Channel.tag, Channel.Fits, sipEventQueue, iff_true]
    split_ifs with hnone
    · simp [Produced.WellFormed]
    · exact (queueEvt_wellFormed_iff (by decide)).2 fun _ => fits line
  | mqtt topic payload after =>
    simp only [produce, Channel.tag, Channel.Fits, mqttEventQueue]
    split_ifs with hnone
    · simp [Produced.WellFormed, hnone]
    · rw [queueEvt_wellFormed_iff (by omega), Nat.add_sub_cancel, CStr.strlen, min_length_cstr]
      simp [hnone]

/-- An SMS from the peer with a text of 1024 bytes. -/
def sampleLongSms : Channel :=
  .mqtt (.lit "/200002Bob/SMS" (by decide)) (List.replicate 1024 65) []

/-- An `OK` without a message after `+CMTI`. -/
def sampleNoSms : Channel :=
  .uart (text "+CMTI: \"SM\",3\r\n") [] ((text "OK\r\n").map .byte)

/-- The text of the long SMS leaves its array; the event without a message is queued as `malloc` has
returned it. -/
theorem not_wellFormed_samples :
    ¬ (produce true true sampleLongSms).WellFormed sampleLongSms.tag ∧
      ¬ (produce true true sampleNoSms).WellFormed sampleNoSms.tag := by
  constructor
  · have fault : produce true true sampleLongSms = .fault := by decide +kernel
    rw [fault]
    exact id
  · let buffer := ((((smsBuffer.set 0 79).set 1 75).set 2 13).set 3 10).set 4 0
    have read : readLine 4095 smsBuffer ((text "OK\r\n").map .byte) = some (4, buffer, []) := rfl
    have done : (smsLine true 4 buffer).reply = .ok := by decide +kernel
    have lines := @smsLines_of_some true _ _ _ _ _ read
    have tag : findEvent (dots controlUnsigned (text "+CMTI: \"SM\",3\r\n")) modemEvents =
        .modemSms := by decide
    intro h
    simp only [produce, sampleNoSms, Channel.tag, modemEvent, modemEventQueue, tag] at h
    rw [if_neg (by decide), if_neg (by decide), if_pos trivial,
      modemEventSmsQueue_wellFormed_iff] at h
    obtain ⟨-, -, stored⟩ := h (by decide) rfl
    rw [lines] at stored
    obtain ⟨l, hl, -⟩ := stored ⟨_, List.mem_cons_self, done⟩
    simp [bodyLines, done] at hl

end Siproxy
