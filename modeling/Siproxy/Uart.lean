import Mathlib.Data.Nat.Digits.Defs
import Siproxy.Producers
import Siproxy.Sessions
import Siproxy.Lib.Writers

/-!
# The serial port

The commands that `main.c` writes to the modem, byte by byte (`rs232_cputs`).  Two threads write to
the port without a lock: the main thread, in `modem_event_sms_queue`, and the event handler thread.

* `uart_unbroken`: the modem receives whole commands, and nothing between the two halves of an SMS,
  in every run in which no thread writes a byte while the other one is inside a command.
* `dial_line_iff`: a payload that is dialled is written as one line `ATD<payload>;`, exactly if it
  has at most 121 bytes and none of them is a NUL, a CR or an LF.
-/

namespace Siproxy

open CString Machine Writers

/-! ### Commands -/

/-- `modem_make_call`. -/
def modemMakeCall (num : CStr) : CStr :=
  snprintf 128 ⟨text "ATD" ++ num.bytes ++ text ";\r\n", by
    have ht : 0 ∉ text "ATD" ∧ 0 ∉ text ";\r\n" := by decide
    simp only [List.mem_append, ht, num.noNul, or_self, not_false_iff]⟩

/-- `modem_answer_call`. -/
def modemAnswerCall : CStr := .lit "ATA\r\n" (by decide)

/-- `modem_hangup_call`. -/
def modemHangupCall : CStr := .lit "ATH\r\n" (by decide)

/-- `%d`. -/
def decimal (n : ℤ) : List Byte :=
  (if n < 0 then text "-" else []) ++
    if n = 0 then [digit 0] else ((Nat.digits 10 n.natAbs).map digit).reverse

theorem decimal_noNul (n : ℤ) : 0 ∉ decimal n := by
  have hd (k : ℕ) : 0 ≠ digit k := (digit_ne_zero k).symm
  have ht : 0 ∉ text "-" := by decide
  unfold decimal
  split_ifs <;> simp [ht, hd, (hd _).symm]

/-- `modem_send_sms`: the length, then the PDU in `data[4096]` with a Ctrl-Z behind it. -/
def modemSendSms (pdu : CStr) (tpduLen : ℤ) : List CStr :=
  [snprintf 128 ⟨text "AT+CMGS=" ++ decimal tpduLen ++ text "\r", by
      have ht : 0 ∉ text "AT+CMGS=" ∧ 0 ∉ text "\r" := by decide
      simp only [List.mem_append, ht, decimal_noNul, or_self, not_false_iff]⟩,
    ⟨(snprintf 4096 pdu).bytes ++ [26], by
      have ht : (0 : Byte) ∉ ([26] : List Byte) := by decide
      simp only [List.mem_append, ht, (snprintf 4096 pdu).noNul, or_self, not_false_iff]⟩]

/-- The strings that an output of the event handler thread gives to `modem_cmd`. -/
def Output.modemCmds : Output → List CStr
  | .modemMakeCall _ num => [Siproxy.modemMakeCall num]
  | .modemAnswerCall _ => [Siproxy.modemAnswerCall]
  | .modemHangupCall _ => [Siproxy.modemHangupCall]
  | .modemSendSms _ pdu len => Siproxy.modemSendSms pdu len
  | .mqttPub _ _ _ | .sipMakeCall _ | .sipAnswerCall | .sipHangupCall => []

/-- A call of `modem_get_sms` or `modem_delete_sms` by the main thread. -/
inductive SmsCall where
  | get (index : CharArray 8) (stack : List Byte)
  | delete (index : CharArray 8) (stack : List Byte)
  deriving DecidableEq

theorem cmgr_noNul : 0 ∉ text "AT+CMGR=" := by decide

theorem cmgd_noNul : 0 ∉ text "AT+CMGD=" := by decide

/-- The string that a call gives to `modem_cmd`. -/
def SmsCall.modemCmd : SmsCall → CStr
  | .get index stack => smsCmd (.lit "AT+CMGR=" cmgr_noNul) index stack
  | .delete index stack => smsCmd (.lit "AT+CMGD=" cmgd_noNul) index stack

/-- The commands that a producer has sent. -/
def Produced.cmds : Produced → List CStr
  | .fault => []
  | .blocked cmds | .returned cmds _ => cmds

/-- The main thread sends nothing else to the modem when a line of it is processed. -/
theorem modemEvent_cmds (charSigned malloc : Bool) (stack line : List Byte) (rs : List Read) :
    ∃ calls : List SmsCall,
      (modemEvent charSigned malloc stack line rs).cmds = calls.map SmsCall.modemCmd := by
  have none : ∃ calls : List SmsCall, [] = calls.map SmsCall.modemCmd := ⟨[], rfl⟩
  have queue (event : Event) (size : ℕ) (s : CStr) :
      ∃ calls : List SmsCall, (queueEvt malloc event size s).cmds = calls.map SmsCall.modemCmd := by
    unfold queueEvt
    split_ifs
    · split <;> exact none
    · exact none
  have sms (buf : CStr) : ∃ calls : List SmsCall,
      (modemEventSmsQueue charSigned malloc stack buf rs).cmds = calls.map SmsCall.modemCmd := by
    unfold modemEventSmsQueue
    split
    · exact none
    split
    · cases smsIndex buf with
      | none => exact none
      | some index =>
        have get : ∃ calls : List SmsCall, (if (strstr (text ",") buf.bytes).isSome then
            [smsCmd (.lit "AT+CMGR=" (by decide)) index stack] else []) =
              calls.map SmsCall.modemCmd := by
          split
          · exact ⟨[.get index stack], rfl⟩
          · exact none
        cases smsLoop charSigned .fresh smsBuffer rs with
        | fault => exact none
        | blocked => exact get
        | broke evt =>
          obtain ⟨calls, hcalls⟩ := get
          refine ⟨calls ++ [.delete index stack], ?_⟩
          simp only [Produced.cmds, hcalls, List.map_append]
          rfl
    · exact none
  unfold modemEvent modemEventQueue
  dsimp only
  split
  · exact none
  split
  · exact none
  split
  · exact sms _
  · exact queue _ _ _

/-! ### Two threads on one port -/

/-- What one call of the main thread writes: `rs232_cputs` writes the bytes one by one and ignores
what `write` returns, and here every byte is written. -/
def SmsCall.block (call : SmsCall) : List Byte := call.modemCmd.bytes

/-- What one output of the event handler thread writes, in the same way; an SMS is one block with its
PDU. -/
def Output.block (o : Output) : List Byte := o.modemCmds.flatMap CStr.bytes

/-- The port in front of the calls of the main thread (left) and the outputs of the event handler
thread (right). -/
def uart (calls : List SmsCall) (outs : List Output) : Port Byte :=
  .start (calls.map SmsCall.block) (outs.map Output.block)

/-- For all calls of the main thread, all outputs of the event handler thread and every
interleaving of the bytes they write: if no thread writes a byte while the other one is inside a
command, then the modem receives a sequence of whole commands, in which every `AT+CMGS` is followed
by its PDU. -/
theorem uart_unbroken (calls : List SmsCall) (outs : List Output) (sched : List Side)
    (alone : Port.Exclusive (uart calls outs) sched) :
    Port.Unbroken (calls.map SmsCall.block) (outs.map Output.block)
      ((uart calls outs).run sched) :=
  Port.unbroken_of_exclusive alone

/-- The index in `+CMTI: "SM",3`. -/
def sampleIndex : CharArray 8 := ⟨text "3" ++ List.replicate 7 0, by decide⟩

/-- Eleven bytes of the main thread and then five of the event handler thread. -/
def sampleSched : List Side := List.replicate 11 .left ++ List.replicate 5 .right

/-- The main thread fetches an SMS, and the event handler thread hangs up after it. -/
theorem uart_unbroken_sample :
    ((uart [.get sampleIndex []] [.modemHangupCall 3]).run sampleSched).sent =
      text "AT+CMGR=3\r\nATH\r\n" ∧
    Port.Unbroken ([SmsCall.get sampleIndex []].map SmsCall.block)
      ([Output.modemHangupCall 3].map Output.block)
      ((uart [.get sampleIndex []] [.modemHangupCall 3]).run sampleSched) :=
  ⟨by decide, uart_unbroken [.get sampleIndex []] [.modemHangupCall 3] sampleSched (by decide)⟩

/-- The event handler thread hangs up while the main thread fetches an SMS: after one byte of each
thread, the modem has received `AA`. -/
theorem not_unbroken_sample :
    ¬ Port.Unbroken ([SmsCall.get sampleIndex []].map SmsCall.block)
      ([Output.modemHangupCall 3].map Output.block)
      ((uart [.get sampleIndex []] [.modemHangupCall 3]).run [.left, .right]) := by
  have sent : ((uart [.get sampleIndex []] [.modemHangupCall 3]).run [.left, .right]).sent =
      text "AA" := by decide
  have broken (cmd : List Byte) (rest : List (List Byte)) (hcmd : text "AT" <+: cmd) :
      ¬ text "AA" <+: (cmd :: rest).flatten := by
    intro h
    obtain ⟨tail, rfl⟩ := hcmd
    simp [text] at h
  rintro ⟨order, shuffle, hsent, -⟩
  rw [sent] at hsent
  cases shuffle with
  | left _ _ => exact broken _ _ (by decide) hsent
  | right _ _ => exact broken _ _ (by decide) hsent

/-- A line of the modem, with the answer of `malloc`, what lies behind `index`, and what the modem
sends after the line. -/
structure ModemInput where
  malloc : Bool
  stack : List Byte
  line : List Byte
  rs : List Read

/-- The commands that `modem_event` sends for a line. -/
def ModemInput.cmds (charSigned : Bool) (inp : ModemInput) : List CStr :=
  (modemEvent charSigned inp.malloc inp.stack inp.line inp.rs).cmds

/-- So the commands of the main thread for any lines of the modem are whole for the modem, under the
same condition. -/
theorem modemEvent_unbroken (charSigned : Bool) (inps : List ModemInput) (outs : List Output) :
    ∃ calls : List SmsCall, inps.flatMap (·.cmds charSigned) = calls.map SmsCall.modemCmd ∧
      ∀ sched, Port.Exclusive (uart calls outs) sched →
        Port.Unbroken (calls.map SmsCall.block) (outs.map Output.block)
          ((uart calls outs).run sched) := by
  have sent : ∃ calls : List SmsCall,
      inps.flatMap (·.cmds charSigned) = calls.map SmsCall.modemCmd := by
    induction inps with
    | nil => exact ⟨[], rfl⟩
    | cons inp inps ih =>
      obtain ⟨calls, hcalls⟩ := modemEvent_cmds charSigned inp.malloc inp.stack inp.line inp.rs
      obtain ⟨more, hmore⟩ := ih
      refine ⟨calls ++ more, ?_⟩
      rw [List.flatMap_cons, hmore, List.map_append, ← hcalls, ModemInput.cmds]
  obtain ⟨calls, hcalls⟩ := sent
  exact ⟨calls, hcalls, fun sched alone => Port.unbroken_of_exclusive alone⟩

/-! ### The dialled number -/

/-- While a number is stored, it is the last one offered, if it can be read at all. -/
def ReadsLast (tr : List CallMove) (c : SiproxyCtrl) : Prop :=
  c.mqttState = .incoming →
    ∃ num, (callings tr).getLast? = some num ∧ ∀ s, c.simNum.str? = some s → s = num

/-- A string copied over a zeroed array is read back as it was, or not at all. -/
theorem str?_of_copied {n : ℕ} {b : CharArray n} {num s : CStr}
    (h : (CharArray.zero n).strncpy num num.strlen = some b) (hs : b.str? = some s) : s = num := by
  obtain ⟨hle, hb⟩ := CharArray.strncpy_eq_some h
  rcases hle.lt_or_eq with hlt | heq
  · rw [CharArray.str?_of_zero hlt hb] at hs
    exact (Option.some.inj hs).symm
  · -- the string fills the array, which then has no terminator
    have full : b.bytes = num.bytes := by
      rw [hb, heq]
      simp [CharArray.zero]
    simp [CharArray.str?, full, num.noNul] at hs

theorem ReadsLast.concat {localtime : ℕ → Tm} {tr : List CallMove} {m : CallMove}
    (h : ReadsLast tr m.pre) (taken : Transition localtime m.pre m.input m.post m.outs) :
    ReadsLast (tr ++ [m]) m.post := by
  unfold ReadsLast at h ⊢
  rw [callings_concat]
  rcases taken.keeps_number with ⟨-, -, hm⟩ | ⟨hs, he, -, hnum⟩ | ⟨hend, hcall, hm, hnum⟩
  · simp [hm]
  · have hend : ¬ Ends m := fun hend => not_active_of_init hs hend.1
    rw [if_neg hend, if_pos ⟨hs, he⟩]
    exact fun _ => ⟨m.input.evt.val, by simp, fun s => str?_of_copied hnum⟩
  · rw [if_neg (show ¬ Ends m from hend), if_neg hcall, hm, hnum]
    exact h

/-- Whatever the lengths of the offers, the number dialled is the last one offered. -/
theorem dial_reads_last {localtime : ℕ → Tm} {sipPeer : CStr} {uartFd : ℤ} {inps : List Input}
    {p q : List CallMove} {m : CallMove}
    (split : callTrace localtime sipPeer uartFd inps = p ++ m :: q) {uart : ℤ} {num : CStr}
    (hmem : .modemMakeCall uart num ∈ m.outs) : (callings p).getLast? = some num := by
  have stored : ReadsLast p (final (initCtrl sipPeer uartFd) p) :=
    callTrace_history ReadsLast (by simp [ReadsLast, initCtrl])
      (fun tr m _ h _ taken => h.concat taken) split
  rw [← (trace_split split).1] at stored
  have hm : m ∈ callTrace localtime sipPeer uartFd inps := by simp [split]
  obtain ⟨hc, -, -, taken⟩ := callTrace_shape hm
  rcases m with ⟨c, inp, outs, c'⟩
  dsimp only at *
  cases taken with
  | dial he hs hd num' hnum =>
    have hmqtt : c.mqttState = .incoming := by
      cases hc with
      | dialling hs hd hmqtt hlegs => exact hmqtt
      | _ => simp_all
    obtain ⟨last, hlast, hstr⟩ := stored hmqtt
    simp only [List.mem_singleton, Output.modemMakeCall.injEq] at hmem
    rw [hlast, hmem.2, hstr num' hnum]
  | modemEnd | sipEnd =>
    simp only [endFromModem, endFromSip] at hmem
    split_ifs at hmem <;> simp at hmem
  | _ => simp at hmem

theorem holds_unique {n : ℕ} {a : Cells n} {s t : CStr} (hs : a.Holds s) (ht : a.Holds t) :
    s = t := by
  -- the string is what stands in front of the first NUL
  have front {u : CStr} (hu : a.Holds u) :
      u.bytes.map some = a.cells.takeWhile (· ≠ some (0 : Byte)) := by
    obtain ⟨rest, hrest⟩ := hu
    rw [← hrest, List.map_append, List.append_assoc, List.takeWhile_append_of_pos]
    · simp
    · intro b hb
      obtain ⟨c, hc, rfl⟩ := List.mem_map.1 hb
      simpa using ne_of_mem_of_not_mem hc u.noNul
  have same : s.bytes.map some = t.bytes.map some := (front hs).trans (front ht).symm
  exact CStr.ext (List.map_injective_iff.2 (Option.some_injective _) same)

/-- `mqtt_event_queue` has queued the offer in a payload as this event. -/
def Accepted (malloc : Bool) (topic : CStr) (payload after : List Byte) (evt : Evt) : Prop :=
  evt.event = .mqttCalling ∧
    ∃ raw, mqttEventQueue malloc topic payload after = .returned [] (some raw) ∧ raw.Holds evt

/-- `snprintf (evt->val, payloadlen + 1, "%s", payload)` stores the payload up to its first NUL. -/
theorem snprintf_payload (payload after : List Byte) :
    (snprintf (payload.length + 1) ⟨cstr (payload ++ after), cstr_noNul _⟩).bytes =
      cstr payload := by
  show ((cstr (payload ++ after)).drop 0).take (payload.length + 1 - 1) = cstr payload
  rw [List.drop_zero, Nat.add_sub_cancel, cstr, List.take_takeWhile, List.take_left]
  rfl

/-- The text of the event is the payload up to its first NUL. -/
theorem Accepted.val {malloc : Bool} {topic : CStr} {payload after : List Byte} {evt : Evt}
    (h : Accepted malloc topic payload after evt) : evt.val.bytes = cstr payload := by
  obtain ⟨-, raw, hqueue, -, holds⟩ := h
  unfold mqttEventQueue at hqueue
  dsimp only at hqueue
  split_ifs at hqueue with hnone
  · cases hqueue
  · obtain ⟨-, stored⟩ := queueEvt_some (Nat.succ_ne_zero _) hqueue
    rw [holds_unique holds stored]
    exact snprintf_payload payload after

/-- The bytes are one command line that dials the payload. -/
def DialLine (payload sent : List Byte) : Prop :=
  sent = text "ATD" ++ payload ++ text ";\r\n" ∧
    13 ∉ text "ATD" ++ payload ++ text ";" ∧ 10 ∉ text "ATD" ++ payload ++ text ";"

instance (payload sent : List Byte) : Decidable (DialLine payload sent) :=
  inferInstanceAs (Decidable (_ ∧ _ ∧ _))

/-- A payload that `modem_make_call` can write as one line. -/
def Dialable (payload : List Byte) : Prop :=
  payload.length ≤ 121 ∧ 0 ∉ payload ∧ 13 ∉ payload ∧ 10 ∉ payload

instance (payload : List Byte) : Decidable (Dialable payload) :=
  inferInstanceAs (Decidable (_ ∧ _ ∧ _ ∧ _))

theorem modemMakeCall_dialLine_iff {num : CStr} {payload : List Byte}
    (h : num.bytes = cstr payload) :
    DialLine payload (modemMakeCall num).bytes ↔ Dialable payload := by
  have written : (modemMakeCall num).bytes =
      (text "ATD" ++ cstr payload ++ text ";\r\n").take 127 := by
    show ((text "ATD" ++ num.bytes ++ text ";\r\n").drop 0).take 127 = _
    rw [List.drop_zero, h]
  have atd : (text "ATD").length = 3 ∧ 13 ∉ text "ATD" ∧ 10 ∉ text "ATD" := by decide
  have fin : (text ";\r\n").length = 3 ∧ 13 ∉ text ";" ∧ 10 ∉ text ";" := by decide
  have front : cstr payload <+: payload := List.takeWhile_prefix _
  rw [DialLine, Dialable, written]
  simp only [List.mem_append, atd, fin, false_or, or_false]
  constructor
  · rintro ⟨line, cr, lf⟩
    have len := congrArg List.length line
    have short := front.length_le
    simp only [List.length_take, List.length_append, atd, fin] at len
    have full : cstr payload = payload := front.eq_of_length (by omega)
    exact ⟨by omega, full ▸ cstr_noNul payload, cr, lf⟩
  · rintro ⟨short, nul, cr, lf⟩
    rw [cstr_of_noNul nul]
    refine ⟨List.take_of_length_le ?_, cr, lf⟩
    simp only [List.length_append, atd, fin]
    omega

/-- In every run, for every payload that was accepted as an offer and is dialled in its session:
the bytes written to the modem are one complete line that dials the payload, exactly if the payload
has at most 121 bytes, with no NUL, CR or LF among them. -/
theorem dial_line_iff (localtime : ℕ → Tm) (sipPeer : CStr) (uartFd : ℤ) (inps : List Input)
    (p q : List CallMove) (m : CallMove)
    (split : callTrace localtime sipPeer uartFd inps = p ++ m :: q) (uart : ℤ) (num : CStr)
    (hmem : .modemMakeCall uart num ∈ m.outs) (malloc : Bool) (topic : CStr)
    (payload after : List Byte) (evt : Evt) (accepted : Accepted malloc topic payload after evt)
    (offered : (callings p).getLast? = some evt.val) :
    DialLine payload (Output.modemMakeCall uart num).block ↔ Dialable payload := by
  rw [dial_reads_last split hmem, Option.some.injEq] at offered
  have hnum : num.bytes = cstr payload := by rw [offered, accepted.val]
  have block : (Output.modemMakeCall uart num).block = (modemMakeCall num).bytes := by
    simp [Output.block, Output.modemCmds]
  rw [block]
  exact modemMakeCall_dialLine_iff hnum

theorem mqttEventQueue_of_lt {topic : CStr} {event : Event}
    (ht : findEvent topic.bytes mqttEvents = event) (some : event ≠ .none) {payload : List Byte}
    (after : List Byte) (room : (cstr payload).length < evtValSize) :
    ∃ raw, mqttEventQueue true topic payload after = .returned [] (.some raw) ∧
      raw.Holds ⟨event, ⟨cstr payload, cstr_noNul _⟩, room⟩ := by
  have stored : (snprintf (payload.length + 1) ⟨cstr (payload ++ after), cstr_noNul _⟩) =
      ⟨cstr payload, cstr_noNul _⟩ := by
    ext1
    exact snprintf_payload payload after
  have short : (snprintf (payload.length + 1) ⟨cstr (payload ++ after), cstr_noNul _⟩).strlen <
      evtValSize := by
    rw [stored]
    exact room
  obtain ⟨raw, hqueue, tag, text⟩ := queueEvt_holds (Nat.succ_ne_zero _) event short
  dsimp only at text
  refine ⟨raw, ?_, tag, ?_⟩
  · unfold mqttEventQueue
    simp only [ht, some, if_false]
    exact hqueue
  · rw [stored] at text
    exact text

theorem accepted_of_lt {topic : CStr} (ht : findEvent topic.bytes mqttEvents = .mqttCalling)
    {payload : List Byte} (after : List Byte) (room : (cstr payload).length < evtValSize) :
    Accepted true topic payload after ⟨.mqttCalling, ⟨cstr payload, cstr_noNul _⟩, room⟩ :=
  ⟨rfl, mqttEventQueue_of_lt ht (by decide) after room⟩

def sampleTopic : CStr := .lit "/200002Bob/Calling/PhoneOther" (by decide)

/-- A call to `10010`, which is dialled. -/
theorem dial_line_sample :
    DialLine (text "10010") (Output.modemMakeCall 3 (.lit "10010" (by decide))).block :=
  (dial_line_iff sampleLocaltime samplePeer 3
    [⟨⟨.mqttCalling, .lit "10010" (by decide), by decide⟩, 0, 0⟩, .bare .sipIncoming,
      .bare .sipConfirmed] _ [] _
    (List.take_append_getLast _ (by decide)).symm 3 (.lit "10010" (by decide)) (by decide) true
    sampleTopic (text "10010") [] ⟨.mqttCalling, .lit "10010" (by decide), by decide⟩
    (accepted_of_lt (by decide) [] (by decide)) (by decide)).2 (by decide)

/-- An offer with a second line in it. -/
def sampleTwoLines : Evt := ⟨.mqttCalling, .lit "10010\r\nATH" (by decide), by decide⟩

/-- The offer with a second line is accepted and dialled, and the modem receives two lines. -/
theorem not_dialLine_sample :
    Accepted true sampleTopic (text "10010\r\nATH") [] sampleTwoLines ∧
      (callings ((callTrace sampleLocaltime samplePeer 3
        [⟨sampleTwoLines, 0, 0⟩, .bare .sipIncoming, .bare .sipConfirmed]).take 2)).getLast? =
          some sampleTwoLines.val ∧
      ((callTrace sampleLocaltime samplePeer 3
        [⟨sampleTwoLines, 0, 0⟩, .bare .sipIncoming, .bare .sipConfirmed]).getLast?.map Move.outs) =
          some [.modemMakeCall 3 sampleTwoLines.val] ∧
      ¬ DialLine (text "10010\r\nATH") (Output.modemMakeCall 3 sampleTwoLines.val).block :=
  ⟨accepted_of_lt (by decide) [] (by decide), by decide, by decide, by decide⟩

end Siproxy
