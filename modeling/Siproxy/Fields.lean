import Siproxy.MatchLanguage
import Siproxy.Shape
import Siproxy.Uart

/-!
# Lines of the modem and their fields

What becomes of one line of the modem: the event it is queued as, the number between the double
quotes of a `+CLIP` line, and the index between the comma and the dot of a `+CMTI` line.

* `marker_queued_iff`: a line with a call-progress marker is queued as the event of its first
  marker, exactly if memory is left and the line does not contain `NONE`.
* `clip_number_iff`: the number published for a `+CLIP` line is the text between its first two
  double quotes, exactly if these lie in the 1023 bytes that are kept, with at most 255 bytes
  between them.
* `sms_index_iff`: the commands for a `+CMTI` line carry the text between its first comma and the
  next dot, exactly if no dot comes before the comma and the text has at most 7 bytes.
-/

namespace Siproxy

open CString

/-! ### Call-progress markers -/

/-- The rows of `modem_events` for the progress of a call. -/
def markers : List EventMap := (modemEvents.drop 1).take 5

/-- The event of the first row whose marker is in the line. -/
def firstMarker (line : List Byte) : Option Event :=
  (markers.find? fun row => decide (row.regex <:+: line)).map EventMap.event

/-- One event is queued: its tag, and the line cut to 1023 characters. -/
def Queues (tag : Event) (line : CStr) (p : Produced) : Prop :=
  ∃ raw evt, p = .returned [] (some raw) ∧ raw.Holds evt ∧ evt.event = tag ∧
    evt.val.bytes = line.bytes.take 1023

theorem modemEvents_literal : ∀ row ∈ modemEvents, Literal row.regex := by decide

/-- `find_event` on the table of the modem looks for the texts of the rows. -/
theorem findEvent_modemEvents (line : List Byte) :
    findEvent line modemEvents =
      ((modemEvents.find? fun row => decide (row.regex <:+: line)).map EventMap.event).getD
        .none := by
  have rows : ∀ rows : List EventMap, (∀ row ∈ rows, Literal row.regex) →
      findEvent line rows =
        ((rows.find? fun row => decide (row.regex <:+: line)).map EventMap.event).getD .none := by
    intro rows
    induction rows with
    | nil => exact fun _ => rfl
    | cons row rows ih =>
      intro h
      rw [List.forall_mem_cons] at h
      by_cases hrow : row.regex <:+: line
      · simp [findEvent, (match_literal h.1 line).2 hrow, hrow]
      · have hnot : match_ row.regex line = false := by
          rw [← Bool.not_eq_true, match_literal h.1]
          exact hrow
        simp [findEvent, hnot, hrow, ih h.2]
  exact rows _ modemEvents_literal

/-- The row in front of the markers is the only one that shadows them. -/
theorem findEvent_marker {line : List Byte} {tag : Event} (h : firstMarker line = some tag) :
    findEvent line modemEvents = if text "NONE" <:+: line then .none else tag := by
  obtain ⟨row, hrow, rfl⟩ := Option.map_eq_some_iff.1 h
  have table : modemEvents = ⟨.none, text "NONE"⟩ :: (markers ++ modemEvents.drop 6) := rfl
  rw [findEvent_modemEvents, table, List.find?_cons]
  split_ifs with hnone
  · simp [hnone]
  · simp [hnone, List.find?_append, hrow]

theorem firstMarker_ne {line : List Byte} {tag : Event} (h : firstMarker line = some tag) :
    tag ≠ .none ∧ tag ≠ .modemSms := by
  have tags : ∀ row ∈ markers, row.event ≠ .none ∧ row.event ≠ .modemSms := by decide
  obtain ⟨row, hrow, rfl⟩ := Option.map_eq_some_iff.1 h
  exact tags row (List.mem_of_find?_eq_some hrow)

/-- Every event but an SMS is queued with the line as its text. -/
theorem modemEventQueue_of_ne {line : CStr} {event : Event}
    (h : findEvent line.bytes modemEvents = event) (hnone : event ≠ .none)
    (hsms : event ≠ .modemSms) (charSigned malloc : Bool) (stack : List Byte) (rs : List Read) :
    modemEventQueue charSigned malloc stack line rs = queueEvt malloc event evtValSize line := by
  rw [modemEventQueue, h, if_neg hnone, if_neg hsms]

theorem modemEventQueue_of_sms {line : CStr} (h : findEvent line.bytes modemEvents = .modemSms)
    (charSigned malloc : Bool) (stack : List Byte) (rs : List Read) :
    modemEventQueue charSigned malloc stack line rs =
      modemEventSmsQueue charSigned malloc stack line rs := by
  rw [modemEventQueue, h, if_neg (by decide), if_pos rfl]

/-- For every line with a call-progress marker: one event is queued, with the tag of the first
marker and the line cut to 1023 characters, exactly if `malloc` succeeds and the line does not
contain `NONE`. -/
theorem marker_queued_iff (charSigned malloc : Bool) (stack : List Byte) (line : CStr)
    (rs : List Read) (tag : Event) (h : firstMarker line.bytes = some tag) :
    Queues tag line (modemEventQueue charSigned malloc stack line rs) ↔
      malloc = true ∧ ¬ text "NONE" <:+: line.bytes := by
  have event := findEvent_marker h
  obtain ⟨hnone, hsms⟩ := firstMarker_ne h
  by_cases hn : text "NONE" <:+: line.bytes
  · rw [if_pos hn] at event
    simp [modemEventQueue, event, Queues, hn]
  rw [if_neg hn] at event
  rw [modemEventQueue_of_ne event hnone hsms]
  cases malloc with
  | false => simp [Queues, queueEvt]
  | true =>
    obtain ⟨raw, hqueue, holds⟩ :=
      queueEvt_holds (by decide) tag (strlen_snprintf_lt (by decide) line)
    exact iff_of_true ⟨raw, _, hqueue, holds, rfl, rfl⟩ ⟨rfl, hn⟩

theorem marker_queued_sample :
    Queues .modemClip (.lit "+CLIP: \"13761124413\",129" (by decide))
      (modemEventQueue true true [] (.lit "+CLIP: \"13761124413\",129" (by decide)) []) :=
  (marker_queued_iff true true [] (.lit "+CLIP: \"13761124413\",129" (by decide)) [] .modemClip
    (by decide)).2 (by decide)

def sampleNonesLine : CStr := .lit "+CLIP: \"10086\",129,,,\"SIMONE NONES\",0.." (by decide)

/-- The call of a person whose name contains `NONE` is not announced. -/
theorem not_marker_queued_sample :
    firstMarker sampleNonesLine.bytes = some .modemClip ∧
      ¬ Queues .modemClip sampleNonesLine (modemEventQueue true true [] sampleNonesLine []) := by
  refine ⟨by decide, ?_⟩
  have quiet : modemEventQueue true true [] sampleNonesLine [] = .returned [] none := by decide
  rintro ⟨raw, evt, hqueue, -⟩
  rw [quiet] at hqueue
  cases hqueue

/-! ### The number of the caller -/

theorem handedOn_noNul (line : List Byte) : 0 ∉ dots controlUnsigned line := dots_noNul rfl line

/-- The line as `modem_event` hands it on. -/
def handedOn (line : List Byte) : CStr := ⟨dots controlUnsigned line, handedOn_noNul line⟩

theorem modemEvent_eq {line : List Byte} (h : line ≠ []) (charSigned malloc : Bool)
    (stack : List Byte) (rs : List Read) :
    modemEvent charSigned malloc stack line rs =
      modemEventQueue charSigned malloc stack (handedOn line) rs := if_neg h

/-- The first two double quotes of the line are among its first 1023 bytes, with at most 255 bytes
between them. -/
def QuotedEarly (line : List Byte) : Prop :=
  ∃ pre num post, line = pre ++ quote :: (num ++ quote :: post) ∧ quote ∉ pre ∧ quote ∉ num ∧
    num.length < 256 ∧ pre.length + num.length + 2 < evtValSize

/-- What `state_init` is to do with a `+CLIP` line: it publishes the text between the first two
double quotes and rings the SIP leg, unless the broker's client fails; no access leaves an array. -/
def AnnouncesCaller (line : List Byte) (c : SiproxyCtrl) (sendRc : ℤ) : Result → Prop
  | .ok (_, outs) => ∃ num : CStr, Between quote quote line num.bytes ∧
      outs = [.mqttPub topicAliceCalled num false, .sipMakeCall c.sipPeer]
  | .error halt => sendRc ≠ 0 ∧ halt = .exit

theorem drop_separated (pre rest : List Byte) (q : Byte) :
    (pre ++ q :: rest).drop (pre.length + 1) = rest := by
  rw [List.drop_append, List.drop_of_length_le (by omega)]
  simp

theorem clipPhone_eq_ok {val phone : CStr} :
    clipPhone val = .ok phone ↔ ∃ pre post,
      val.bytes = pre ++ quote :: (phone.bytes ++ quote :: post) ∧
        quote ∉ pre ∧ quote ∉ phone.bytes ∧ phone.bytes.length < 256 := by
  constructor
  · intro h
    have q : text "\"" = [quote] := rfl
    unfold clipPhone at h
    rw [q] at h
    split at h
    next => cases h
    next start hstart =>
      obtain ⟨pre, rest, hval, hpre, rfl⟩ := strstr_singleton_iff.1 hstart
      rw [hval, drop_separated] at h
      split at h
      next => cases h
      next len hlen =>
        obtain ⟨num, post, rfl, hnum, rfl⟩ := strstr_singleton_iff.1 hlen
        split_ifs at h with short
        cases h
        have phone : (val.slice (pre.length + 1) num.length).bytes = num := by
          show (val.bytes.drop (pre.length + 1)).take num.length = num
          rw [hval, drop_separated, List.take_left]
        rw [phone]
        exact ⟨pre, post, hval, hpre, hnum, short⟩
  · rintro ⟨pre, post, hval, hpre, hnum, short⟩
    obtain ⟨phone', hok, hbytes⟩ := clipPhone_of_quoted hval hpre hnum short
    rw [hok, CStr.ext hbytes]

theorem take_separated {s pre num post : List Byte} {l r : Byte} {n : ℕ}
    (h : s.take n = pre ++ l :: (num ++ r :: post)) :
    ∃ post', s = pre ++ l :: (num ++ r :: post') ∧ pre.length + num.length + 2 ≤ n := by
  refine ⟨post ++ s.drop n, ?_, ?_⟩
  · conv_lhs => rw [← List.take_append_drop n s, h]
    simp
  · have short : (s.take n).length ≤ n := List.length_take_le n s
    rw [h] at short
    simp only [List.length_append, List.length_cons] at short
    omega

theorem separated_take {pre num post : List Byte} {l r : Byte} {n : ℕ}
    (h : pre.length + num.length + 2 ≤ n) :
    ∃ post', (pre ++ l :: (num ++ r :: post)).take n = pre ++ l :: (num ++ r :: post') := by
  have split : pre ++ l :: (num ++ r :: post) = (pre ++ l :: (num ++ [r])) ++ post := by simp
  have len : (pre ++ l :: (num ++ [r])).length = pre.length + num.length + 2 := by
    simp only [List.length_append, List.length_cons, List.length_nil]
    omega
  refine ⟨post.take (n - (pre.length + num.length + 2)), ?_⟩
  rw [split, List.take_append, List.take_of_length_le (by omega), len]
  simp

/-- The number can be copied from the text that is kept exactly if the line has its quotes early
enough, and then it is the text between the quotes of the line. -/
theorem clipPhone_cut {line phone : CStr} :
    clipPhone (snprintf evtValSize line) = .ok phone ↔ ∃ pre post,
      line.bytes = pre ++ quote :: (phone.bytes ++ quote :: post) ∧ quote ∉ pre ∧
        quote ∉ phone.bytes ∧ phone.bytes.length < 256 ∧
        pre.length + phone.bytes.length + 2 < evtValSize := by
  have kept : (snprintf evtValSize line).bytes = line.bytes.take 1023 := rfl
  rw [clipPhone_eq_ok, kept, evtValSize]
  constructor
  · rintro ⟨pre, post, hval, hpre, hnum, short⟩
    obtain ⟨post', hline, early⟩ := take_separated hval
    exact ⟨pre, post', hline, hpre, hnum, short, by omega⟩
  · rintro ⟨pre, post, hline, hpre, hnum, short, early⟩
    have early' : pre.length + phone.bytes.length + 2 ≤ 1023 := by omega
    obtain ⟨post', hval⟩ := @separated_take pre phone.bytes post quote quote 1023 early'
    exact ⟨pre, post', by rw [hline, hval], hpre, hnum, short⟩

theorem quotedEarly_iff (line : CStr) :
    QuotedEarly line.bytes ↔ ∃ phone, clipPhone (snprintf evtValSize line) = .ok phone := by
  simp only [clipPhone_cut]
  constructor
  · rintro ⟨pre, num, post, hline, rest⟩
    have nul : 0 ∉ num := fun h => line.noNul (by simp [hline, h])
    exact ⟨⟨num, nul⟩, pre, post, hline, rest⟩
  · rintro ⟨phone, pre, post, hline, rest⟩
    exact ⟨pre, phone.bytes, post, hline, rest⟩

theorem clip_val {charSigned malloc : Bool} {stack line : List Byte} {rs : List Read}
    {cmds : List CStr} {raw : RawEvt} {evt : Evt}
    (clip : findEvent (handedOn line).bytes modemEvents = .modemClip)
    (queued : modemEvent charSigned malloc stack line rs = .returned cmds (some raw))
    (holds : raw.Holds evt) :
    evt.event = .modemClip ∧ evt.val = snprintf evtValSize (handedOn line) := by
  have hline : line ≠ [] := by
    rintro rfl
    exact absurd clip (by decide)
  rw [modemEvent_eq hline, modemEventQueue_of_ne clip (by decide) (by decide)] at queued
  obtain ⟨tag, val⟩ := queueEvt_some (by decide) queued
  exact ⟨Option.some.inj (holds.1.symm.trans tag), holds_unique holds.2 val⟩

/-- For every line that is queued as `EVT_MODEM_CLIP` and every control block without a session:
`state_init` publishes the text between the first two double quotes of the line, and no access
leaves an array, exactly if the quotes come early enough. -/
theorem clip_number_iff (charSigned malloc : Bool) (stack line : List Byte) (rs : List Read)
    (cmds : List CStr) (raw : RawEvt) (evt : Evt)
    (clip : findEvent (handedOn line).bytes modemEvents = .modemClip)
    (queued : modemEvent charSigned malloc stack line rs = .returned cmds (some raw))
    (holds : raw.Holds evt) (c : SiproxyCtrl) (hdir : c.initDir = .none) (tvSec : ℕ)
    (sendRc : ℤ) :
    AnnouncesCaller (handedOn line).bytes c sendRc (stateInit ⟨evt, tvSec, sendRc⟩ c) ↔
      QuotedEarly (handedOn line).bytes := by
  obtain ⟨hevent, hval⟩ := clip_val clip queued holds
  rw [quotedEarly_iff]
  unfold stateInit
  simp only [hevent, hval, hdir, if_true]
  rcases hphone : clipPhone (snprintf evtValSize (handedOn line)) with e | phone
  · -- the text without its quotes is searched or copied out of range
    simp only [reduceCtorEq, exists_false, iff_false]
    rintro ⟨-, rfl⟩
    rcases clipPhone_eq_error hphone with he | he <;> cases he
  · obtain ⟨pre, post, hline, hpre, hnum, -⟩ := clipPhone_cut.1 hphone
    refine iff_of_true ?_ ⟨phone, rfl⟩
    by_cases hrc : sendRc = 0
    · subst hrc
      exact ⟨phone, ⟨pre, post, hline, hpre, hnum⟩, rfl⟩
    · have pub : mqttPub sendRc topicAliceCalled phone false = .error .exit := if_neg hrc
      show AnnouncesCaller _ _ _ (mqttPub sendRc topicAliceCalled phone false >>= _)
      rw [pub]
      exact ⟨hrc, rfl⟩

def sampleClipLine : List Byte := text "+CLIP: \"13761124413\",129\r\n"

/-- A line with its number in quotes. -/
theorem clip_number_sample :
    ∃ raw evt, modemEvent true true [] sampleClipLine [] = .returned [] (some raw) ∧
      raw.Holds evt ∧ AnnouncesCaller (handedOn sampleClipLine).bytes sampleCtrl 0
        (stateInit ⟨evt, 0, 0⟩ sampleCtrl) := by
  obtain ⟨raw, queued, holds⟩ := queueEvt_holds (by decide) Event.modemClip
    (strlen_snprintf_lt (by decide) (handedOn sampleClipLine))
  have early : QuotedEarly (handedOn sampleClipLine).bytes :=
    ⟨text "+CLIP: ", text "13761124413", text ",129..", by decide, by decide, by decide,
      by decide, by decide⟩
  have accepted : modemEvent true true [] sampleClipLine [] = .returned [] (some raw) := queued
  exact ⟨raw, _, accepted, holds, (clip_number_iff true true [] sampleClipLine [] [] raw _
    (by decide) accepted holds sampleCtrl rfl 0 0).2 early⟩

def sampleUnquoted : List Byte := text "+CLIP: 13761124413,129\r\n"

/-- A line without quotes is queued, and `memcpy` gets an address near NULL. -/
theorem not_clip_number_sample :
    ∃ raw evt, modemEvent true true [] sampleUnquoted [] = .returned [] (some raw) ∧
      raw.Holds evt ∧ stateInit ⟨evt, 0, 0⟩ sampleCtrl = .error .clipUnquoted ∧
      ¬ AnnouncesCaller (handedOn sampleUnquoted).bytes sampleCtrl 0
        (stateInit ⟨evt, 0, 0⟩ sampleCtrl) := by
  obtain ⟨raw, queued, holds⟩ := queueEvt_holds (by decide) Event.modemClip
    (strlen_snprintf_lt (by decide) (handedOn sampleUnquoted))
  have fault : stateInit ⟨⟨.modemClip, snprintf evtValSize (handedOn sampleUnquoted),
      strlen_snprintf_lt (by decide) _⟩, 0, 0⟩ sampleCtrl = .error .clipUnquoted := rfl
  refine ⟨raw, _, queued, holds, fault, ?_⟩
  rw [fault]
  rintro ⟨-, halt⟩
  cases halt

/-! ### The index of an SMS -/

/-- `,`, in front of the index. -/
def comma : Byte := 44

/-- `.`, which replaces the end of the line. -/
def dot : Byte := 46

/-- The first comma of the line stands in front of its first dot, with at most seven bytes between
them. -/
def IndexInOrder (line : List Byte) : Prop :=
  ∃ pre t post, line = pre ++ comma :: (t ++ dot :: post) ∧ comma ∉ pre ∧ dot ∉ pre ∧ dot ∉ t ∧
    t.length < 8

/-- The text between the first comma and the next dot is copied to `index`, where it is terminated,
and the commands that are sent carry it, whatever lies behind `index`. -/
structure FetchesIndex (line : CStr) (p : Produced) (t : CStr) : Prop where
  field : Between comma dot line.bytes t.bytes
  short : t.strlen ≤ 7
  copied : ∃ index, smsIndex line = some index ∧ index.str? = some t ∧ ∀ stack,
    (SmsCall.get index stack).modemCmd.bytes = text "AT+CMGR=" ++ t.bytes ++ text "\r\n" ∧
      (SmsCall.delete index stack).modemCmd.bytes = text "AT+CMGD=" ++ t.bytes ++ text "\r\n"
  cmds : p.cmds.map CStr.bytes <+: [text "AT+CMGR=" ++ t.bytes ++ text "\r\n",
    text "AT+CMGD=" ++ t.bytes ++ text "\r\n"]

theorem smsIndex_of_field {line t : CStr} {pre post : List Byte}
    (hline : line.bytes = pre ++ comma :: (t.bytes ++ dot :: post)) (hcomma : comma ∉ pre)
    (hpre : dot ∉ pre) (ht : dot ∉ t.bytes) (short : t.strlen < 8) :
    ∃ index, smsIndex line = some index ∧
      index.bytes = t.bytes ++ (CharArray.zero 8).bytes.drop t.strlen := by
  have start : strstr (text ",") line.bytes = some pre.length := by
    rw [hline]
    exact strstr_singleton hcomma _
  have front : dot ∉ pre ++ comma :: t.bytes := by
    simp only [List.mem_append, List.mem_cons, hpre, ht, false_or, or_false]
    decide
  have fin : strstr (text ".") line.bytes = some (pre.length + 1 + t.strlen) := by
    have regroup : line.bytes = (pre ++ comma :: t.bytes) ++ dot :: post := by simp [hline]
    have len : (pre ++ comma :: t.bytes).length = pre.length + 1 + t.strlen := by
      simp only [List.length_append, List.length_cons, CStr.strlen]
      omega
    rw [regroup, ← len]
    exact strstr_singleton front _
  have copied : (line.bytes.drop (pre.length + 1)).take t.strlen = t.bytes := by
    rw [hline, drop_separated]
    exact List.take_left
  have len : pre.length + 1 + t.strlen - (pre.length + 1) = t.strlen := by omega
  unfold smsIndex
  rw [fin, start]
  dsimp only
  rw [dif_pos ⟨by omega, by omega⟩]
  refine ⟨_, rfl, ?_⟩
  dsimp only
  rw [len, copied, CharArray.zero, List.drop_replicate, List.take_append, List.take_replicate]
  have all : t.bytes.take 8 = t.bytes := List.take_of_length_le short.le
  rw [all, CStr.strlen]
  congr 2
  omega

/-- A separator out of order makes the copy leave `index`. -/
theorem dot_notMem_of_smsIndex {line : CStr} {index : CharArray 8} {pre t post : List Byte}
    (hline : line.bytes = pre ++ comma :: (t ++ dot :: post)) (hcomma : comma ∉ pre)
    (h : smsIndex line = some index) : dot ∉ pre := by
  intro hdot
  obtain ⟨a, b, rfl, ha⟩ := List.eq_append_cons_of_mem hdot
  have start : strstr (text ",") line.bytes = some (a ++ dot :: b).length := by
    rw [hline]
    exact strstr_singleton hcomma _
  have fin : strstr (text ".") line.bytes = some a.length := by
    rw [hline, List.append_assoc]
    exact strstr_singleton ha _
  unfold smsIndex at h
  rw [fin, start] at h
  dsimp only at h
  rw [dif_neg (by simp only [List.length_append, List.length_cons]; omega)] at h
  cases h

theorem smsCmd_bytes {cmd t : CStr} (short : cmd.strlen ≤ 100) {index : CharArray 8}
    (ht : t.strlen < 8)
    (hindex : index.bytes = t.bytes ++ (CharArray.zero 8).bytes.drop t.strlen)
    (stack : List Byte) :
    (smsCmd cmd index stack).bytes = cmd.bytes ++ t.bytes ++ text "\r\n" := by
  have zeros : (CharArray.zero 8).bytes.drop t.strlen = 0 :: List.replicate (7 - t.strlen) 0 := by
    rw [CharArray.zero, List.drop_replicate, ← List.replicate_succ]
    congr 1
    omega
  have carried : cstr (index.bytes ++ stack) = t.bytes := by
    rw [hindex, zeros, List.append_assoc]
    exact cstr_append_nul t.noNul _
  show ((cmd.bytes ++ cstr (index.bytes ++ stack) ++ text "\r\n").drop 0).take 127 = _
  have fin : (text "\r\n").length = 2 := rfl
  rw [carried, List.drop_zero, List.take_of_length_le]
  simp only [List.length_append, CStr.strlen, fin] at short ht ⊢
  omega

/-- `modem_event_sms_queue` on a line with an index: the two commands, and the loop between them. -/
theorem modemEventSmsQueue_fetch {charSigned : Bool} {stack : List Byte} {line : CStr}
    {rs : List Read} (push : match_ (text "MMS PUSH") line.bytes = false)
    (hcomma : comma ∈ line.bytes) {index : CharArray 8} (hindex : smsIndex line = some index) :
    modemEventSmsQueue charSigned true stack line rs =
      match smsLoop charSigned .fresh smsBuffer rs with
      | .fault => .fault
      | .blocked => .blocked [(SmsCall.get index stack).modemCmd]
      | .broke evt => .returned [(SmsCall.get index stack).modemCmd,
          (SmsCall.delete index stack).modemCmd] (some evt) := by
  have found : (strstr (text ",") line.bytes).isSome = true := by
    by_contra hnot
    rw [Option.not_isSome_iff_eq_none] at hnot
    exact strstr_singleton_eq_none.1 hnot hcomma
  unfold modemEventSmsQueue
  rw [if_neg (by simp [push]), if_pos rfl, hindex]
  dsimp only
  rw [if_pos found]
  rfl

theorem modemEvent_sms_cmds {charSigned malloc : Bool} {stack line : List Byte} {rs : List Read}
    (sms : findEvent (handedOn line).bytes modemEvents = .modemSms)
    (hcomma : comma ∈ (handedOn line).bytes) {index : CharArray 8}
    (hindex : smsIndex (handedOn line) = some index) :
    (modemEvent charSigned malloc stack line rs).cmds <+:
      [(SmsCall.get index stack).modemCmd, (SmsCall.delete index stack).modemCmd] := by
  have hline : line ≠ [] := by
    rintro rfl
    exact absurd sms (by decide)
  rw [modemEvent_eq hline, modemEventQueue_of_sms sms]
  cases push : match_ (text "MMS PUSH") (handedOn line).bytes with
  | true =>
    rw [modemEventSmsQueue, if_pos push]
    exact List.nil_prefix
  | false =>
    cases malloc with
    | false =>
      rw [modemEventSmsQueue, if_neg (by simp [push]), if_neg (by decide)]
      exact List.nil_prefix
    | true =>
      rw [modemEventSmsQueue_fetch push hcomma hindex]
      cases smsLoop charSigned .fresh smsBuffer rs with
      | fault => exact List.nil_prefix
      | blocked => exact List.prefix_append [(SmsCall.get index stack).modemCmd] _
      | broke evt => exact List.prefix_rfl

/-- For every line classified as `EVT_MODEM_SMS`: the copy stays inside `index` with its terminator,
and the commands carry the text between the first comma and the next dot, exactly if the two stand
in order with at most seven bytes between them. -/
theorem sms_index_iff (charSigned malloc : Bool) (stack line : List Byte) (rs : List Read)
    (sms : findEvent (handedOn line).bytes modemEvents = .modemSms) :
    (∃ t, FetchesIndex (handedOn line) (modemEvent charSigned malloc stack line rs) t) ↔
      IndexInOrder (handedOn line).bytes := by
  constructor
  · rintro ⟨t, field, short, ⟨index, hindex, -⟩, -⟩
    obtain ⟨pre, post, hline, hcomma, ht⟩ := field
    exact ⟨pre, t.bytes, post, hline, hcomma, dot_notMem_of_smsIndex hline hcomma hindex, ht,
      Nat.lt_succ_of_le short⟩
  · rintro ⟨pre, t, post, hline, hcomma, hpre, ht, short⟩
    have nul : 0 ∉ t := fun h => (handedOn line).noNul (by simp [hline, h])
    let field : CStr := ⟨t, nul⟩
    have room : field.strlen < 8 := short
    obtain ⟨index, hindex, hbytes⟩ := @smsIndex_of_field _ field _ _ hline hcomma hpre ht room
    have get := @smsCmd_bytes (.lit "AT+CMGR=" cmgr_noNul) field (by decide) index room hbytes
    have delete := @smsCmd_bytes (.lit "AT+CMGD=" cmgd_noNul) field (by decide) index room hbytes
    refine ⟨field, ⟨pre, post, hline, hcomma, ht⟩, Nat.le_of_lt_succ short,
      ⟨index, hindex, CharArray.str?_of_zero room hbytes, fun stack => ⟨get stack, delete stack⟩⟩,
      ?_⟩
    have sent := (@modemEvent_sms_cmds charSigned malloc stack line rs sms (by simp [hline]) index
      hindex).map CStr.bytes
    rwa [List.map_cons, List.map_singleton, SmsCall.modemCmd, SmsCall.modemCmd, get stack,
      delete stack] at sent

theorem sms_index_sample :
    ∃ t, FetchesIndex (handedOn (text "+CMTI: \"SM\",3\r\n"))
      (modemEvent true true [] (text "+CMTI: \"SM\",3\r\n") []) t :=
  (sms_index_iff true true [] (text "+CMTI: \"SM\",3\r\n") [] (by decide)).2
    ⟨text "+CMTI: \"SM\"", text "3", text ".", by decide, by decide, by decide, by decide,
      by decide⟩

/-- A line that begins with a CR: the dot in its place stands in front of the comma, and `memcpy`
gets a negative length. -/
theorem not_sms_index_sample :
    findEvent (handedOn (text "\r+CMTI: \"SM\",3\r\n")).bytes modemEvents = .modemSms ∧
      match_ (text "MMS PUSH") (handedOn (text "\r+CMTI: \"SM\",3\r\n")).bytes = false ∧
      modemEvent true true [] (text "\r+CMTI: \"SM\",3\r\n") [] = .fault ∧
      ¬ ∃ t, FetchesIndex (handedOn (text "\r+CMTI: \"SM\",3\r\n"))
        (modemEvent true true [] (text "\r+CMTI: \"SM\",3\r\n") []) t := by
  refine ⟨by decide, by decide, by decide, ?_⟩
  have none : smsIndex (handedOn (text "\r+CMTI: \"SM\",3\r\n")) = none := by decide
  rintro ⟨t, -, -, ⟨index, hindex, -⟩, -⟩
  rw [none] at hindex
  cases hindex

end Siproxy
