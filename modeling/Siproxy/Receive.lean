import Siproxy.SmsFetch

/-!
# The receive loop of the modem

The part of `main`'s loop that reads the serial port: each line goes to `modem_event`, and while an
SMS is fetched, the lines go to the loop of `modem_event_sms_queue` instead.

`receive_iff`: every unsolicited call event is queued, and one SMS for each fetch with its PDU,
exactly if in each fetch no unsolicited line, up to the first line with `OK` and this line included,
is a call event, and the PDU is the last line stored.
-/

namespace Siproxy

open CString

/-! ### The loop -/

/-- The line starts a fetch. -/
def Fetches (line : CStr) : Prop :=
  findEvent line.bytes modemEvents = .modemSms ∧ match_ (text "MMS PUSH") line.bytes = false

instance (line : CStr) : Decidable (Fetches line) := inferInstanceAs (Decidable (_ ∧ _))

/-- What is left to read after `modem_event`. -/
def leftOver (charSigned malloc : Bool) (line : List Byte) (rs : List Read) : List Read :=
  if Fetches (handedOn line) ∧ malloc = true then (smsRun charSigned .fresh smsBuffer rs).2 else rs

theorem smsRun_shorter (charSigned : Bool) (evt : RawEvt) (buffer : List Byte) (rs : List Read) :
    (smsRun charSigned evt buffer rs).2.length ≤ rs.length := by
  fun_induction smsRun charSigned evt buffer rs with
  | case1 => exact Nat.zero_le _
  | case2 evt buffer rs n buffer' rs' h hlt l hl ih => exact ih.trans hlt.le
  | case3 evt buffer rs n buffer' rs' h hlt l hl => exact hlt.le
  | case4 evt buffer rs n buffer' rs' h hlt l hl hstore => exact hlt.le
  | case5 evt buffer rs n buffer' rs' h hlt l hl evt' hstore ih => exact ih.trans hlt.le

theorem leftOver_shorter (charSigned malloc : Bool) (line : List Byte) (rs : List Read) :
    (leftOver charSigned malloc line rs).length ≤ rs.length := by
  unfold leftOver
  split_ifs
  · exact smsRun_shorter _ _ _ _
  · exact le_rfl

/-- How far the receive loop has come. -/
inductive LoopEnd where
  /-- It waits for the modem. -/
  | waiting
  /-- `read_line` has returned 0: `break`. -/
  | closed
  /-- `read_line` has returned -1: `exit (-1)`. -/
  | failed
  /-- A write has left its array. -/
  | fault
  deriving DecidableEq

/-- The receive loop of `main`, as far as it reads the modem: the events it has queued.  `malloc i`
tells whether memory is left when line `i` is processed. -/
def uartLoop (charSigned : Bool) (malloc : ℕ → Bool) (stack : List Byte) (i : ℕ)
    (buf : List Byte) (rs : List Read) : List RawEvt × LoopEnd :=
  match h : readLine 4096 buf rs with
  | none => ([], .waiting)
  | some (n, buf', rs') =>
    if 0 < n then
      let line := buf'.take n.toNat
      match modemEvent charSigned (malloc i) stack line rs' with
      | .fault => ([], .fault)
      | .blocked _ => ([], .waiting)
      | .returned _ queued =>
        have : (leftOver charSigned (malloc i) line rs').length < rs.length :=
          (leftOver_shorter _ _ _ _).trans_lt (readLine_shorter (by decide) h)
        let next := uartLoop charSigned malloc stack (i + 1)
          (overlay (dots controlUnsigned line ++ [0]) buf')
          (leftOver charSigned (malloc i) line rs')
        (queued.toList ++ next.1, next.2)
    else if n = 0 then ([], .closed)
    else ([], .failed)
termination_by rs.length

theorem uartLoop_of_none {charSigned : Bool} {malloc : ℕ → Bool} {stack : List Byte} {i : ℕ}
    {buf : List Byte} {rs : List Read} (h : readLine 4096 buf rs = none) :
    uartLoop charSigned malloc stack i buf rs = ([], .waiting) := by
  rw [uartLoop]
  split <;> simp_all

theorem uartLoop_line {charSigned : Bool} {malloc : ℕ → Bool} {stack : List Byte} {i : ℕ}
    {buf line : List Byte} {rs : List Read} {cmds : List CStr} {queued : Option RawEvt}
    (hline : IsLine line) (hbuf : buf.length = 4096)
    (returned : modemEvent charSigned (malloc i) stack (line.take 4095) rs =
      .returned cmds queued) :
    ∃ buf', buf'.length = 4096 ∧
      uartLoop charSigned malloc stack i buf (line.map .byte ++ rs) =
        (queued.toList ++ (uartLoop charSigned malloc stack (i + 1) buf'
            (leftOver charSigned (malloc i) (line.take 4095) rs)).1,
          (uartLoop charSigned malloc stack (i + 1) buf'
            (leftOver charSigned (malloc i) (line.take 4095) rs)).2) := by
  obtain ⟨s, rfl, hs⟩ := hline
  have read := @readLine_line 4096 s buf rs (by decide) (by omega) hs
  have kept : (overlay ((s ++ [10]).take 4095 ++ [0]) buf).take ((s ++ [10]).take 4095).length =
      (s ++ [10]).take 4095 := by
    rw [overlay, List.append_assoc, List.take_left]
  have len : ((s ++ [10]).take 4095).length ≤ 4095 := List.length_take_le _ _
  have pos : 0 < ((s ++ [10]).take 4095).length := by
    rw [List.length_take, List.length_append]
    simp
  generalize (s ++ [10]).take 4095 = k at *
  refine ⟨overlay (dots controlUnsigned k ++ [0]) (overlay (k ++ [0]) buf), ?_, ?_⟩
  · have hk : (overlay (k ++ [0]) buf).length = 4096 := by
      rw [length_overlay, hbuf]
      simp only [List.length_append, List.length_singleton]
      omega
    rw [length_overlay, hk]
    simp only [List.length_append, List.length_singleton, length_dots]
    omega
  · have reads : ((s ++ [10]).map Read.byte) ++ rs = s.map .byte ++ .byte 10 :: rs := by simp
    rw [reads, uartLoop]
    split
    next hnone => simp_all
    next n buf' rs' hsome =>
      have same := read.symm.trans hsome
      simp only [Option.some.injEq, Prod.mk.injEq] at same
      obtain ⟨rfl, rfl, rfl⟩ := same
      rw [if_pos (Int.natCast_pos.2 pos)]
      dsimp only
      rw [Int.toNat_natCast, kept, returned]

/-! ### What the modem sends -/

/-- A line that arrives during a fetch: part of the answer to `AT+CMGR`, or unsolicited. -/
structure Sent where
  line : List Byte
  unsolicited : Bool
  deriving DecidableEq

/-- A line outside a fetch, or a fetch: the `+CMTI` line that starts it, the lines in front of the
first one with `OK`, this line, which may be unsolicited as well, and the PDU of the answer. -/
inductive Segment where
  | plain (line : List Byte)
  | fetch (notice : List Byte) (window : List Sent) (ok : Sent) (pdu : CStr)

/-- A line in the buffer of `main`, as `modem_event` hands it on. -/
def taken (line : List Byte) : CStr := handedOn (line.take 4095)

def windowLines (window : List Sent) : List (List Byte) := window.map Sent.line

/-- The lines of the segment. -/
def Segment.lines : Segment → List (List Byte)
  | .plain line => [line]
  | .fetch notice window ok _ => notice :: (windowLines window ++ [ok.line])

/-- The segment is what it says: a fetch starts with its first line, copies the index, and ends with
its last line; no line stored before is too long. -/
def Segment.Valid (charSigned : Bool) : Segment → Prop
  | .plain line => IsLine line ∧ ¬ Fetches (taken line)
  | .fetch notice window ok _ => IsLine notice ∧ Fetches (taken notice) ∧
      IndexInOrder (taken notice).bytes ∧
      (∀ line ∈ windowLines window ++ [ok.line], IsLine line) ∧
      (∀ line ∈ windowLines window, replyOf (seen charSigned line) ≠ .ok) ∧
      replyOf (seen charSigned ok.line) = .ok ∧
      ∀ line ∈ windowLines window, replyOf (seen charSigned line) = .store →
        lenOf (seen charSigned line) ≤ evtValSize

/-- `COLP`, `CLIP`, `NO CARRIER`, `NO ANSWER` and `BUSY`. -/
def Event.isCallProgress : Event → Bool
  | .modemColp | .modemClip | .modemNoCarrier | .modemNoAnswer | .modemBusy => true
  | _ => false

/-- The event of a line and its text, if a call is concerned. -/
def callOf (line : CStr) : Option (Event × CStr) :=
  if (findEvent line.bytes modemEvents).isCallProgress then
    some (findEvent line.bytes modemEvents, snprintf evtValSize line)
  else none

/-- The call events of the unsolicited lines of a fetch. -/
def unsolicitedCalls (lines : List Sent) : List (Event × CStr) :=
  (lines.filter Sent.unsolicited).filterMap fun s => callOf (taken s.line)

/-- The call events of a segment, and the SMS. -/
def Segment.wanted : Segment → List (Event × CStr)
  | .plain line => (callOf (taken line)).toList
  | .fetch _ window ok pdu => unsolicitedCalls (window ++ [ok]) ++ [(.modemSms, pdu)]

/-- An event that concerns a call, or an SMS. -/
def relevant (e : Event × CStr) : Bool := e.1.isCallProgress || e.1 = .modemSms

/-- An event is queued and has its text. -/
def QueuedAs (raw : RawEvt) (e : Event × CStr) : Prop :=
  raw.event = some e.1 ∧ raw.val.Holds e.2

/-- The loop has processed all lines, each event that it has queued has a text, and the call events
and short messages among them are those of the segments, in order. -/
def AllQueued (segs : List Segment) (result : List RawEvt × LoopEnd) : Prop :=
  result.2 = .waiting ∧ ∃ evts, List.Forall₂ QueuedAs result.1 evts ∧
    evts.filter relevant = segs.flatMap Segment.wanted

/-- No unsolicited line of the fetch is a call event, with the line that ends it, and the PDU is the
last line stored. -/
def Segment.Calm (charSigned : Bool) : Segment → Prop
  | .plain _ => True
  | .fetch _ window ok pdu =>
    (∀ s ∈ window ++ [ok], s.unsolicited = true → callOf (taken s.line) = none) ∧
      (windowLines window).foldl (stored charSigned) none = some pdu

/-! ### What is queued -/

/-- What a segment leaves in the queue; an event without a text is as `malloc` has returned it. -/
def Segment.queued (charSigned : Bool) : Segment → List (Option (Event × CStr))
  | .plain line =>
    if findEvent (taken line).bytes modemEvents = .none ∨
        findEvent (taken line).bytes modemEvents = .modemSms then []
    else [some (findEvent (taken line).bytes modemEvents, snprintf evtValSize (taken line))]
  | .fetch _ window _ _ =>
    [((windowLines window).foldl (stored charSigned) none).map fun t => (.modemSms, t)]

def Shown (raw : RawEvt) : Option (Event × CStr) → Prop
  | none => raw = .fresh
  | some e => QueuedAs raw e

theorem IsLine.take_ne_nil {line : List Byte} (h : IsLine line) : line.take 4095 ≠ [] := by
  obtain ⟨s, rfl, -⟩ := h
  simp

theorem modemEvent_plain {charSigned : Bool} {line : List Byte} (hline : IsLine line)
    (plain : ¬ Fetches (taken line)) (stack : List Byte) (rs : List Read) :
    ∃ queued, modemEvent charSigned true stack (line.take 4095) rs = .returned [] queued ∧
      List.Forall₂ Shown queued.toList ((Segment.plain line).queued charSigned) := by
  have handed : modemEvent charSigned true stack (line.take 4095) rs =
      modemEventQueue charSigned true stack (taken line) rs :=
    modemEvent_eq hline.take_ne_nil _ _ _ _
  rw [handed]
  unfold Segment.queued
  dsimp only
  by_cases hnone : findEvent (taken line).bytes modemEvents = .none
  · rw [if_pos (.inl hnone), modemEventQueue, if_pos hnone]
    exact ⟨none, rfl, .nil⟩
  by_cases hsms : findEvent (taken line).bytes modemEvents = .modemSms
  · have push : match_ (text "MMS PUSH") (taken line).bytes = true := by
      rw [← Bool.not_eq_false]
      exact fun h => plain ⟨hsms, h⟩
    rw [if_pos (.inr hsms), modemEventQueue_of_sms hsms, modemEventSmsQueue, if_pos push]
    exact ⟨none, rfl, .nil⟩
  · obtain ⟨raw, hqueue, holds⟩ :=
      queueEvt_holds (by decide) (findEvent (taken line).bytes modemEvents)
        (strlen_snprintf_lt (by decide) (taken line))
    rw [if_neg (not_or.2 ⟨hnone, hsms⟩), modemEventQueue_of_ne rfl hnone hsms, hqueue]
    exact ⟨some raw, rfl, .cons holds .nil⟩

/-- `modem_event` on the line that starts a fetch reads the whole fetch. -/
theorem modemEvent_fetch {charSigned : Bool} {notice : List Byte} {window : List Sent} {ok : Sent}
    {pdu : CStr} (valid : (Segment.fetch notice window ok pdu).Valid charSigned)
    (stack : List Byte) (rs : List Read) :
    ∃ cmds raw, modemEvent charSigned true stack (notice.take 4095)
        (wire (windowLines window ++ [ok.line]) ++ rs) = .returned cmds (some raw) ∧
      List.Forall₂ Shown [raw] ((Segment.fetch notice window ok pdu).queued charSigned) ∧
      leftOver charSigned true (notice.take 4095) (wire (windowLines window ++ [ok.line]) ++ rs) =
        rs := by
  obtain ⟨hnotice, fetches, order, lines, hwindow, hok, fits⟩ := valid
  obtain ⟨pre, t, post, hline, hcomma, hpre, ht, short⟩ := order
  have nul : 0 ∉ t := fun h => (taken notice).noNul (by simp [hline, h])
  obtain ⟨index, hindex, -⟩ := @smsIndex_of_field (taken notice) ⟨t, nul⟩ pre post hline hcomma
    hpre ht short
  have comma_mem : comma ∈ (taken notice).bytes := by simp [hline]
  obtain ⟨raw, carries, run⟩ := smsRun_answer lines hwindow hok fits rs
  have loop := smsRun_fst charSigned .fresh smsBuffer (wire (windowLines window ++ [ok.line]) ++ rs)
  rw [run] at loop
  have handed : modemEvent charSigned true stack (notice.take 4095)
      (wire (windowLines window ++ [ok.line]) ++ rs) =
        modemEventSmsQueue charSigned true stack (taken notice)
          (wire (windowLines window ++ [ok.line]) ++ rs) := by
    rw [← modemEventQueue_of_sms fetches.1]
    exact modemEvent_eq hnotice.take_ne_nil _ _ _ _
  refine ⟨[(SmsCall.get index stack).modemCmd, (SmsCall.delete index stack).modemCmd], raw, ?_,
    .cons ?_ .nil, ?_⟩
  · rw [handed, modemEventSmsQueue_fetch fetches.2 comma_mem hindex, ← loop]
  · cases hstored : (windowLines window).foldl (stored charSigned) none with
    | none =>
      rw [hstored] at carries
      exact carries
    | some text =>
      rw [hstored] at carries
      exact carries
  · rw [leftOver, if_pos ⟨fetches, rfl⟩, run]

theorem uartLoop_segment {charSigned : Bool} {seg : Segment} (valid : seg.Valid charSigned)
    (stack : List Byte) (i : ℕ) {buf : List Byte} (hbuf : buf.length = 4096) (rs : List Read) :
    ∃ raws buf', buf'.length = 4096 ∧ List.Forall₂ Shown raws (seg.queued charSigned) ∧
      uartLoop charSigned (fun _ => true) stack i buf (wire seg.lines ++ rs) =
        (raws ++ (uartLoop charSigned (fun _ => true) stack (i + 1) buf' rs).1,
          (uartLoop charSigned (fun _ => true) stack (i + 1) buf' rs).2) := by
  cases seg with
  | plain line =>
    obtain ⟨hline, plain⟩ := valid
    obtain ⟨queued, returned, shown⟩ := @modemEvent_plain charSigned line hline plain stack rs
    obtain ⟨buf', hbuf', round⟩ :=
      @uartLoop_line charSigned (fun _ => true) stack i buf line rs [] queued hline hbuf returned
    have rest : leftOver charSigned true (line.take 4095) rs = rs := if_neg fun h => plain h.1
    have reads : wire [line] ++ rs = line.map .byte ++ rs := by simp [wire]
    rw [rest] at round
    exact ⟨queued.toList, buf', hbuf', shown, by rw [← round, Segment.lines, reads]⟩
  | fetch notice window ok pdu =>
    obtain ⟨cmds, raw, returned, shown, rest⟩ := modemEvent_fetch valid stack rs
    obtain ⟨buf', hbuf', round⟩ := @uartLoop_line charSigned (fun _ => true) stack i buf notice
      (wire (windowLines window ++ [ok.line]) ++ rs) cmds (some raw) valid.1 hbuf returned
    have reads : wire (notice :: (windowLines window ++ [ok.line])) ++ rs =
        notice.map .byte ++ (wire (windowLines window ++ [ok.line]) ++ rs) := by simp [wire]
    rw [rest] at round
    exact ⟨[raw], buf', hbuf', shown, by rw [Segment.lines, reads, round]; rfl⟩

theorem uartLoop_run {charSigned : Bool} {segs : List Segment}
    (valid : ∀ seg ∈ segs, seg.Valid charSigned) (stack : List Byte) (i : ℕ) {buf : List Byte}
    (hbuf : buf.length = 4096) :
    ∃ raws, List.Forall₂ Shown raws (segs.flatMap (Segment.queued charSigned)) ∧
      uartLoop charSigned (fun _ => true) stack i buf (wire (segs.flatMap Segment.lines)) =
        (raws, .waiting) := by
  induction segs generalizing i buf with
  | nil => exact ⟨[], .nil, uartLoop_of_none rfl⟩
  | cons seg segs ih =>
    rw [List.forall_mem_cons] at valid
    obtain ⟨raws, buf', hbuf', shown, first⟩ := uartLoop_segment valid.1 stack i hbuf
      (wire (segs.flatMap Segment.lines))
    obtain ⟨raws', shown', rest⟩ := ih valid.2 (i + 1) hbuf'
    refine ⟨raws ++ raws', List.rel_append shown shown', ?_⟩
    have reads : wire ((seg :: segs).flatMap Segment.lines) =
        wire seg.lines ++ wire (segs.flatMap Segment.lines) := by simp [wire]
    rw [reads, first, rest]

theorem QueuedAs.unique {raw : RawEvt} {e e' : Event × CStr} (h : QueuedAs raw e)
    (h' : QueuedAs raw e') : e = e' := by
  obtain ⟨tag, text⟩ := e
  obtain ⟨tag', text'⟩ := e'
  have tags : tag = tag' := Option.some.inj (h.1.symm.trans h'.1)
  have texts : text = text' := holds_unique h.2 h'.2
  rw [tags, texts]

/-- The events that have a text are those that the segments leave. -/
theorem forall₂_queued_iff {raws : List RawEvt} {shown : List (Option (Event × CStr))}
    (h : List.Forall₂ Shown raws shown) (evts : List (Event × CStr)) :
    List.Forall₂ QueuedAs raws evts ↔ shown = evts.map some := by
  induction h generalizing evts with
  | nil => cases evts <;> simp
  | @cons raw x raws shown first _ ih =>
    cases evts with
    | nil => simp
    | cons e evts =>
      rw [List.forall₂_cons, ih, List.map_cons, List.cons.injEq]
      apply and_congr_left
      intro _
      cases x with
      | none =>
        have fresh : raw = .fresh := first
        constructor
        · rintro ⟨tag, -⟩
          rw [fresh] at tag
          cases tag
        · intro h
          cases h
      | some e' =>
        constructor
        · exact fun h => congrArg some (QueuedAs.unique first h)
        · intro h
          cases h
          exact first

theorem allQueued_iff {charSigned : Bool} {segs : List Segment}
    (valid : ∀ seg ∈ segs, seg.Valid charSigned) (stack : List Byte) (i : ℕ) {buf : List Byte}
    (hbuf : buf.length = 4096) :
    AllQueued segs
        (uartLoop charSigned (fun _ => true) stack i buf (wire (segs.flatMap Segment.lines))) ↔
      ∃ evts : List (Event × CStr), segs.flatMap (Segment.queued charSigned) = evts.map some ∧
        evts.filter relevant = segs.flatMap Segment.wanted := by
  obtain ⟨raws, shown, run⟩ := uartLoop_run valid stack i hbuf
  rw [run, AllQueued]
  simp only [forall₂_queued_iff shown, true_and]

theorem plain_wanted {charSigned : Bool} (line : List Byte) :
    ∃ evts : List (Event × CStr), (Segment.plain line).queued charSigned = evts.map some ∧
      evts.filter relevant = (Segment.plain line).wanted := by
  unfold Segment.queued Segment.wanted callOf
  by_cases h : findEvent (taken line).bytes modemEvents = .none ∨
      findEvent (taken line).bytes modemEvents = .modemSms
  · have quiet : (findEvent (taken line).bytes modemEvents).isCallProgress = false := by
      rcases h with h | h <;> rw [h] <;> rfl
    exact ⟨[], by simp [h], by simp [quiet]⟩
  · refine ⟨[(findEvent (taken line).bytes modemEvents, snprintf evtValSize (taken line))],
      if_neg h, ?_⟩
    rw [not_or] at h
    cases hcall : (findEvent (taken line).bytes modemEvents).isCallProgress <;>
      simp [relevant, hcall, h.2]

theorem fetch_queued_iff {charSigned : Bool} {notice : List Byte} {window : List Sent} {ok : Sent}
    {pdu : CStr} {evts : List (Event × CStr)} :
    (Segment.fetch notice window ok pdu).queued charSigned = evts.map some ↔
      ∃ t, (windowLines window).foldl (stored charSigned) none = some t ∧
        evts = [(.modemSms, t)] := by
  show [((windowLines window).foldl (stored charSigned) none).map fun t => (Event.modemSms, t)] =
    evts.map some ↔ _
  cases (windowLines window).foldl (stored charSigned) none with
  | none => cases evts <;> simp
  | some t =>
    constructor
    · intro h
      obtain ⟨e, rfl, he⟩ := List.map_eq_singleton_iff.1 h.symm
      cases he
      exact ⟨t, rfl, rfl⟩
    · rintro ⟨t', ht, rfl⟩
      cases ht
      rfl

/-- A segment leaves no more than is wanted of it. -/
theorem Segment.queued_le {charSigned : Bool} {seg : Segment} {evts : List (Event × CStr)}
    (h : seg.queued charSigned = evts.map some) :
    (evts.filter relevant).length ≤ seg.wanted.length := by
  cases seg with
  | plain line =>
    obtain ⟨evts', hqueued, hwanted⟩ := @plain_wanted charSigned line
    have same : evts = evts' := List.map_injective_iff.2 (Option.some_injective _)
      (h.symm.trans hqueued)
    rw [same, hwanted]
  | fetch notice window ok pdu =>
    obtain ⟨t, -, rfl⟩ := fetch_queued_iff.1 h
    have one : ([(Event.modemSms, t)].filter relevant).length ≤ 1 := List.length_filter_le _ _
    rw [Segment.wanted, List.length_append, List.length_singleton]
    omega

/-- A segment leaves what is wanted of it exactly if it is calm. -/
theorem Segment.calm_iff {charSigned : Bool} {seg : Segment} :
    (∃ evts : List (Event × CStr), seg.queued charSigned = evts.map some ∧
      evts.filter relevant = seg.wanted) ↔
      seg.Calm charSigned := by
  cases seg with
  | plain line => exact iff_of_true (plain_wanted line) trivial
  | fetch notice window ok pdu =>
    have quiet : unsolicitedCalls (window ++ [ok]) = [] ↔
        ∀ s ∈ window ++ [ok], s.unsolicited = true → callOf (taken s.line) = none := by
      simp only [unsolicitedCalls, List.filterMap_eq_nil_iff, List.mem_filter, and_imp]
    rw [Segment.Calm, ← quiet, Segment.wanted]
    constructor
    · rintro ⟨evts, hqueued, hwanted⟩
      obtain ⟨t, ht, rfl⟩ := fetch_queued_iff.1 hqueued
      have self : [(Event.modemSms, t)].filter relevant = [(.modemSms, t)] := rfl
      rw [self] at hwanted
      have split : unsolicitedCalls (window ++ [ok]) ++ [(.modemSms, pdu)] =
          [] ++ [(.modemSms, t)] := hwanted.symm
      obtain ⟨hcalls, hpdu⟩ := List.append_inj' split rfl
      cases hpdu
      exact ⟨hcalls, ht⟩
    · rintro ⟨hcalls, ht⟩
      refine ⟨_, fetch_queued_iff.2 ⟨pdu, ht, rfl⟩, ?_⟩
      rw [hcalls]
      rfl

theorem queued_le {charSigned : Bool} {segs : List Segment} {evts : List (Event × CStr)}
    (h : segs.flatMap (Segment.queued charSigned) = evts.map some) :
    (evts.filter relevant).length ≤ (segs.flatMap Segment.wanted).length := by
  induction segs generalizing evts with
  | nil =>
    have none : evts = [] := List.map_eq_nil_iff.1 h.symm
    simp [none]
  | cons seg segs ih =>
    obtain ⟨first, rest, rfl, hfirst, hrest⟩ := List.map_eq_append_iff.1 h.symm
    have head := Segment.queued_le hfirst.symm
    have tail := ih hrest.symm
    rw [List.filter_append, List.flatMap_cons, List.length_append, List.length_append]
    omega

/-- Since no segment leaves more than is wanted of it, all is there only if each segment leaves its
part. -/
theorem calm_iff {charSigned : Bool} (segs : List Segment) :
    (∃ evts : List (Event × CStr), segs.flatMap (Segment.queued charSigned) = evts.map some ∧
      evts.filter relevant = segs.flatMap Segment.wanted) ↔
        ∀ seg ∈ segs, seg.Calm charSigned := by
  induction segs with
  | nil => exact iff_of_true ⟨[], rfl, rfl⟩ (List.forall_mem_nil _)
  | cons seg segs ih =>
    rw [List.forall_mem_cons, ← ih, ← Segment.calm_iff]
    constructor
    · rintro ⟨evts, hqueued, hwanted⟩
      obtain ⟨first, rest, rfl, hfirst, hrest⟩ := List.map_eq_append_iff.1 hqueued.symm
      rw [List.filter_append, List.flatMap_cons] at hwanted
      have head := Segment.queued_le hfirst.symm
      have tail := queued_le hrest.symm
      have len := congrArg List.length hwanted
      rw [List.length_append, List.length_append] at len
      obtain ⟨wanted, wanted'⟩ := List.append_inj hwanted (by omega)
      exact ⟨⟨first, hfirst.symm, wanted⟩, rest, hrest.symm, wanted'⟩
    · rintro ⟨⟨first, hfirst, wanted⟩, rest, hrest, wanted'⟩
      refine ⟨first ++ rest, ?_, ?_⟩
      · rw [List.flatMap_cons, hfirst, hrest, List.map_append]
      · rw [List.filter_append, wanted, wanted', List.flatMap_cons]

/-- For all lines of the modem, in every run in which memory is left: the call events of all
unsolicited lines and one SMS for each fetch, with the PDU of its answer, are queued in order,
exactly if every fetch is calm. -/
theorem receive_iff (charSigned : Bool) (stack : List Byte) (segs : List Segment)
    (valid : ∀ seg ∈ segs, seg.Valid charSigned) :
    AllQueued segs (uartLoop charSigned (fun _ => true) stack 0 smsBuffer
        (wire (segs.flatMap Segment.lines))) ↔
      ∀ seg ∈ segs, seg.Calm charSigned := by
  have size : smsBuffer.length = 4096 := List.length_replicate
  rw [allQueued_iff valid stack 0 size]
  exact calm_iff segs

def sampleClip10086 : List Byte := text "+CLIP: \"10086\",129\r\n"

def sampleCmti : List Byte := text "+CMTI: \"SM\",3\r\n"

/-- A fetch with unsolicited lines in front of the PDU and behind it. -/
def sampleFetch (front behind : List (List Byte)) : Segment :=
  .fetch sampleCmti
    ([⟨text "AT+CMGR=3\r\n", false⟩, ⟨text "+CMGR: 0,\"\",28\r\n", false⟩] ++
      front.map (⟨·, true⟩) ++ ⟨samplePdu ++ text "\r\n", false⟩ :: behind.map (⟨·, true⟩) ++
      [⟨text "\r\n", false⟩])
    ⟨text "OK\r\n", false⟩ ⟨samplePdu, by decide⟩

theorem sampleCmti_inOrder : IndexInOrder (taken sampleCmti).bytes :=
  ⟨text "+CMTI: \"SM\"", text "3", text ".", by decide, by decide, by decide, by decide, by decide⟩

/-- A registration report during the fetch, and a call after it. -/
theorem receive_sample :
    AllQueued [sampleFetch [text "+CREG: 1\r\n"] [], .plain sampleClip10086]
      (uartLoop true (fun _ => true) [] 0 smsBuffer (wire ([sampleFetch [text "+CREG: 1\r\n"] [],
        .plain sampleClip10086].flatMap Segment.lines))) :=
  (receive_iff true [] [sampleFetch [text "+CREG: 1\r\n"] [], .plain sampleClip10086] (by
    rw [List.forall_mem_cons, List.forall_mem_singleton]
    exact ⟨⟨by decide, by decide, sampleCmti_inOrder, by decide, by decide, by decide, by decide⟩,
      by decide, by decide⟩)).2 (by
    rw [List.forall_mem_cons, List.forall_mem_singleton]
    exact ⟨⟨by decide, by decide⟩, trivial⟩)

/-- A call that arrives between the PDU and the `OK`. -/
theorem not_receive_sample :
    ¬ AllQueued [sampleFetch [] [sampleClip10086]]
      (uartLoop true (fun _ => true) [] 0 smsBuffer
        (wire ([sampleFetch [] [sampleClip10086]].flatMap Segment.lines))) := by
  have size : smsBuffer.length = 4096 := List.length_replicate
  have valid : ∀ seg ∈ [sampleFetch [] [sampleClip10086]], seg.Valid true := by
    rw [List.forall_mem_singleton]
    exact ⟨by decide, by decide, sampleCmti_inOrder, by decide, by decide, by decide, by decide⟩
  rw [allQueued_iff valid [] 0 size, calm_iff, List.forall_mem_singleton]
  rintro ⟨quiet, -⟩
  have lost := quiet ⟨sampleClip10086, true⟩ (by decide) rfl
  revert lost
  decide

end Siproxy
