import Siproxy.SipIsolation

/-!
# The stream from the SIP client

TCP hands the stream of the SIP client to `recv` in chunks that may be cut anywhere.  `decode` is
the application data of a telnet stream, byte by byte and without chunks.  In a run without damage
(`UndamagedRun`) the events queued are those of the lines of the decoded stream, so that they do not
depend on the chunks (`queue_eq_lines`).

A step does damage if it hands over data whose lines are not its own, cuts a line that the parts do
not classify like the whole, reads a byte of a telnet command that `strtok` has overwritten, meets
the old way of ending a subnegotiation of option `85`, or cannot send what it has to.
-/

namespace Siproxy

open Allot CString Machine Lines Telnet

/-! ### The decoded stream -/

/-- The application data that a byte contributes. -/
def decoded (t : Tracker) (b : Byte) : List Byte :=
  if (t.state = .data ∧ b ≠ 255) ∨ (t.state = .iac ∧ b = 255) then [b] else []

/-- The application data of a telnet stream. -/
def decode : Tracker → List Byte → List Byte
  | _, [] => []
  | t, b :: s => decoded t b ++ decode (advance t b) s

theorem decode_append (t : Tracker) (a b : List Byte) :
    decode t (a ++ b) = decode t a ++ decode (a.foldl advance t) b := by
  induction a generalizing t with
  | nil => rfl
  | cons x a ih => simp [decode, ih]

/-- The result of `find_event` on a line, other than `EVT_NONE`. -/
def sipTag (line : List Byte) : Option Event :=
  if findEvent (cstr line) sipEvents = .none then none else some (findEvent (cstr line) sipEvents)

theorem map_event_sipEvt (line : List Byte) :
    (sipEvt line).map (·.event) = (sipTag line).map some := by
  rcases sipEvt_cases line with ⟨h, hevt⟩ | ⟨h, raw, hevt, hraw⟩
  · simp [sipTag, h, hevt]
  · simp [sipTag, h, hevt, hraw]

theorem sipTag_eq_none_iff {line : List Byte} :
    sipTag line = none ↔ findEvent (cstr line) sipEvents = .none := by
  simp [sipTag]

theorem sipTag_growing : Growing sipTag where
  empty := sipTag_eq_none_iff.2 (by decide)
  grows l more hl h :=
    mt sipTag_eq_none_iff.1 (sipEvents_growing hl more (mt sipTag_eq_none_iff.2 h))

theorem map_event_allot (mallocs : List Bool) (lines : List (List Byte)) :
    (allot mallocs (lines.map sipEvt)).map (Option.map (·.event)) =
      (allot mallocs (lines.map sipTag)).map (Option.map some) := by
  simp only [← allot_map, List.map_map]
  congr 1
  exact List.map_congr_left fun line _ => map_event_sipEvt line

/-! ### The data of a run -/

/-- The bytes that the events of a step are about, in order. -/
def dataOf (outs : List Delivery) : List Byte := outs.flatMap fun d => d.received.getD []

/-- The data of a run. -/
def runData (tr : List RecvMove) : List Byte := tr.flatMap fun m => dataOf m.outs

theorem runData_cons (m : RecvMove) (tr : List RecvMove) :
    runData (m :: tr) = dataOf m.outs ++ runData tr := by
  simp [runData]

theorem received_of_not_isData {d : Delivery} (h : d.ev.isData = false) : d.received = none := by
  unfold Delivery.received
  split <;> simp_all [TelnetEvent.isData]

theorem dataOf_of_noData {term : Option CStr} {chunk : List Byte} {sip : Sip}
    {evs : List TelnetEvent} (h : NoData evs) : dataOf (deliver term chunk sip evs).2 = [] := by
  apply List.flatMap_eq_nil_iff.2
  intro d hd
  rw [received_of_not_isData (h _ (deliver_ev_mem d hd))]
  rfl

theorem dataOf_pending {term : Option CStr} {chunk : List Byte} {sip : Sip} {i start : ℕ}
    (hi : i ≤ chunk.length) (small : chunk.length ≤ recvSize) (near : start ≤ i) :
    dataOf (deliver term chunk sip [.data (.buffer start) (sizeT i start)]).2 =
      (chunk.take i).drop start := by
  rw [recvSize] at small
  have size : sizeT i start = i - start := by
    unfold sizeT
    omega
  have inside : start + (i - start) ≤ chunk.length := by omega
  rw [deliver_singleton, size, List.drop_take]
  simp [dataOf, Delivery.received, inside]

/-! ### Damage -/

def Feed.isByte : Feed → Bool
  | .byte => true
  | _ => false

/-- The terminal type is asked for. -/
def Delivery.asksTerm (d : Delivery) : Bool :=
  match d.ev with
  | .ttype cmd _ => cmd == 1
  | _ => false

/-- The event is about data with its own lines, or does not need what is not there, and everything
that is sent for it is sent. -/
def Delivery.Harmless (term : Option CStr) (d : Delivery) : Prop :=
  (d.isData = true → d.Isolated sipTag) ∧ (d.asksTerm = true → term ≠ none) ∧
    Granted d.sip.sends (sendCount (sentParts term d.ev))

instance (term : Option CStr) : DecidablePred (Delivery.Harmless term) := fun d =>
  inferInstanceAs (Decidable ((d.isData = true → d.Isolated sipTag) ∧ _))

/-- A step that does no damage, behind the data `before`. -/
structure Undamaged (term : Option CStr) (before : List Byte) (m : RecvMove) : Prop where
  harmless : ∀ d ∈ m.outs, d.Harmless term
  /-- A line that is cut in front of the data has the results of its parts. -/
  joins : ∀ d ∈ m.outs, ∀ data ∈ d.received, Joins sipTag 10 before data
  /-- A byte of a telnet command is as it was received. -/
  intact : ∀ r ∈ m.pre, m.input.isByte = true → r.t.state ≠ .data → r.current = r.chunk.getD r.i 0
  /-- Option `85` is not used in the old way. -/
  compress : ∀ r ∈ m.pre, m.input.isByte = true → ¬ OldCompress r.t (r.chunk.getD r.i 0)

instance (term : Option CStr) (before : List Byte) : DecidablePred (Undamaged term before) :=
  fun m => decidable_of_iff
    ((∀ d ∈ m.outs, d.Harmless term) ∧
      (∀ d ∈ m.outs, ∀ data ∈ d.received, Joins sipTag 10 before data) ∧
      (∀ r ∈ m.pre, m.input.isByte = true → r.t.state ≠ .data →
        r.current = r.chunk.getD r.i 0) ∧
      ∀ r ∈ m.pre, m.input.isByte = true → ¬ OldCompress r.t (r.chunk.getD r.i 0))
    ⟨fun h => ⟨h.1, h.2.1, h.2.2.1, h.2.2.2⟩, fun h => ⟨h.1, h.2, h.3, h.4⟩⟩

/-- No step of a run does damage. -/
def UndamagedRun (term : Option CStr) : List Byte → List RecvMove → Prop
  | _, [] => True
  | before, m :: tr => Undamaged term before m ∧ UndamagedRun term (before ++ dataOf m.outs) tr

instance instDecidableUndamagedRun (term : Option CStr) :
    ∀ before tr, Decidable (UndamagedRun term before tr)
  | _, [] => .isTrue trivial
  | before, m :: tr =>
    have : Decidable (UndamagedRun term (before ++ dataOf m.outs) tr) :=
      instDecidableUndamagedRun term _ tr
    inferInstanceAs (Decidable (Undamaged term before m ∧ _))

theorem undamagedRun_append {term : Option CStr} {before : List Byte} {tr tr' : List RecvMove} :
    UndamagedRun term before (tr ++ tr') ↔
      UndamagedRun term before tr ∧ UndamagedRun term (before ++ runData tr) tr' := by
  induction tr generalizing before with
  | nil => simp [UndamagedRun, runData]
  | cons m tr ih => simp [UndamagedRun, ih, runData, and_assoc]

/-! ### Delivering without damage -/

/-- The tags of the events queued. -/
def tagsOf (term : Option CStr) (outs : List Delivery) : List (Option Event) :=
  (outs.flatMap fun d => (d.queued term).getD []).map (·.event)

theorem sendAll_granted {sip : Sip} {parts : List (List Byte)}
    (h : Granted sip.sends (sendCount parts)) :
    ∃ sip' outs, sip.sendAll parts = some (sip', outs) := by
  rw [sendAll_eq, if_pos h]
  exact ⟨_, _, rfl⟩

theorem Delivery.Harmless.sipEvent {term : Option CStr} {chunk : List Byte} {sip : Sip}
    {ev : TelnetEvent} (h : (Delivery.mk chunk sip ev).Harmless term) :
    ∃ sip' outs, sipEvent term sip ev = some (sip', outs) := by
  obtain ⟨isolated, asks, sends⟩ := h
  cases ev with
  | data ptr size =>
    cases ptr with
    | byte b => exact absurd (isolated rfl) not_isolated_byte
    | buffer off =>
      have nul := (isolated_buffer.1 (isolated rfl)).2.1
      exact ⟨_, _, if_pos nul⟩
  | send bytes => exact sendAll_granted sends
  | ttype cmd name =>
    by_cases hcmd : cmd = 1
    · cases term with
      | none => exact absurd rfl (asks (by simp [Delivery.asksTerm, hcmd]))
      | some term =>
        obtain ⟨sip', outs, hsend⟩ := @sendAll_granted sip (ttypeIs term)
          (by simpa [sentParts, hcmd] using sends)
        exact ⟨sip', outs, (if_pos hcmd).trans hsend⟩
    · exact ⟨_, _, if_neg hcmd⟩
  | _ => exact ⟨_, _, rfl⟩

theorem deliver_harmless {term : Option CStr} {chunk : List Byte} {sip : Sip}
    {evs : List TelnetEvent} (h : ∀ d ∈ (deliver term chunk sip evs).2, d.Harmless term) :
    ∃ sip', (deliver term chunk sip evs).1 = some sip' := by
  induction evs generalizing sip with
  | nil => exact ⟨sip, rfl⟩
  | cons ev evs ih =>
    obtain ⟨sip', outs, hev⟩ := (h _ (deliver_head term chunk sip ev evs)).sipEvent
    simp only [deliver, hev, List.mem_cons, forall_eq_or_imp] at h ⊢
    exact ih h.2

theorem evts_sendAll (sip : Sip) (parts : List (List Byte)) :
    ∀ r ∈ sip.sendAll parts, r.2.filterMap SipOut.evt? = [] := by
  rintro ⟨sip', outs⟩ h
  rw [(sendAll_frame h).2, List.filterMap_map]
  exact List.filterMap_eq_nil_iff.2 fun _ _ => rfl

theorem queued_of_not_isData {term : Option CStr} {d : Delivery} (h : d.ev.isData = false) :
    (d.queued term).getD [] = [] := by
  rcases d with ⟨chunk, sip, ev⟩
  have silent (parts : List (List Byte)) :
      ((sip.sendAll parts).map fun r => r.2.filterMap SipOut.evt?).getD [] = [] := by
    rcases hsend : sip.sendAll parts with _ | r
    · rfl
    · exact evts_sendAll sip parts r hsend
  cases ev with
  | data ptr size => simp [TelnetEvent.isData] at h
  | send bytes => exact silent [bytes]
  | ttype cmd name =>
    by_cases hcmd : cmd = 1
    · cases term with
      | none => simp [Delivery.queued, sipEvent, hcmd]
      | some term => simpa [Delivery.queued, sipEvent, hcmd] using silent (ttypeIs term)
    · simp [Delivery.queued, sipEvent, hcmd]
  | _ => simp [Delivery.queued, sipEvent]

theorem tagsOf_of_noData {term : Option CStr} {chunk : List Byte} {sip : Sip}
    {evs : List TelnetEvent} (h : NoData evs) :
    tagsOf term (deliver term chunk sip evs).2 = [] := by
  rw [tagsOf, List.map_eq_nil_iff]
  exact List.flatMap_eq_nil_iff.2 fun d hd => queued_of_not_isData (h _ (deliver_ev_mem d hd))

/-- The tags queued for isolated data are the results of its lines. -/
theorem tagsOf_data {term : Option CStr} {chunk : List Byte} {sip : Sip} {ptr : Ptr} {size : ℕ}
    (sound : sip.Sound chunk) (iso : (Delivery.mk chunk sip (.data ptr size)).Isolated sipTag) :
    ∃ data, (Delivery.mk chunk sip (.data ptr size)).received = some data ∧
      tagsOf term [⟨chunk, sip, .data ptr size⟩] = (results sipTag 10 data).map some := by
  cases ptr with
  | byte b => exact absurd iso not_isolated_byte
  | buffer off =>
    obtain ⟨inside, nul, undisturbed⟩ := isolated_buffer.1 iso
    refine ⟨(chunk.drop off).take size, by simp [Delivery.received, inside], ?_⟩
    have aligned := (sound.undisturbed_iff sipTag_growing inside).2 undisturbed
    have tags : tagsOf term [⟨chunk, sip, .data (.buffer off) size⟩] =
        ((allot sip.mallocs ((tokens 10 (cstr (sip.mem.drop off))).map sipEvt)).map
          (Option.map (·.event))).reduceOption := by
      simp [tagsOf, queued_buffer, nul, tokenEvts_buffer, List.reduceOption_map]
    rw [tags, map_event_allot, List.reduceOption_map, aligned.reduceOption_eq,
      reduceOption_map_tokens]

/-- At most one event about data is delivered at a time. -/
def Simple (evs : List TelnetEvent) : Prop := NoData evs ∨ ∃ ptr size, evs = [.data ptr size]

theorem Simple.results {term : Option CStr} {chunk before : List Byte} {sip : Sip}
    {evs : List TelnetEvent} (simple : Simple evs) (sound : sip.Sound chunk)
    (harmless : ∀ d ∈ (deliver term chunk sip evs).2, d.Harmless term)
    (joins : ∀ d ∈ (deliver term chunk sip evs).2, ∀ data ∈ d.received,
      Joins sipTag 10 before data) :
    (Lines.results sipTag 10 (before ++ dataOf (deliver term chunk sip evs).2)).map some =
      (Lines.results sipTag 10 before).map some ++ tagsOf term (deliver term chunk sip evs).2 := by
  rcases simple with quiet | ⟨ptr, size, rfl⟩
  · rw [dataOf_of_noData quiet, tagsOf_of_noData quiet, List.append_nil, List.append_nil]
  · rw [deliver_singleton] at harmless joins ⊢
    have mem := List.mem_singleton_self (Delivery.mk chunk sip (.data ptr size))
    obtain ⟨data, hdata, htags⟩ := @tagsOf_data term _ _ _ _ sound ((harmless _ mem).1 rfl)
    have : dataOf [⟨chunk, sip, .data ptr size⟩] = data := by simp [dataOf, hdata]
    rw [this, htags, results_append sipTag_growing.empty (joins _ mem data hdata), List.map_append]

theorem byteStep_simple (t : Tracker) (i start : ℕ) (b : Byte) :
    Simple (byteStep t i start b).2.2 := by
  by_cases hs : t.state = .data
  · by_cases hb : b = 255
    · rw [hb, byteStep_iac hs]
      dsimp only
      split_ifs
      · exact .inr ⟨_, _, rfl⟩
      · exact .inl (by simp [NoData])
    · rw [byteStep_text hs hb]
      exact .inl (by simp [NoData])
  · by_cases hesc : t.state = .iac ∧ b = 255
    · rw [hesc.2, byteStep_escape hesc.1]
      exact .inr ⟨_, _, rfl⟩
    · exact .inl (byteStep_command ⟨hs, hesc⟩ i start).1

/-! ### Runs without damage -/

/-- The data that are received but not delivered yet. -/
def Receiver.pending (r : Receiver) : List Byte :=
  if r.t.state = .data then (r.chunk.take r.i).drop r.start else []

/-- A receiver inside a chunk. -/
structure Receiver.Inside (r : Receiver) : Prop where
  busy : r.busy = true
  small : r.chunk.length ≤ recvSize
  sound : r.sip.Sound r.chunk
  near : r.t.state = .data → r.start ≤ r.i

/-- A byte of a command leaves no data pending. -/
theorem Receiver.Inside.command {term : Option CStr} {r : Receiver} {b : Byte}
    (hcmd : InCommand r.t b) (hold : ¬ OldCompress r.t b) :
    let s := byteStep r.t r.i r.start b
    (s.1.state = .data → s.2.1 ≤ r.i + 1) ∧
      dataOf (deliver term r.chunk r.sip s.2.2).2 ++
        (if s.1.state = .data then (r.chunk.take (r.i + 1)).drop s.2.1 else []) =
      r.pending ++ decoded r.t b := by
  intro s
  obtain ⟨quiet, hstart⟩ := byteStep_command hcmd r.i r.start
  have hst : s.1.state = .data → s.2.1 = r.i + 1 := fun hd =>
    (hstart hd).resolve_right fun h => hold h.1
  refine ⟨fun hd => (hst hd).le, ?_⟩
  have none : decoded r.t b = [] := by simp [decoded, hcmd.1, hcmd.2]
  rw [dataOf_of_noData quiet, none, Receiver.pending, if_neg hcmd.1]
  split_ifs with hd
  · rw [hst hd, List.drop_eq_nil_of_le (List.length_take_le _ _)]
  · rfl

/-- A byte of the data is pending, and an `IAC` behind them delivers what is pending. -/
theorem Receiver.Inside.data {term : Option CStr} {r : Receiver} (h : r.Inside)
    (hi : r.i < r.chunk.length) (hs : r.t.state = .data) :
    let s := byteStep r.t r.i r.start r.current
    (s.1.state = .data → s.2.1 ≤ r.i + 1) ∧ s.1 = advance r.t r.chunk[r.i] ∧
      dataOf (deliver term r.chunk r.sip s.2.2).2 ++
        (if s.1.state = .data then (r.chunk.take (r.i + 1)).drop s.2.1 else []) =
      r.pending ++ decoded r.t r.chunk[r.i] := by
  intro s
  have near := h.near hs
  have pending : r.pending = (r.chunk.take r.i).drop r.start := if_pos hs
  by_cases hb : r.chunk[r.i] = 255
  · have hcur : r.current = 255 := by
      rcases h.sound.getD hi with hcur | ⟨h10, -⟩
      · exact hcur.trans hb
      · rw [hb] at h10
        cases h10
    have hstep : s = ({ r.t with state := .iac }, r.start,
        if r.i ≠ r.start then [.data (.buffer r.start) (sizeT r.i r.start)] else []) := by
      simp only [s, hcur]
      exact byteStep_iac hs r.i r.start
    have hadv : s.1 = advance r.t r.chunk[r.i] := by
      rw [hb, ← hcur]
      exact byteStep_fst _ _ _ _
    refine ⟨fun hd => by simp [hstep] at hd, hadv, ?_⟩
    have none : decoded r.t r.chunk[r.i] = [] := by simp [decoded, hs, hb]
    rw [none, List.append_nil, if_neg (by simp [hstep]), List.append_nil, pending]
    by_cases hne : r.i = r.start
    · rw [List.drop_eq_nil_of_le (by rw [List.length_take]; omega)]
      simp [hstep, hne, deliver, dataOf]
    · simp only [hstep, ne_eq, hne, not_false_iff, if_true]
      exact dataOf_pending hi.le h.small near
  · have hcur : r.current ≠ 255 := by
      rcases h.sound.getD hi with hcur | ⟨-, h0⟩
      · exact fun h => hb (hcur.symm.trans h)
      · exact fun h => absurd (h0.symm.trans h) (by decide)
    have hstep : s = (r.t, r.start, []) := byteStep_text hs hcur r.i r.start
    have hadv : advance r.t r.chunk[r.i] = r.t := congrArg Prod.fst (byteStep_text hs hb 0 0)
    have one : decoded r.t r.chunk[r.i] = [r.chunk[r.i]] := by simp [decoded, hs, hb]
    rw [hstep, hadv, one, pending]
    refine ⟨fun _ => near.trans (Nat.le_succ _), rfl, ?_⟩
    simp only [hs, if_true, deliver, dataOf, List.flatMap_nil, List.nil_append]
    rw [← List.take_append_getElem hi, List.drop_append_of_le_length]
    rw [List.length_take]
    omega

/-- An escaped `IAC` is not harmless. -/
theorem not_escape_of_harmless {term : Option CStr} {r : Receiver}
    (harmless : ∀ d ∈ (deliver term r.chunk r.sip
      (byteStep r.t r.i r.start r.current).2.2).2, d.Harmless term) :
    ¬ (r.t.state = .iac ∧ r.current = 255) := by
  rintro ⟨hiac, h255⟩
  rw [h255, byteStep_escape hiac, deliver_singleton] at harmless
  exact absurd ((harmless _ List.mem_cons_self).1 rfl) not_isolated_byte

/-- One round of the loop of `_process` without damage: the tracker moves as it does on the byte
received, and the data delivered and pending grow by what the byte contributes. -/
theorem Receiver.Inside.byte {term : Option CStr} {before : List Byte} {r : Receiver}
    (h : r.Inside) (hi : r.i < r.chunk.length)
    (clean : ∀ s' outs, recvStep term (some r) .byte = .ok (s', outs) →
      Undamaged term before ⟨some r, .byte, outs, s'⟩) :
    ∃ r' outs, recvStep term (some r) .byte = .ok (some r', outs) ∧ r'.Inside ∧
      r'.chunk = r.chunk ∧ r'.i = r.i + 1 ∧ r'.t = advance r.t r.chunk[r.i] ∧
      dataOf outs ++ r'.pending = r.pending ++ decoded r.t r.chunk[r.i] ∧
      (results sipTag 10 (before ++ dataOf outs)).map some =
        (results sipTag 10 before).map some ++ tagsOf term outs := by
  let b := byteStep r.t r.i r.start r.current
  let d := deliver term r.chunk r.sip b.2.2
  have taken : recvStep term (some r) .byte =
      .ok (d.1.map fun sip => { r with t := b.1, sip := sip, i := r.i + 1, start := b.2.1 },
        d.2) := by
    simp [recvStep, h.busy, hi, b, d]
  have good := clean _ _ taken
  obtain ⟨sip', hsip⟩ := deliver_harmless good.harmless
  have hd : d.1 = some sip' := hsip
  rw [hd] at taken
  have sound' : sip'.Sound r.chunk := (deliver_sound h.sound).2 sip' hsip
  have hres := (byteStep_simple r.t r.i r.start r.current).results h.sound good.harmless good.joins
  have moved : (b.1.state = .data → b.2.1 ≤ r.i + 1) ∧ b.1 = advance r.t r.chunk[r.i] ∧
      dataOf d.2 ++ (if b.1.state = .data then (r.chunk.take (r.i + 1)).drop b.2.1 else []) =
        r.pending ++ decoded r.t r.chunk[r.i] := by
    by_cases hs : r.t.state = .data
    · exact h.data hi hs
    · have byte : r.chunk.getD r.i 0 = r.chunk[r.i] := by simp [hi]
      have hcur : r.current = r.chunk[r.i] := (good.intact r rfl rfl hs).trans byte
      have hold := good.compress r rfl rfl
      rw [byte, ← hcur] at hold
      rw [← hcur]
      have hcmd : InCommand r.t r.current := ⟨hs, not_escape_of_harmless good.harmless⟩
      obtain ⟨hnear, hdata⟩ := @Receiver.Inside.command term r r.current hcmd hold
      exact ⟨hnear, byteStep_fst _ _ _ _, hdata⟩
  exact ⟨_, d.2, taken, ⟨h.busy, h.small, sound', moved.1⟩, rfl, rfl, moved.2.1, moved.2.2, hres⟩

/-- The last statement of `_process` without damage delivers what is pending. -/
theorem Receiver.Inside.flush {term : Option CStr} {before : List Byte} {r : Receiver}
    (h : r.Inside) (hi : r.i = r.chunk.length)
    (clean : ∀ s' outs, recvStep term (some r) .flush = .ok (s', outs) →
      Undamaged term before ⟨some r, .flush, outs, s'⟩) :
    ∃ r' outs, recvStep term (some r) .flush = .ok (some r', outs) ∧ r'.busy = false ∧
      r'.t = r.t ∧ dataOf outs = r.pending ∧
      (results sipTag 10 (before ++ dataOf outs)).map some =
        (results sipTag 10 before).map some ++ tagsOf term outs := by
  let d := deliver term r.chunk r.sip (pendingEvents r)
  have taken : recvStep term (some r) .flush =
      .ok (d.1.map fun sip => { r with sip := sip, busy := false }, d.2) := by
    simp [recvStep, h.busy, hi, d]
  have good := clean _ _ taken
  obtain ⟨sip', hsip⟩ := deliver_harmless good.harmless
  have hd : d.1 = some sip' := hsip
  rw [hd] at taken
  have simple : Simple (pendingEvents r) := by
    unfold pendingEvents
    split_ifs
    · exact .inr ⟨_, _, rfl⟩
    · exact .inl (by simp [NoData])
  refine ⟨_, d.2, taken, rfl, rfl, ?_, simple.results h.sound good.harmless good.joins⟩
  by_cases hs : r.t.state = .data
  · rw [Receiver.pending, if_pos hs]
    by_cases hne : r.i = r.start
    · rw [List.drop_eq_nil_of_le (by rw [List.length_take]; omega)]
      simp [d, pendingEvents, hne, deliver, dataOf]
    · simp only [d, pendingEvents, hs, ne_eq, hne, not_false_iff, and_self, if_true]
      exact dataOf_pending hi.le h.small (h.near hs)
  · simp [d, Receiver.pending, pendingEvents, hs, deliver, dataOf]

/-- The tags of the events queued in a run. -/
def runTags (term : Option CStr) (tr : List RecvMove) : List (Option Event) :=
  (queueOf term tr).map (·.event)

theorem runTags_cons (term : Option CStr) (m : RecvMove) (tr : List RecvMove) :
    runTags term (m :: tr) = tagsOf term m.outs ++ runTags term tr := by
  simp [runTags, queueOf, tagsOf]

theorem runTags_append (term : Option CStr) (tr tr' : List RecvMove) :
    runTags term (tr ++ tr') = runTags term tr ++ runTags term tr' := by
  simp [runTags, queueOf]

/-- `_process` without damage, from the middle of a chunk on: the data are those of the decoded
rest, and the tags are the results of their lines. -/
theorem Receiver.Inside.process {term : Option CStr} {rest : List Feed} {k : ℕ}
    {before : List Byte} {r : Receiver} (h : r.Inside) (hk : r.i + k = r.chunk.length)
    (clean : UndamagedRun term before
      (trace (recvStep term) (some r) (List.replicate k .byte ++ .flush :: rest))) :
    ∃ tr r', trace (recvStep term) (some r) (List.replicate k .byte ++ .flush :: rest) =
        tr ++ trace (recvStep term) (some r') rest ∧
      r'.busy = false ∧ r'.t = (r.chunk.drop r.i).foldl advance r.t ∧
      runData tr = r.pending ++ decode r.t (r.chunk.drop r.i) ∧
      (results sipTag 10 (before ++ runData tr)).map some =
        (results sipTag 10 before).map some ++ runTags term tr := by
  induction k generalizing before r with
  | zero =>
    have last : ∀ s' outs, recvStep term (some r) .flush = .ok (s', outs) →
        Undamaged term before ⟨some r, .flush, outs, s'⟩ := by
      intro s' outs taken
      rw [List.replicate_zero, List.nil_append, trace_cons taken] at clean
      exact clean.1
    obtain ⟨r', outs, taken, idle, ht, hdata, hres⟩ := h.flush hk last
    have hdrop : r.chunk.drop r.i = [] := List.drop_eq_nil_of_le (by omega)
    refine ⟨[⟨some r, .flush, outs, some r'⟩], r', trace_cons taken rest, idle, ?_, ?_, ?_⟩
    · rw [hdrop]
      exact ht
    · rw [hdrop, runData_cons]
      simpa [decode, runData] using hdata
    · rw [runData_cons, runTags_cons]
      simpa [runData, runTags, queueOf] using hres
  | succ k ih =>
    have hi : r.i < r.chunk.length := by omega
    rw [List.replicate_succ, List.cons_append] at clean ⊢
    have first : ∀ s' outs, recvStep term (some r) .byte = .ok (s', outs) →
        Undamaged term before ⟨some r, .byte, outs, s'⟩ := by
      intro s' outs taken
      rw [trace_cons taken] at clean
      exact clean.1
    obtain ⟨r', outs, taken, inside, hchunk, hi', ht, hdata, hres⟩ := h.byte hi first
    rw [trace_cons taken] at clean ⊢
    have hk' : r'.i + k = r'.chunk.length := by
      rw [hi', hchunk]
      omega
    obtain ⟨tr, r'', htr, idle, ht', hdata', hres'⟩ := ih inside hk' clean.2
    have hdrop : r.chunk.drop r.i = r.chunk[r.i] :: r.chunk.drop (r.i + 1) :=
      List.drop_eq_getElem_cons hi
    refine ⟨⟨some r, .byte, outs, some r'⟩ :: tr, r'', by rw [htr]; rfl, idle, ?_, ?_, ?_⟩
    · rw [ht', ht, hchunk, hi', hdrop]
      rfl
    · rw [runData_cons, hdata', hdrop, decode, ← List.append_assoc, hdata, ht, hchunk, hi',
        List.append_assoc]
    · rw [runData_cons, runTags_cons, ← List.append_assoc, hres', hres, List.append_assoc]

theorem Receiver.recv_inside (r : Receiver) (c : Chunk) : (r.recv c).Inside :=
  ⟨rfl, c.fits, r.recv_sound c, fun _ => le_rfl⟩

theorem Receiver.recv_pending (r : Receiver) (c : Chunk) : (r.recv c).pending = [] := by
  simp [Receiver.pending, Receiver.recv]

/-- A run without damage on any chunks, from any moment between two receives on. -/
theorem results_chunks {term : Option CStr} (chunks : List Chunk) {before : List Byte}
    {r : Receiver} (idle : r.busy = false)
    (clean : UndamagedRun term before
      (trace (recvStep term) (some r) (chunks.flatMap feedsOf))) :
    (results sipTag 10 (before ++ decode r.t (chunks.flatMap (·.bytes)))).map some =
      (results sipTag 10 before).map some ++
        runTags term (trace (recvStep term) (some r) (chunks.flatMap feedsOf)) := by
  induction chunks generalizing before r with
  | nil => simp [decode, trace, runTags, queueOf]
  | cons c chunks ih =>
    have first : recvStep term (some r) (.recv c) = .ok (some (r.recv c), []) := by
      simp [recvStep, idle]
    have feeds : (c :: chunks).flatMap feedsOf = .recv c ::
        (List.replicate c.bytes.length .byte ++ .flush :: chunks.flatMap feedsOf) := by
      simp [feedsOf, processOf]
    rw [feeds, trace_cons first] at clean ⊢
    have rest := clean.2
    rw [dataOf, List.flatMap_nil, List.append_nil] at rest
    have whole : (r.recv c).i + c.bytes.length = (r.recv c).chunk.length := Nat.zero_add _
    obtain ⟨tr, r', htr, idle', ht, hdata, hres⟩ := (r.recv_inside c).process whole rest
    rw [htr, undamagedRun_append] at rest
    have next := ih idle' rest.2
    have hdata : runData tr = decode r.t c.bytes := by
      rw [hdata, r.recv_pending c]
      rfl
    have ht : r'.t = c.bytes.foldl advance r.t := ht
    rw [runTags_cons, htr, runTags_append, List.flatMap_cons, decode_append, ← ht, ← hdata,
      ← List.append_assoc, next, hres, List.append_assoc]
    rfl

/-- In every run without damage, on any stream and any chunks, the events queued are the results of
`find_event` on the lines of the decoded stream. -/
theorem queue_eq_lines (term : Option CStr) (env : Answers) (chunks : List Chunk)
    (clean : UndamagedRun term [] (recvTrace term env (chunks.flatMap feedsOf))) :
    (queueOf term (recvTrace term env (chunks.flatMap feedsOf))).map (·.event) =
      (results sipTag 10 (decode (initReceiver env).t (chunks.flatMap (·.bytes)))).map some := by
  have h := results_chunks chunks rfl clean
  rw [List.nil_append] at h
  exact h.symm

/-- A line about the end of a call. -/
def sampleDisconnected : Chunk :=
  ⟨text "Call 0 is DISCONNECTED [reason=200 (Normal call clearing)]\n", by decide, by decide⟩

theorem queue_eq_lines_sample :
    (queueOf none (recvTrace none .good
        ([sampleConfirmed, sampleDisconnected].flatMap feedsOf))).map (·.event) =
      (results sipTag 10 (decode (initReceiver .good).t
        ([sampleConfirmed, sampleDisconnected].flatMap (·.bytes)))).map some :=
  have clean : UndamagedRun none []
      (recvTrace none .good ([sampleConfirmed, sampleDisconnected].flatMap feedsOf)) := by
    decide +kernel
  queue_eq_lines none .good [sampleConfirmed, sampleDisconnected] clean

/-- The two parts of a line about a call that is confirmed. -/
def sampleParts : List Chunk :=
  [⟨text "Call 0 state changed to CON", by decide, by decide⟩,
    ⟨text "FIRMED\n", by decide, by decide⟩]

/-- A line that arrives in two parts is not queued. -/
theorem not_queue_eq_lines_parts :
    ¬ (queueOf none (recvTrace none .good (sampleParts.flatMap feedsOf))).map (·.event) =
      (results sipTag 10
        (decode (initReceiver .good).t (sampleParts.flatMap (·.bytes)))).map some := by
  decide +kernel

end Siproxy
