import Siproxy.SipInput

/-!
# Receives that do not disturb each other

What is behind the bytes received last, in the receive buffer, is left over from earlier receives.
Two runs that differ in it only take the same steps, and queue the same events if all events about
data have their own lines (`SameRun.queueOf_eq`); the data of the events of one receive are
disjoint ranges of the bytes received (`spans_apart`).

`own_lines_iff` says for every run which events about data have their own lines.
-/

namespace Siproxy

open CString Machine Lines Telnet

/-! ### Two runs on the same bytes -/

/-- The steps of `_process` on a chunk. -/
def processOf (c : Chunk) : List Feed := List.replicate c.bytes.length .byte ++ [.flush]

/-- The steps of the receive loop on a chunk. -/
def feedsOf (c : Chunk) : List Feed := .recv c :: processOf c

theorem trace_feedsOf (term : Option CStr) {r : Receiver} (idle : r.busy = false) (c : Chunk) :
    trace (recvStep term) (some r) (feedsOf c) =
      ⟨some r, .recv c, [], some (r.recv c)⟩ ::
        trace (recvStep term) (some (r.recv c)) (processOf c) := by
  simp [feedsOf, trace, recvStep, idle]

/-- The events queued in a run. -/
def queueOf (term : Option CStr) (tr : List RecvMove) : List RawEvt :=
  tr.flatMap fun m => m.outs.flatMap fun d => (d.queued term).getD []

/-- The effect of `strtok` on the first bytes of the memory depends on these bytes only. -/
theorem take_strtokMem (n off : ℕ) (inToken : Bool) (mem : List Byte) :
    (mem.take off ++ strtokMem inToken (mem.drop off)).take n =
      (mem.take n).take off ++ strtokMem inToken ((mem.take n).drop off) := by
  induction off generalizing n mem with
  | zero =>
    simp only [List.take_zero, List.drop_zero, List.nil_append]
    induction mem generalizing n inToken with
    | nil => simp [strtokMem]
    | cons b mem ih =>
      cases n with
      | zero => simp [strtokMem]
      | succ n =>
        simp only [strtokMem, List.take_succ_cons]
        split_ifs <;> simp [ih]
  | succ off ih =>
    cases mem with
    | nil => simp [strtokMem]
    | cons b mem =>
      cases n with
      | zero => simp [strtokMem]
      | succ n => simpa using ih n mem

/-- The memories agree on the bytes received, and `_send` has the same answers. -/
def Alike (n : ℕ) (s₁ s₂ : Sip) : Prop := s₁.mem.take n = s₂.mem.take n ∧ s₁.sends = s₂.sends

theorem sipEvent_data {term : Option CStr} {sip : Sip} {off size : ℕ}
    (nul : 0 ∈ sip.mem.drop off) :
    ∃ mallocs, (sipEvent term sip (.data (.buffer off) size)).map (·.1) =
      some { sip with
        mem := sip.mem.take off ++ strtokMem false (sip.mem.drop off)
        mallocs := mallocs } := by
  simp [sipEvent, nul]

theorem sendAll_alike {n : ℕ} {s₁ s₂ : Sip} (same : Alike n s₁ s₂) (parts : List (List Byte)) :
    (s₁.sendAll parts).map (·.2) = (s₂.sendAll parts).map (·.2) ∧
      Option.Rel (Alike n) ((s₁.sendAll parts).map (·.1)) ((s₂.sendAll parts).map (·.1)) := by
  rw [sendAll_eq, sendAll_eq, same.2]
  split_ifs
  · exact ⟨rfl, .some ⟨same.1, rfl⟩⟩
  · exact ⟨rfl, .none⟩

theorem queued_of_outs {term : Option CStr} {chunk : List Byte} {s₁ s₂ : Sip} {ev : TelnetEvent}
    (h : (sipEvent term s₁ ev).map (·.2) = (sipEvent term s₂ ev).map (·.2)) :
    (Delivery.mk chunk s₁ ev).queued term = (Delivery.mk chunk s₂ ev).queued term := by
  have split (r : Option (Sip × List SipOut)) : r.map (fun r => r.2.filterMap SipOut.evt?) =
      (r.map (·.2)).map (List.filterMap SipOut.evt?) := by
    cases r <;> rfl
  rw [Delivery.queued, Delivery.queued, split, split, h]

/-- An event about data whose lines are its own, or any other event, has the same effect in both
memories. -/
theorem sipEvent_alike {term : Option CStr} {chunk : List Byte} {s₁ s₂ : Sip} {ev : TelnetEvent}
    (same : Alike chunk.length s₁ s₂) (h₁ : s₁.Sound chunk) (h₂ : s₂.Sound chunk)
    (iso₁ : (Delivery.mk chunk s₁ ev).isData = true → (Delivery.mk chunk s₁ ev).Isolated sipEvt)
    (iso₂ : (Delivery.mk chunk s₂ ev).isData = true → (Delivery.mk chunk s₂ ev).Isolated sipEvt) :
    (Delivery.mk chunk s₁ ev).queued term = (Delivery.mk chunk s₂ ev).queued term ∧
      Option.Rel (Alike chunk.length) ((sipEvent term s₁ ev).map (·.1))
        ((sipEvent term s₂ ev).map (·.1)) := by
  cases ev with
  | data ptr size =>
    cases ptr with
    | byte b => exact ⟨rfl, .none⟩
    | buffer off =>
      have i₁ := iso₁ rfl
      have i₂ := iso₂ rfl
      have own₁ : Delivery.OwnLines term _ := (Delivery.ownLines_iff h₁ rfl).2 i₁
      have own₂ : Delivery.OwnLines term _ := (Delivery.ownLines_iff h₂ rfl).2 i₂
      obtain ⟨data₁, hr₁, hq₁⟩ := own₁.queued_eq
      obtain ⟨data₂, hr₂, hq₂⟩ := own₂.queued_eq
      have hdata : data₁ = data₂ := Option.some.inj (hr₁.symm.trans hr₂)
      obtain ⟨m₁, e₁⟩ := @sipEvent_data term s₁ off size (isolated_buffer.1 i₁).2.1
      obtain ⟨m₂, e₂⟩ := @sipEvent_data term s₂ off size (isolated_buffer.1 i₂).2.1
      rw [hq₁, hq₂, hdata, e₁, e₂]
      refine ⟨rfl, .some ⟨?_, same.2⟩⟩
      rw [take_strtokMem, take_strtokMem, same.1]
  | send bytes =>
    obtain ⟨outs, rel⟩ := sendAll_alike same [bytes]
    exact ⟨queued_of_outs outs, rel⟩
  | will telopt =>
    refine ⟨rfl, .some ?_⟩
    split_ifs <;> exact same
  | wont telopt =>
    refine ⟨rfl, .some ?_⟩
    split_ifs <;> exact same
  | ttype cmd name =>
    by_cases hcmd : cmd = 1
    · cases term with
      | none => simp [Delivery.queued, sipEvent, hcmd]
      | some term =>
        obtain ⟨outs, rel⟩ := sendAll_alike same (ttypeIs term)
        have asks (sip : Sip) : sipEvent (some term) sip (.ttype cmd name) =
            sip.sendAll (ttypeIs term) := by simp [sipEvent, hcmd]
        rw [← asks, ← asks] at outs rel
        exact ⟨queued_of_outs outs, rel⟩
    · simpa [Delivery.queued, sipEvent, hcmd] using same
  | _ => exact ⟨rfl, .some same⟩

theorem deliver_alike {term : Option CStr} {chunk : List Byte} {s₁ s₂ : Sip}
    (same : Alike chunk.length s₁ s₂) (h₁ : s₁.Sound chunk) (h₂ : s₂.Sound chunk)
    {evs : List TelnetEvent}
    (iso₁ : ∀ d ∈ (deliver term chunk s₁ evs).2, d.isData = true → d.Isolated sipEvt)
    (iso₂ : ∀ d ∈ (deliver term chunk s₂ evs).2, d.isData = true → d.Isolated sipEvt) :
    ((deliver term chunk s₁ evs).2.flatMap fun d => (d.queued term).getD []) =
        ((deliver term chunk s₂ evs).2.flatMap fun d => (d.queued term).getD []) ∧
      Option.Rel (Alike chunk.length) (deliver term chunk s₁ evs).1
        (deliver term chunk s₂ evs).1 := by
  induction evs generalizing s₁ s₂ with
  | nil => exact ⟨rfl, .some same⟩
  | cons ev evs ih =>
    obtain ⟨hq, hrel⟩ := @sipEvent_alike term chunk s₁ s₂ ev same h₁ h₂
      (iso₁ _ (deliver_head term chunk s₁ ev evs)) (iso₂ _ (deliver_head term chunk s₂ ev evs))
    rcases e₁ : sipEvent term s₁ ev with _ | ⟨s₁', o₁⟩ <;>
      rcases e₂ : sipEvent term s₂ ev with _ | ⟨s₂', o₂⟩
    · simp only [deliver, e₁, e₂, List.flatMap_cons, List.flatMap_nil, hq]
      exact ⟨trivial, .none⟩
    · simp [e₁, e₂] at hrel
    · simp [e₁, e₂] at hrel
    · simp only [e₁, e₂, Option.map_some, Option.rel_some_some] at hrel
      simp only [deliver, e₁, List.mem_cons, forall_eq_or_imp] at iso₁
      simp only [deliver, e₂, List.mem_cons, forall_eq_or_imp] at iso₂
      obtain ⟨hrest, hend⟩ := ih hrel (h₁.sipEvent e₁) (h₂.sipEvent e₂) iso₁.2 iso₂.2
      simp only [deliver, e₁, e₂, List.flatMap_cons, hq, hrest]
      exact ⟨trivial, hend⟩

/-- The second receiver is the first one with other bytes behind the bytes received. -/
def SameRun (r₁ r₂ : Receiver) : Prop :=
  ∃ sip, r₂ = { r₁ with sip := sip } ∧ Alike r₁.chunk.length r₁.sip sip ∧
    r₁.sip.Sound r₁.chunk ∧ sip.Sound r₁.chunk

/-- All events about data have their own lines. -/
def AllIsolated (outs : List Delivery) : Prop :=
  ∀ d ∈ outs, d.isData = true → d.Isolated sipEvt

/-- What the buffer held before does not matter after a receive. -/
theorem sameRun_recv {r₁ r₂ : Receiver} (c : Chunk) (ht : r₂.t = r₁.t)
    (hsends : r₂.sip.sends = r₁.sip.sends) : SameRun (r₁.recv c) (r₂.recv c) := by
  refine ⟨(r₂.recv c).sip, ?_, ?_, r₁.recv_sound c, r₂.recv_sound c⟩
  · simp [Receiver.recv, ht]
  · simp [Alike, Receiver.recv, hsends]

theorem Alike.getD {n i : ℕ} {s₁ s₂ : Sip} (h : Alike n s₁ s₂) (hi : i < n) :
    s₁.mem.getD i 0 = s₂.mem.getD i 0 := by
  have h₁ : (s₁.mem.take n)[i]? = s₁.mem[i]? := List.getElem?_take_of_lt hi
  have h₂ : (s₂.mem.take n)[i]? = s₂.mem[i]? := List.getElem?_take_of_lt hi
  rw [List.getD_eq_getElem?_getD, List.getD_eq_getElem?_getD, ← h₁, ← h₂, h.1]

theorem SameRun.deliver {term : Option CStr} {r : Receiver} {sip : Sip}
    (same : Alike r.chunk.length r.sip sip) (g₁ : r.sip.Sound r.chunk) (g₂ : sip.Sound r.chunk)
    {evs : List TelnetEvent} (t : Tracker) (i start : ℕ) (busy : Bool)
    (iso₁ : AllIsolated (deliver term r.chunk r.sip evs).2)
    (iso₂ : AllIsolated (deliver term r.chunk sip evs).2) :
    ((deliver term r.chunk r.sip evs).2.flatMap fun d => (d.queued term).getD []) =
        ((deliver term r.chunk sip evs).2.flatMap fun d => (d.queued term).getD []) ∧
      Option.Rel SameRun
        ((deliver term r.chunk r.sip evs).1.map fun sip' => ⟨t, sip', r.chunk, i, start, busy⟩)
        ((deliver term r.chunk sip evs).1.map fun sip' => ⟨t, sip', r.chunk, i, start, busy⟩) := by
  obtain ⟨hq, hrel⟩ := deliver_alike same g₁ g₂ iso₁ iso₂
  have good₁ := (@deliver_sound term r.chunk r.sip evs g₁).2
  have good₂ := (@deliver_sound term r.chunk sip evs g₂).2
  refine ⟨hq, ?_⟩
  generalize (Siproxy.deliver term r.chunk r.sip evs).1 = o₁ at hrel good₁
  generalize (Siproxy.deliver term r.chunk sip evs).1 = o₂ at hrel good₂
  cases hrel with
  | none => exact .none
  | some hsip => exact .some ⟨_, rfl, hsip, good₁ _ rfl, good₂ _ rfl⟩

theorem SameRun.step (term : Option CStr) {r₁ r₂ : Receiver} (h : SameRun r₁ r₂) (feed : Feed) :
    (recvStep term (some r₁) feed = .error () ∧ recvStep term (some r₂) feed = .error ()) ∨
      ∃ s₁ o₁ s₂ o₂, recvStep term (some r₁) feed = .ok (s₁, o₁) ∧
        recvStep term (some r₂) feed = .ok (s₂, o₂) ∧
        (AllIsolated o₁ → AllIsolated o₂ →
          (o₁.flatMap fun d => (d.queued term).getD []) =
              (o₂.flatMap fun d => (d.queued term).getD []) ∧
            Option.Rel SameRun s₁ s₂) := by
  obtain ⟨sip, rfl, same, g₁, g₂⟩ := h
  cases feed with
  | recv c =>
    simp only [recvStep]
    split_ifs
    · exact .inl ⟨rfl, rfl⟩
    · exact .inr ⟨_, _, _, _, rfl, rfl, fun _ _ => ⟨rfl, .some (sameRun_recv c rfl same.2.symm)⟩⟩
  | byte =>
    simp only [recvStep]
    split_ifs with hb
    · have hcur : ({ r₁ with sip := sip } : Receiver).current = r₁.current := (same.getD hb.2).symm
      rw [hcur]
      exact .inr ⟨_, _, _, _, rfl, rfl, SameRun.deliver same g₁ g₂ _ _ _ _⟩
    · exact .inl ⟨rfl, rfl⟩
  | flush =>
    have pending : pendingEvents { r₁ with sip := sip } = pendingEvents r₁ := rfl
    simp only [recvStep, pending]
    split_ifs with hb
    · exact .inr ⟨_, _, _, _, rfl, rfl, SameRun.deliver same g₁ g₂ _ _ _ _⟩
    · exact .inl ⟨rfl, rfl⟩

/-- Two runs on the same input that differ only behind the bytes received queue the same events. -/
theorem SameRun.queueOf_eq {term : Option CStr} {s₁ s₂ : Option Receiver}
    (h : Option.Rel SameRun s₁ s₂) (feeds : List Feed)
    (iso₁ : ∀ m ∈ trace (recvStep term) s₁ feeds, AllIsolated m.outs)
    (iso₂ : ∀ m ∈ trace (recvStep term) s₂ feeds, AllIsolated m.outs) :
    queueOf term (trace (recvStep term) s₁ feeds) =
      queueOf term (trace (recvStep term) s₂ feeds) := by
  induction feeds generalizing s₁ s₂ with
  | nil => rfl
  | cons feed feeds ih =>
    cases h with
    | none => rfl
    | some h =>
      rcases h.step term feed with ⟨h₁, h₂⟩ | ⟨t₁, o₁, t₂, o₂, h₁, h₂, hnext⟩
      · simp [trace, h₁, h₂]
      · simp only [trace, h₁, List.mem_cons, forall_eq_or_imp] at iso₁ ⊢
        simp only [trace, h₂, List.mem_cons, forall_eq_or_imp] at iso₂ ⊢
        obtain ⟨hq, hrel⟩ := hnext iso₁.1 iso₂.1
        have rest := ih hrel iso₁.2 iso₂.2
        simp only [queueOf, List.flatMap_cons] at rest ⊢
        rw [hq, rest]

/-! ### The data of one receive -/

theorem deliver_ev_mem {term : Option CStr} {chunk : List Byte} {sip : Sip}
    {evs : List TelnetEvent} : ∀ d ∈ (deliver term chunk sip evs).2, d.ev ∈ evs := by
  induction evs generalizing sip with
  | nil => simp [deliver]
  | cons ev evs ih =>
    intro d hd
    rcases h : sipEvent term sip ev with _ | ⟨sip', outs⟩
    · simp only [deliver, h, List.mem_singleton] at hd
      simp [hd]
    · simp only [deliver, h, List.mem_cons] at hd
      rcases hd with rfl | hd
      · exact List.mem_cons_self
      · exact List.mem_cons_of_mem _ (ih d hd)

theorem deliver_singleton (term : Option CStr) (chunk : List Byte) (sip : Sip) (ev : TelnetEvent) :
    (deliver term chunk sip [ev]).2 = [⟨chunk, sip, ev⟩] := by
  rcases h : sipEvent term sip ev with _ | ⟨sip', outs⟩ <;> simp [deliver, h]

/-- The first position of an event's data in the bytes received, and the position behind them. -/
def Delivery.span? (d : Delivery) : Option (ℕ × ℕ) :=
  match d.ev with
  | .data (.buffer off) size =>
    if off + size ≤ d.chunk.length then some (off, off + size) else none
  | _ => none

/-- The ranges of the events of a step, in order. -/
def spansOf (outs : List Delivery) : List (ℕ × ℕ) := outs.filterMap Delivery.span?

/-- The ranges of the events of a run. -/
def runSpans (tr : List RecvMove) : List (ℕ × ℕ) := tr.flatMap fun m => spansOf m.outs

/-- Each range lies behind those in front of it. -/
def Apart (spans : List (ℕ × ℕ)) : Prop := spans.Pairwise fun a b => a.2 ≤ b.1

theorem runSpans_concat (tr : List RecvMove) (m : RecvMove) :
    runSpans (tr ++ [m]) = runSpans tr ++ spansOf m.outs := by
  simp [runSpans]

theorem spansOf_of_noData {term : Option CStr} {chunk : List Byte} {sip : Sip}
    {evs : List TelnetEvent} (h : NoData evs) : spansOf (deliver term chunk sip evs).2 = [] := by
  apply List.filterMap_eq_nil_iff.2
  intro d hd
  have quiet := h _ (deliver_ev_mem d hd)
  unfold Delivery.span?
  split
  · next hev => rw [hev] at quiet; cases quiet
  · rfl

theorem span?_pending {chunk : List Byte} {sip : Sip} {i start : ℕ} (hi : i ≤ chunk.length)
    (small : chunk.length ≤ recvSize) (near : start ≤ i + 1) :
    (Delivery.mk chunk sip (.data (.buffer start) (sizeT i start))).span? =
      if start ≤ i then some (start, i) else none := by
  rw [recvSize] at small
  unfold Delivery.span?
  by_cases hle : start ≤ i
  · have size : start + sizeT i start = i := by
      unfold sizeT
      omega
    simp only [size, hi, hle, if_true]
  · have size : ¬ start + sizeT i start ≤ chunk.length := by
      unfold sizeT
      omega
    simp only [size, hle, if_false]

theorem spansOf_pending {term : Option CStr} {chunk : List Byte} {sip : Sip} {i start : ℕ}
    (hi : i ≤ chunk.length) (small : chunk.length ≤ recvSize) (near : start ≤ i + 1) :
    spansOf (deliver term chunk sip [.data (.buffer start) (sizeT i start)]).2 =
      if start ≤ i then [(start, i)] else [] := by
  rw [deliver_singleton, spansOf, List.filterMap_cons, span?_pending hi small near]
  split_ifs <;> rfl

/-- Where a receiver stands in the bytes received, when `done` are the ranges delivered so far. -/
structure Placed (done : List (ℕ × ℕ)) (r : Receiver) : Prop where
  small : r.chunk.length ≤ recvSize
  apart : Apart done
  before : ∀ a ∈ done, a.2 ≤ r.i
  pending : r.t.state = .data → r.start ≤ r.i + 1 ∧ ∀ a ∈ done, a.2 ≤ r.start

/-- The pending data lie behind those delivered. -/
theorem Placed.apart_pending {done : List (ℕ × ℕ)} {r : Receiver} (h : Placed done r)
    (hs : r.t.state = .data) :
    let spans := done ++ if r.start ≤ r.i then [(r.start, r.i)] else []
    Apart spans ∧ ∀ a ∈ spans, a.2 ≤ r.i := by
  obtain ⟨-, behind⟩ := h.pending hs
  dsimp only
  split_ifs
  · refine ⟨List.pairwise_append.2 ⟨h.apart, List.pairwise_singleton _ _, ?_⟩, ?_⟩
    · simpa using fun a b hab => behind (a, b) hab
    · rw [List.forall_mem_append]
      exact ⟨h.before, by simp⟩
  · rw [List.append_nil]
    exact ⟨h.apart, h.before⟩

/-- The ranges delivered in one round of the loop of `_process`. -/
theorem Placed.byteStep_spans (term : Option CStr) {done : List (ℕ × ℕ)} {r : Receiver}
    (h : Placed done r) (hi : r.i < r.chunk.length) :
    let b := byteStep r.t r.i r.start r.current
    let spans := done ++ spansOf (deliver term r.chunk r.sip b.2.2).2
    Apart spans ∧ (∀ a ∈ spans, a.2 ≤ r.i) ∧
      (b.1.state = .data → b.2.1 ≤ r.i + 2 ∧ ∀ a ∈ spans, a.2 ≤ b.2.1) := by
  intro b spans
  by_cases hs : r.t.state = .data
  · by_cases hb : r.current = 255
    · -- an IAC delivers what is pending
      have hstep : b = _ := hb ▸ byteStep_iac hs r.i r.start
      have leaves : b.1.state ≠ .data := by simp [hstep]
      by_cases hne : r.i = r.start
      · have spans_eq : spans = done := by simp [spans, hstep, hne, deliver, spansOf]
        rw [spans_eq]
        exact ⟨h.apart, h.before, fun hd => absurd hd leaves⟩
      · have spans_eq : spans = done ++ if r.start ≤ r.i then [(r.start, r.i)] else [] := by
          simp only [spans, hstep, ne_eq, hne, not_false_iff, if_true]
          rw [spansOf_pending hi.le h.small (h.pending hs).1]
        obtain ⟨apart, before⟩ := h.apart_pending hs
        rw [spans_eq]
        exact ⟨apart, before, fun hd => absurd hd leaves⟩
    · have hstep : b = (r.t, r.start, []) := byteStep_text hs hb r.i r.start
      have spans_eq : spans = done := by simp [spans, hstep, deliver, spansOf]
      rw [spans_eq, hstep]
      exact ⟨h.apart, h.before, fun hd => ⟨(h.pending hd).1.trans (Nat.le_succ _), (h.pending hd).2⟩⟩
  · have behind : ∀ a ∈ done, a.2 ≤ r.i + 1 := fun a ha => (h.before a ha).trans (Nat.le_succ _)
    by_cases hesc : r.t.state = .iac ∧ r.current = 255
    · have hstep : b = ({ r.t with state := .data }, r.i + 1, [.data (.byte 255) 1]) := by
        simp only [b, hesc.2]
        exact byteStep_escape hesc.1 r.i r.start
      have spans_eq : spans = done := by
        simp [spans, hstep, deliver_singleton, spansOf, Delivery.span?]
      rw [spans_eq, hstep]
      exact ⟨h.apart, h.before, fun _ => ⟨Nat.le_succ _, behind⟩⟩
    · obtain ⟨quiet, hstart⟩ := byteStep_command ⟨hs, hesc⟩ r.i r.start
      have spans_eq : spans = done := by simp [spans, b, spansOf_of_noData quiet]
      rw [spans_eq]
      refine ⟨h.apart, h.before, fun hd => ?_⟩
      rcases hstart hd with hst | ⟨-, hst⟩
      · exact ⟨hst.le.trans (Nat.le_succ _), hst ▸ behind⟩
      · exact ⟨hst.le, fun a ha => hst ▸ (behind a ha).trans (Nat.le_succ _)⟩

theorem Placed.byte {term : Option CStr} {done : List (ℕ × ℕ)} {r : Receiver}
    {s' : Option Receiver} {outs : List Delivery} (h : Placed done r)
    (taken : recvStep term (some r) .byte = .ok (s', outs)) :
    Apart (done ++ spansOf outs) ∧ ∀ r' ∈ s', Placed (done ++ spansOf outs) r' := by
  simp only [recvStep] at taken
  split_ifs at taken with hb
  cases taken
  obtain ⟨apart, before, pending⟩ := h.byteStep_spans term hb.2
  refine ⟨apart, fun r' hr' => ?_⟩
  obtain ⟨sip', -, rfl⟩ := Option.map_eq_some_iff.1 hr'
  exact ⟨h.small, apart, fun a ha => (before a ha).trans (Nat.le_succ _), pending⟩

theorem Placed.flush {term : Option CStr} {done : List (ℕ × ℕ)} {r : Receiver}
    {s' : Option Receiver} {outs : List Delivery} (h : Placed done r)
    (taken : recvStep term (some r) .flush = .ok (s', outs)) :
    Apart (done ++ spansOf outs) ∧ ∀ r' ∈ s', r'.busy = false := by
  simp only [recvStep] at taken
  split_ifs at taken with hb
  cases taken
  constructor
  · unfold pendingEvents
    split_ifs with hp
    · rw [spansOf_pending hb.2.le h.small (h.pending hp.1).1]
      exact (h.apart_pending hp.1).1
    · simpa [deliver, spansOf] using h.apart
  · intro r' hr'
    obtain ⟨sip', -, rfl⟩ := Option.map_eq_some_iff.1 hr'
    rfl

/-- The ranges delivered so far are apart, and what is still pending lies behind them. -/
def WithinChunk (tr : List RecvMove) (s : Option Receiver) : Prop :=
  Apart (runSpans tr) ∧ ∀ r ∈ s, r.busy = true → Placed (runSpans tr) r

theorem WithinChunk.concat {term : Option CStr} {tr : List RecvMove} {m : RecvMove}
    (h : WithinChunk tr m.pre) (hin : ∀ c, m.input ≠ .recv c)
    (taken : recvStep term m.pre m.input = .ok (m.post, m.outs)) :
    WithinChunk (tr ++ [m]) m.post := by
  rcases m with ⟨s, feed, outs, s'⟩
  dsimp only at *
  rw [WithinChunk, runSpans_concat]
  obtain ⟨r, rfl, ⟨c, hc, -⟩ | ⟨rfl, busy, -⟩ | ⟨rfl, busy, -⟩⟩ := recvStep_cases taken
  · exact absurd hc (hin c)
  · obtain ⟨apart, hnext⟩ := (h.2 r rfl busy).byte taken
    exact ⟨apart, fun r' hr' _ => hnext r' hr'⟩
  · obtain ⟨apart, hidle⟩ := (h.2 r rfl busy).flush taken
    refine ⟨apart, fun r' hr' hb => ?_⟩
    rw [hidle r' hr'] at hb
    cases hb

/-- The data of the events of one receive are disjoint ranges of the bytes received, in order. -/
theorem spans_apart (term : Option CStr) {r : Receiver} (idle : r.busy = false) (c : Chunk) :
    Apart (runSpans (trace (recvStep term) (some r) (feedsOf c))) := by
  have placed : Placed [] (r.recv c) :=
    ⟨c.fits, List.Pairwise.nil, by simp, fun _ => ⟨Nat.zero_le _, by simp⟩⟩
  have keep : ∀ tr, ∀ m ∈ trace (recvStep term) (some (r.recv c)) (processOf c),
      WithinChunk tr m.pre → recvStep term m.pre m.input = .ok (m.post, m.outs) →
        WithinChunk (tr ++ [m]) m.post := by
    intro tr m hm hw taken
    refine hw.concat (fun c' hc' => ?_) taken
    have hmem : m.input ∈ processOf c := trace_input_mem hm
    simp [processOf, hc'] at hmem
  have whole := trace_history WithinChunk
    ⟨List.Pairwise.nil, by rintro _ ⟨⟩ _; exact placed⟩ keep (List.append_nil _).symm
  rw [trace_feedsOf term idle]
  simpa [runSpans, spansOf] using whole.1

/-- In every run, the events queued for an event about data are those of the lines of its own bytes,
each for its own line, exactly if the event is isolated; these are then the results of these lines,
in order.  Two runs that receive the same bytes into buffers that differ queue the same events if
their events are isolated, and the data of the events of one receive are disjoint ranges of the
bytes received. -/
theorem own_lines_iff (term : Option CStr) (env : Answers) :
    (∀ feeds, ∀ m ∈ recvTrace term env feeds, ∀ d ∈ m.outs, d.isData = true →
      (d.OwnLines term ↔ d.Isolated sipEvt) ∧
        (d.OwnLines term →
          ∃ data, d.received = some data ∧ d.queued term = some (results sipEvt 10 data))) ∧
    (∀ (c : Chunk) (r₁ r₂ : Receiver), r₁.busy = false → r₂.busy = false → r₂.t = r₁.t →
      r₂.sip.sends = r₁.sip.sends →
      (∀ m ∈ trace (recvStep term) (some r₁) (feedsOf c), AllIsolated m.outs) →
      (∀ m ∈ trace (recvStep term) (some r₂) (feedsOf c), AllIsolated m.outs) →
      queueOf term (trace (recvStep term) (some r₁) (feedsOf c)) =
        queueOf term (trace (recvStep term) (some r₂) (feedsOf c))) ∧
    ∀ (c : Chunk) (r : Receiver), r.busy = false →
      (runSpans (trace (recvStep term) (some r) (feedsOf c))).Pairwise fun a b => a.2 ≤ b.1 := by
  refine ⟨fun feeds m hm d hd hdata => ?_, fun c r₁ r₂ h₁ h₂ ht hsends iso₁ iso₂ => ?_,
    fun c r idle => spans_apart term idle c⟩
  · exact ⟨Delivery.ownLines_iff (recvTrace_sound hm hd) hdata, Delivery.OwnLines.queued_eq⟩
  · rw [trace_feedsOf term h₁] at iso₁ ⊢
    rw [trace_feedsOf term h₂] at iso₂ ⊢
    simp only [List.mem_cons, forall_eq_or_imp] at iso₁ iso₂
    have rest := SameRun.queueOf_eq (.some (sameRun_recv c ht hsends)) (processOf c) iso₁.2 iso₂.2
    simpa [queueOf] using rest

/-- A line about a call that is confirmed. -/
def sampleConfirmed : Chunk :=
  ⟨text "Call 0 state changed to CONFIRMED\n", by decide, by decide⟩

/-- The first byte of another line. -/
def sampleCut : Chunk := ⟨text "C", by decide, by decide⟩

theorem own_lines_sampleConfirmed :
    ∃ m ∈ recvTrace none .good (feedsOf sampleConfirmed), ∃ d ∈ m.outs,
      d.isData = true ∧ d.Isolated sipEvt := by
  have own : ∃ m ∈ recvTrace none .good (feedsOf sampleConfirmed), ∃ d ∈ m.outs,
      d.isData = true ∧ d.received = some (text "Call 0 state changed to CONFIRMED\n") ∧
      d.queued none ≠ none ∧ d.tokenEvts =
        (tokens 10 (text "Call 0 state changed to CONFIRMED\n")).map sipEvt := by
    decide +kernel
  obtain ⟨m, hm, d, hd, hdata, hrec, hq, htoks⟩ := own
  have lines : d.OwnLines none := ⟨_, hrec, hq, htoks ▸ .refl _⟩
  exact ⟨m, hm, d, hd, hdata, ((own_lines_iff none .good).1 _ m hm d hd hdata).1.1 lines⟩

/-- The byte `C` is received over the first byte of the line: the line is queued once more. -/
theorem not_ownLines_stale :
    ¬ ∀ m ∈ recvTrace none .good (feedsOf sampleConfirmed ++ feedsOf sampleCut), ∀ d ∈ m.outs,
      d.isData = true →
        ∃ data, d.received = some data ∧ d.queued none = some (results sipEvt 10 data) := by
  intro h
  have again : ∃ m ∈ recvTrace none .good (feedsOf sampleConfirmed ++ feedsOf sampleCut),
      ∃ d ∈ m.outs, d.isData = true ∧ d.received = some (text "C") ∧
        d.queued none ≠ some (results sipEvt 10 (text "C")) := by
    decide +kernel
  obtain ⟨m, hm, d, hd, hdata, hrec, hq⟩ := again
  obtain ⟨data, hrec', hq'⟩ := h m hm d hd hdata
  obtain rfl := Option.some.inj (hrec.symm.trans hrec')
  exact hq hq'

end Siproxy
