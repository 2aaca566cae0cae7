import Siproxy.Mqtt.Qos2

/-!
# Exactly once

What the two ends of a connection do to the messages that are published with QoS 2.

* `qos2_exactly_once`: in every run, however the connection breaks, whatever is sent again and
  whichever writes fail, a message that is accepted is delivered once, is still to be delivered, or
  was thrown away with its session; and the application is told of the completion of delivered
  messages only.  A message of which it was told that it has failed may be delivered all the same.
* `linkTrace_fresh`: no message is given the id of one that is stored, as long as every PUBLISH is
  written.
-/

namespace Siproxy.Mqtt

open Machine

variable {μ : Type}

/-! ### What happens to the messages -/

/-- The receiver has not handed the message over. -/
def Link.holds (s : Link μ) (m : Messages μ) : Bool :=
  m.nextMessageType = .pubrec || (Keyed.get Prod.fst s.inboundMsgs m.msgid).isSome

/-- The messages that are still to be delivered. -/
def Link.undelivered (s : Link μ) : List μ :=
  s.commands.map Prod.snd ++ (s.outboundMsgs.filter s.holds).map Messages.publish

/-- The messages that were delivered, and whose completion is to come. -/
def Link.unconfirmed (s : Link μ) : List μ :=
  (s.outboundMsgs.filter fun m => !s.holds m).map Messages.publish

/-- A response is waiting for the message. -/
def Link.awaited (s : Link μ) (m : Messages μ) : Bool :=
  (Keyed.get Prod.fst s.responses m.msgid).isSome

/-- The messages that are stored, though the application was told that they have failed. -/
def Link.unwritten (s : Link μ) : List μ :=
  (s.outboundMsgs.filter fun m => !s.awaited m).map Messages.publish

/-- The messages of which the application has not been told anything. -/
def Link.waiting (s : Link μ) : List μ := s.commands.map Prod.snd ++ s.responses.map Prod.snd

def LinkOut.accepted? : LinkOut μ → Option μ
  | .accepted p => some p
  | _ => none

def LinkOut.delivered? : LinkOut μ → Option μ
  | .delivered p => some p
  | _ => none

def LinkOut.completed? : LinkOut μ → Option μ
  | .completed p => some p
  | _ => none

def LinkOut.failed? : LinkOut μ → Option μ
  | .failed p => some p
  | _ => none

def LinkOut.cleaned? : LinkOut μ → Option μ
  | .cleaned p => some p
  | _ => none

/-- No message is lost or doubled by a step, and the application is told once of each.  Of the
messages `quiet` it was told that they have failed before they were complete. -/
structure Conserves (s s' : Link μ) (outs : List (LinkOut μ)) (quiet : List μ) : Prop where
  undelivered : (s.undelivered ++ outs.filterMap LinkOut.accepted?).Perm
    (outs.filterMap LinkOut.delivered? ++ s'.undelivered)
  unconfirmed : (s.unconfirmed ++ outs.filterMap LinkOut.delivered?).Perm
    (outs.filterMap LinkOut.completed? ++ quiet ++ s'.unconfirmed)
  unwritten : (s.unwritten ++ outs.filterMap LinkOut.failed?).Perm (quiet ++ s'.unwritten)
  waiting : (s.waiting ++ outs.filterMap LinkOut.accepted?).Perm
    (outs.filterMap LinkOut.completed? ++ outs.filterMap LinkOut.failed? ++ s'.waiting)
  cleaned : outs.filterMap LinkOut.cleaned? = []

theorem Conserves.silent {s s' : Link μ} (hu : s'.undelivered = s.undelivered)
    (hc : s'.unconfirmed = s.unconfirmed) (hf : s'.unwritten = s.unwritten)
    (hw : s'.waiting = s.waiting) : Conserves s s' [] [] :=
  ⟨by simp [hu], by simp [hc], by simp [hf], by simp [hw], rfl⟩

/-! ### The sender's steps -/

theorem Link.Inv.distinct {s : Link μ} (h : s.Inv) : Keyed.Distinct Messages.msgid s.outboundMsgs :=
  (List.nodup_append.1 h.ids).2.1

theorem response_fst (m : Messages μ) : Prod.fst m.response = m.msgid := rfl

theorem Link.Inv.responseIds {s : Link μ} (h : s.Inv) :
    (s.responses.map Prod.fst).Sublist (s.outboundMsgs.map Messages.msgid) := by
  have sub := h.responses.map Prod.fst
  rwa [List.map_map] at sub

theorem Link.Inv.responses_distinct {s : Link μ} (h : s.Inv) :
    Keyed.Distinct Prod.fst s.responses := h.distinct.sublist h.responseIds

/-- The response for a message is the one with its id. -/
theorem Link.Inv.response_eq {s : Link μ} (h : s.Inv) {x : ℕ} {m : Messages μ} {r : ℕ × μ}
    (stored : Keyed.get Messages.msgid s.outboundMsgs x = some m)
    (found : Keyed.get Prod.fst s.responses x = some r) : r = m.response := by
  obtain ⟨mem, key⟩ := Keyed.get_mem found
  obtain ⟨m', stored', rfl⟩ := List.mem_map.1 (h.responses.subset mem)
  have same := Keyed.get_of_mem h.distinct stored'
  rw [← response_fst, key, stored] at same
  cases same
  rfl

/-- Packets are under way only while the connection is up. -/
theorem Link.Inv.online {s : Link μ} (h : s.Inv) (busy : s.forward ≠ [] ∨ s.answers ≠ []) :
    s.connected = true := by
  by_contra off
  obtain ⟨forward, answers⟩ := h.offline (Bool.eq_false_iff.2 off)
  rcases busy with busy | busy
  · exact busy forward
  · exact busy answers

theorem offline_of_online {connected : Bool} (online : connected = true) {q : Prop} :
    connected = false → q := by
  rintro rfl
  cases online

theorem Link.Inv.fresh {s : Link μ} (h : s.Inv) {msgid : ℕ} {p : μ} {commands : List (ℕ × μ)}
    (head : s.commands = (msgid, p) :: commands) :
    Keyed.get Messages.msgid s.outboundMsgs msgid = none := by
  have ids := h.ids
  rw [Link.stored, head, List.map_cons, List.cons_append, List.nodup_cons] at ids
  rw [Keyed.get_none_iff_notMem]
  exact fun hm => ids.1 (List.mem_append_right _ hm)

theorem Link.Inv.fresh_response {s : Link μ} (h : s.Inv) {msgid : ℕ} {p : μ}
    {commands : List (ℕ × μ)} (head : s.commands = (msgid, p) :: commands) :
    Keyed.get Prod.fst s.responses msgid = none := by
  have unused := Keyed.get_none_iff_notMem.1 (h.fresh head)
  exact Keyed.get_none_iff_notMem.2 fun hm => unused (h.responseIds.subset hm)

theorem Link.Inv.send {s : Link μ} (h : s.Inv) (fresh : s.Fresh) (p : μ) {msgid last : ℕ}
    (assigned : assignMsgId maxMsgId s.used s.msgID = some (msgid, last)) (nonzero : msgid ≠ 0) :
    let s' : Link μ := { s with msgID := last, commands := s.commands ++ [(msgid, p)] }
    s'.Inv ∧ Conserves s s' [.accepted p] [] := by
  intro s'
  have notStored := fresh _ assigned
  obtain ⟨rfl, isId, unused⟩ := assignMsgId_fresh h.last (Nat.le_refl _) assigned nonzero
  have stored : s'.stored.Perm (last :: s.stored) := by
    simp only [Link.stored, s', List.map_append, List.map_cons, List.map_nil, List.append_assoc,
      List.singleton_append]
    exact List.perm_middle
  have new : last ∉ s.stored := by
    intro mem
    rcases List.mem_append.1 mem with command | outbound
    · exact unused (List.mem_append_left _ command)
    · exact notStored outbound
  refine ⟨⟨h.responses, stored.nodup_iff.2 (List.nodup_cons.2 ⟨new, h.ids⟩), ?_, isId.2, h.inbound,
    h.phase, h.offline⟩, ?_⟩
  · intro x hx
    rcases List.mem_cons.1 (stored.mem_iff.1 hx) with rfl | hx
    · exact isId
    · exact h.isMsgId x hx
  · have accepted : [(.accepted p : LinkOut μ)].filterMap LinkOut.accepted? = [p] := rfl
    have added (rest : List μ) : (s.commands.map Prod.snd ++ rest ++ [p]).Perm
        (s'.commands.map Prod.snd ++ rest) := by
      simp only [s', List.map_append, List.map_cons, List.map_nil, List.append_assoc]
      exact List.perm_append_comm.append_left _
    refine ⟨added _, ?_, ?_, added _, rfl⟩
    · simp [s', Link.unconfirmed, Link.holds, List.filterMap_cons, LinkOut.delivered?,
        LinkOut.completed?]
    · simp [s', Link.unwritten, Link.awaited, List.filterMap_cons, LinkOut.failed?]

theorem view_process {s : Link μ} {msgid : ℕ}
    (fresh : Keyed.get Messages.msgid s.outboundMsgs msgid = none) (p : μ)
    {commands responses : List (ℕ × μ)} (y : ℕ) :
    Local y (s.view y) (Link.view { s with
      commands := commands
      responses := responses
      outboundMsgs := s.outboundMsgs ++ [⟨msgid, p, .pubrec⟩]
      forward := s.forward ++ [.publish msgid p false] } y) := by
  have found : Keyed.get Messages.msgid (s.outboundMsgs ++ [⟨msgid, p, .pubrec⟩]) y =
      if y = msgid then some ⟨msgid, p, .pubrec⟩
      else Keyed.get Messages.msgid s.outboundMsgs y := Keyed.get_concat fresh y
  by_cases hy : y = msgid
  · subst hy
    have moved := Local.start (x := y) (v := s.view y) p fresh
    simpa [Link.view, found] using moved
  · have kept := Local.same (x := y) (v := s.view y)
    simpa [Link.view, found, hy, Ne.symm hy] using kept

/-- A message goes from the commands to `outboundMsgs`. -/
theorem Link.stored_process {s : Link μ} {msgid : ℕ} {p : μ} {commands : List (ℕ × μ)}
    (head : s.commands = (msgid, p) :: commands) :
    (commands.map Prod.fst ++
      (s.outboundMsgs ++ [(⟨msgid, p, .pubrec⟩ : Messages μ)]).map Messages.msgid).Perm
      s.stored := by
  rw [Link.stored, head, List.map_append, ← List.append_assoc]
  exact List.perm_append_singleton msgid _

theorem Link.undelivered_process {s s' : Link μ} {msgid : ℕ} {p : μ} {commands : List (ℕ × μ)}
    (head : s.commands = (msgid, p) :: commands) (commands' : s'.commands = commands)
    (outbound : s'.outboundMsgs = s.outboundMsgs ++ [⟨msgid, p, .pubrec⟩])
    (inbound : s'.inboundMsgs = s.inboundMsgs) :
    s.undelivered.Perm s'.undelivered ∧ s'.unconfirmed = s.unconfirmed := by
  have new : s.holds ⟨msgid, p, .pubrec⟩ = true := rfl
  have same : s'.holds = s.holds := by
    unfold Link.holds
    rw [inbound]
  constructor
  · simp only [Link.undelivered, same, commands', outbound, head, List.filter_append,
      List.map_append, List.filter_cons, new, List.map_cons]
    simp only [List.cons_append, List.filter_nil, if_true, List.map_nil, ← List.append_assoc,
      List.map_cons]
    exact (List.perm_append_singleton p _).symm
  · simp [Link.unconfirmed, same, outbound, new]

theorem Link.Inv.process {s : Link μ} (h : s.Inv) {msgid : ℕ} {p : μ} {commands : List (ℕ × μ)}
    (head : s.commands = (msgid, p) :: commands) (online : s.connected = true) :
    let s' : Link μ := { s with
      commands := commands
      responses := s.responses ++ [(msgid, p)]
      outboundMsgs := s.outboundMsgs ++ [⟨msgid, p, .pubrec⟩]
      forward := s.forward ++ [.publish msgid p false] }
    s'.Inv ∧ Conserves s s' [] [] := by
  intro s'
  have stored : s'.stored.Perm s.stored := Link.stored_process head
  obtain ⟨undelivered, unconfirmed⟩ : s.undelivered.Perm s'.undelivered ∧
      s'.unconfirmed = s.unconfirmed := Link.undelivered_process head rfl rfl rfl
  refine ⟨⟨?_, stored.nodup_iff.2 h.ids, fun x hx => h.isMsgId x (stored.mem_iff.1 hx), h.last,
    h.inbound, ?_, offline_of_online online⟩, by simpa using undelivered, by simp [unconfirmed], ?_,
    ?_, rfl⟩
  · simp only [s', List.map_append]
    exact h.responses.append (List.Sublist.refl _)
  · exact fun y => (h.phase y).local (view_process (h.fresh head) p y)
  · have others : ∀ m ∈ s.outboundMsgs, s'.awaited m = s.awaited m := by
      intro m hm
      have apart : m.msgid ≠ msgid := Keyed.get_eq_none_iff.1 (h.fresh head) m hm
      simp only [Link.awaited, s']
      rw [Keyed.get_concat (h.fresh_response head), if_neg apart]
    have mine : s'.awaited ⟨msgid, p, .pubrec⟩ = true := by
      simp only [Link.awaited, s']
      rw [Keyed.get_concat (h.fresh_response head), if_pos rfl]
      rfl
    have same : s'.unwritten = s.unwritten := by
      unfold Link.unwritten
      rw [show s'.outboundMsgs = s.outboundMsgs ++ [⟨msgid, p, .pubrec⟩] from rfl,
        List.filter_append, List.filter_congr fun m hm => congrArg not (others m hm)]
      simp [mine]
    simp [same]
  · simp only [Link.waiting, s', head, List.map_cons, List.map_append, List.map_nil,
      List.filterMap_nil, List.append_nil, List.nil_append, ← List.append_assoc, List.cons_append]
    exact (List.perm_append_singleton p _).symm

/-- The message whose PUBLISH was not written is stored, and the application is told that it has
failed. -/
theorem Link.Inv.unwritten {s : Link μ} (h : s.Inv) {msgid : ℕ} {p : μ} {commands : List (ℕ × μ)}
    (head : s.commands = (msgid, p) :: commands) (online : s.connected = true) :
    let s' : Link μ := { s with
      commands := commands
      outboundMsgs := s.outboundMsgs ++ [⟨msgid, p, .pubrec⟩]
      disconnecting := true }
    s'.Inv ∧ Conserves s s' [.failed p] [] := by
  intro s'
  have stored : s'.stored.Perm s.stored := Link.stored_process head
  obtain ⟨undelivered, unconfirmed⟩ : s.undelivered.Perm s'.undelivered ∧
      s'.unconfirmed = s.unconfirmed := Link.undelivered_process head rfl rfl rfl
  refine ⟨⟨?_, stored.nodup_iff.2 h.ids, fun x hx => h.isMsgId x (stored.mem_iff.1 hx), h.last,
    h.inbound, ?_, offline_of_online online⟩, ?_, ?_, ?_, ?_, rfl⟩
  · simp only [s', List.map_append]
    exact h.responses.trans (List.sublist_append_left _ _)
  · intro y
    have found : Keyed.get Messages.msgid (s.outboundMsgs ++ [⟨msgid, p, .pubrec⟩]) y =
        if y = msgid then some ⟨msgid, p, .pubrec⟩
        else Keyed.get Messages.msgid s.outboundMsgs y := Keyed.get_concat (h.fresh head) y
    have before := h.phase y
    simp only [Link.view, s', found] at before ⊢
    split_ifs with hy
    · subst hy
      rw [h.fresh head] at before
      exact before.unwritten p
    · exact before
  · simpa [List.filterMap_cons, LinkOut.accepted?, LinkOut.delivered?] using undelivered
  · simp [unconfirmed, List.filterMap_cons, LinkOut.delivered?, LinkOut.completed?]
  · have mine : s.awaited ⟨msgid, p, .pubrec⟩ = false := by
      simp [Link.awaited, h.fresh_response head]
    have failed : [(.failed p : LinkOut μ)].filterMap LinkOut.failed? = [p] := rfl
    have added : s'.unwritten = s.unwritten ++ [p] := by
      unfold Link.unwritten
      rw [show s'.outboundMsgs = s.outboundMsgs ++ [⟨msgid, p, .pubrec⟩] from rfl,
        show s'.awaited = s.awaited from rfl, List.filter_append]
      simp [mine]
    rw [failed, added]
    exact List.Perm.refl _
  · simp [Link.waiting, s', head, List.filterMap_cons, LinkOut.accepted?, LinkOut.completed?,
      LinkOut.failed?]

/-! ### The receiver's steps -/

theorem replace_key (p : μ) (m : ℕ × μ) : Prod.fst (m.1, p) = Prod.fst m := rfl

theorem handlePublishes_get (inboundMsgs : List (ℕ × μ)) (x : ℕ) (p : μ) (y : ℕ) :
    Keyed.get Prod.fst (handlePublishes inboundMsgs x p).1 y =
      if y = x then some (x, p) else Keyed.get Prod.fst inboundMsgs y := by
  unfold handlePublishes
  split
  next m hm =>
    dsimp only
    rw [Keyed.get_modifyFirst (replace_key p), hm, Option.map_some, (Keyed.get_mem hm).2]
  next hm => exact Keyed.get_concat hm y

theorem handlePublishes_distinct {inboundMsgs : List (ℕ × μ)}
    (h : Keyed.Distinct Prod.fst inboundMsgs) (x : ℕ) (p : μ) :
    Keyed.Distinct Prod.fst (handlePublishes inboundMsgs x p).1 := by
  unfold handlePublishes
  split
  · unfold Keyed.Distinct
    dsimp only
    rwa [Keyed.map_modifyFirst (replace_key p)]
  next hm =>
    unfold Keyed.Distinct
    rw [List.map_append, List.map_cons, List.map_nil, ← List.concat_eq_append, List.nodup_concat]
    exact ⟨Keyed.get_none_iff_notMem.1 hm, h⟩

theorem view_publish {s : Link μ} {x : ℕ} {p : μ} {dup : Bool} {forward : List (Forward μ)}
    (hf : s.forward = .publish x p dup :: forward) (y : ℕ) :
    Local y (s.view y) (Link.view { s with
      forward := forward
      inboundMsgs := (handlePublishes s.inboundMsgs x p).1
      answers := s.answers ++ [.pubrec x] } y) := by
  by_cases hy : y = x
  · subst hy
    have moved := Local.publish (x := y) (v := s.view y) p dup (forward.filter (·.msgid = y))
      (by simp [Link.view, hf])
    simpa [Link.view, handlePublishes_get] using moved
  · have kept := Local.same (x := y) (v := s.view y)
    simpa [Link.view, handlePublishes_get, hf, hy, Ne.symm hy] using kept

theorem Link.Inv.receivePublish {s : Link μ} (h : s.Inv) {x : ℕ} {p : μ} {dup : Bool}
    {forward : List (Forward μ)} (hf : s.forward = .publish x p dup :: forward) :
    let s' : Link μ := { s with
      forward := forward
      inboundMsgs := (handlePublishes s.inboundMsgs x p).1
      answers := s.answers ++ [.pubrec x] }
    s'.Inv ∧ Conserves s s' [] [] := by
  intro s'
  have mine := h.phase x
  simp only [Link.view, hf, List.filter_cons_of_pos, Forward.msgid_publish,
    decide_true] at mine
  obtain ⟨type, hout, notOver, next⟩ := mine.publish
  have holds : ∀ m ∈ s.outboundMsgs, s'.holds m = s.holds m := by
    intro m hm
    unfold Link.holds
    rw [handlePublishes_get]
    split_ifs with hx
    · have found := Keyed.get_of_mem h.distinct hm
      rw [hx, hout] at found
      cases found
      rcases notOver with rfl | hin
      · rfl
      · simp [hin]
    · rfl
  have online : s.connected = true := h.online (.inl (by simp [hf]))
  refine ⟨⟨h.responses, h.ids, h.isMsgId, h.last, handlePublishes_distinct h.inbound x p, ?_,
    offline_of_online online⟩, .silent ?_ ?_ rfl rfl⟩
  · exact fun y => (h.phase y).local (view_publish hf y)
  · rw [Link.undelivered, List.filter_congr holds]
    rfl
  · rw [Link.unconfirmed, List.filter_congr fun m hm => congrArg not (holds m hm)]
    rfl

theorem view_pubrel {s : Link μ} (distinct : Keyed.Distinct Prod.fst s.inboundMsgs) {x : ℕ}
    {dup : Bool} {forward : List (Forward μ)} (hf : s.forward = .pubrel x dup :: forward) (y : ℕ) :
    Local y (s.view y) (Link.view { s with
      forward := forward
      inboundMsgs := (handlePubrels s.inboundMsgs x dup).1
      answers := s.answers ++ (handlePubrels s.inboundMsgs x dup).2.1 } y) := by
  cases hin : Keyed.get Prod.fst s.inboundMsgs x with
  | none =>
    have handled : handlePubrels s.inboundMsgs x dup =
        (s.inboundMsgs, if dup then [.pubcomp x] else [], []) := by
      simp [handlePubrels, hin]
    rw [handled]
    by_cases hy : y = x
    · subst hy
      have moved := Local.stale (x := y) (v := s.view y) dup (forward.filter (·.msgid = y))
        (by simp [Link.view, hf]) hin
      cases dup <;> simpa [Link.view] using moved
    · have kept := Local.same (x := y) (v := s.view y)
      cases dup <;> simpa [Link.view, hf, Ne.symm hy] using kept
  | some m =>
    have handled : handlePubrels s.inboundMsgs x dup =
        (Keyed.erase Prod.fst s.inboundMsgs x, [.pubcomp x], [m.2]) := by
      simp [handlePubrels, hin]
    rw [handled]
    by_cases hy : y = x
    · subst hy
      have moved := Local.deliver (x := y) (v := s.view y) dup (forward.filter (·.msgid = y))
        (by simp [Link.view, hf]) (by simp [Link.view, hin])
      simpa [Link.view, Keyed.get_erase distinct] using moved
    · have kept := Local.same (x := y) (v := s.view y)
      simpa [Link.view, Keyed.get_erase distinct, hf, hy, Ne.symm hy] using kept

section Filter

variable {α : Type} {q q' : α → Bool} {a : α} {l₁ l₂ : List α}

/-- Around an entry that `q` accepts, the two tests agree. -/
theorem filter_taken (mine : q a = true) (before : ∀ b ∈ l₁, q' b = q b)
    (behind : ∀ b ∈ l₂, q' b = q b) :
    ((l₁ ++ a :: l₂).filter q).Perm (a :: (l₁ ++ l₂).filter q') := by
  rw [List.filter_append, List.filter_cons, if_pos mine, List.filter_append,
    List.filter_congr before, List.filter_congr behind]
  exact List.perm_middle

theorem filter_left (mine : q a = false) (before : ∀ b ∈ l₁, q' b = q b)
    (behind : ∀ b ∈ l₂, q' b = q b) :
    (l₁ ++ a :: l₂).filter q = (l₁ ++ l₂).filter q' := by
  rw [List.filter_append, List.filter_cons, if_neg (by simp [mine]), List.filter_append,
    List.filter_congr before, List.filter_congr behind]

end Filter

theorem Link.Inv.receivePubrel {s : Link μ} (h : s.Inv) {x : ℕ} {dup : Bool}
    {forward : List (Forward μ)} (hf : s.forward = .pubrel x dup :: forward) :
    let r := handlePubrels s.inboundMsgs x dup
    let s' : Link μ := { s with
      forward := forward, inboundMsgs := r.1, answers := s.answers ++ r.2.1 }
    s'.Inv ∧ Conserves s s' (r.2.2.map .delivered) [] := by
  have online : s.connected = true := h.online (.inl (by simp [hf]))
  have phase (y : ℕ) := (h.phase y).local (view_pubrel h.inbound hf y)
  have mine := h.phase x
  simp only [Link.view, hf, List.filter_cons_of_pos, Forward.msgid_pubrel, decide_true] at mine
  obtain ⟨rfl, ⟨hin, -⟩ | ⟨p, hin, hout, -⟩⟩ := mine.pubrel
  · -- a release that is left over changes nothing
    simp only [handlePubrels, hin] at phase ⊢
    exact ⟨⟨h.responses, h.ids, h.isMsgId, h.last, h.inbound, phase,
      offline_of_online online⟩, .silent rfl rfl rfl rfl⟩
  · simp only [handlePubrels, hin, List.map_cons, List.map_nil] at phase ⊢
    refine ⟨⟨h.responses, h.ids, h.isMsgId, h.last, h.inbound.erase x, phase,
      offline_of_online online⟩, ?_⟩
    · obtain ⟨l₁, l₂, hsplit, before, behind⟩ := Keyed.split h.distinct hout
      set s' : Link μ := { s with
        forward := forward
        inboundMsgs := Keyed.erase Prod.fst s.inboundMsgs x
        answers := s.answers ++ [.pubcomp x] }
      have had : s.holds ⟨x, p, .pubcomp⟩ = true := by simp [Link.holds, hin]
      have gone : s'.holds ⟨x, p, .pubcomp⟩ = false := by
        simp [Link.holds, s', Keyed.get_erase h.inbound]
      have others (b : Messages μ) (hb : b.msgid ≠ x) : s'.holds b = s.holds b := by
        unfold Link.holds
        rw [Keyed.get_erase h.inbound, if_neg hb]
      have handed : (s.outboundMsgs.filter s.holds).Perm
          (⟨x, p, .pubcomp⟩ :: s'.outboundMsgs.filter s'.holds) := by
        have left : s'.outboundMsgs.filter s'.holds = (l₁ ++ l₂).filter s'.holds := by
          rw [show s'.outboundMsgs = s.outboundMsgs from rfl, hsplit]
          exact filter_left gone (fun _ _ => rfl) (fun _ _ => rfl)
        rw [left, hsplit]
        exact filter_taken had (fun b hb => others b (before b hb))
          (fun b hb => others b (behind b hb))
      have toConfirm : (s'.outboundMsgs.filter fun b => !s'.holds b).Perm
          (⟨x, p, .pubcomp⟩ :: s.outboundMsgs.filter fun b => !s.holds b) := by
        have left : (s.outboundMsgs.filter fun b => !s.holds b) =
            (l₁ ++ l₂).filter fun b => !s.holds b := by
          rw [hsplit]
          exact filter_left (congrArg not had) (fun _ _ => rfl) (fun _ _ => rfl)
        rw [left, show s'.outboundMsgs = s.outboundMsgs from rfl, hsplit]
        exact filter_taken (congrArg not gone)
          (fun b hb => congrArg not (others b (before b hb)).symm)
          (fun b hb => congrArg not (others b (behind b hb)).symm)
      have undelivered : s.undelivered.Perm (p :: s'.undelivered) :=
        ((handed.map Messages.publish).append_left _).trans List.perm_middle
      have unconfirmed : s'.unconfirmed.Perm (p :: s.unconfirmed) := toConfirm.map Messages.publish
      have unwritten : s'.unwritten = s.unwritten := rfl
      have waiting : s'.waiting = s.waiting := rfl
      refine ⟨?_, ?_, ?_, ?_, rfl⟩
      · simpa [List.filterMap_cons, LinkOut.accepted?, LinkOut.delivered?] using undelivered
      · have moved := (List.perm_append_singleton p s.unconfirmed).trans unconfirmed.symm
        simpa [List.filterMap_cons, LinkOut.delivered?, LinkOut.completed?] using moved
      · simp [unwritten, List.filterMap_cons, LinkOut.failed?]
      · simp [waiting, List.filterMap_cons, LinkOut.accepted?, LinkOut.completed?,
          LinkOut.failed?]

/-! ### Answers -/

theorem release_msgid (m : Messages μ) : m.release.msgid = m.msgid := rfl

theorem release_response (m : Messages μ) : m.release.response = m.response := rfl

theorem filter_replace {α β : Type} {q : α → Bool} {f : α → β} {a b : α} (hq : q a = q b)
    (hf : f a = f b) (l₁ l₂ : List α) :
    ((l₁ ++ a :: l₂).filter q).map f = ((l₁ ++ b :: l₂).filter q).map f := by
  simp only [List.filter_append, List.filter_cons, hq]
  split_ifs
  · simp [hf]
  · rfl

theorem view_pubrec {s : Link μ} {x : ℕ} {answers : List Answer}
    (ha : s.answers = .pubrec x :: answers) (y : ℕ) :
    Local y (s.view y) (Link.view { s with
      answers := answers
      outboundMsgs := (handlePubrecs s.outboundMsgs x).1
      forward := s.forward ++ (handlePubrecs s.outboundMsgs x).2 } y) := by
  by_cases waits : ∃ m, Keyed.get Messages.msgid s.outboundMsgs x = some m ∧
      m.nextMessageType = .pubrec
  · obtain ⟨m, hout, waits⟩ := waits
    have handled : handlePubrecs s.outboundMsgs x =
        (Keyed.modifyFirst Messages.msgid x Messages.release s.outboundMsgs, [.pubrel x false]) := by
      simp [handlePubrecs, hout, waits]
    rw [handled]
    have found := Keyed.get_modifyFirst release_msgid x y s.outboundMsgs
    by_cases hy : y = x
    · subst hy
      have moved := Local.release (x := y) (v := s.view y) m (answers.filter (·.msgid = y))
        (by simp [Link.view, ha]) hout waits
      simpa [Link.view, found, hout] using moved
    · have kept := Local.same (x := y) (v := s.view y)
      simpa [Link.view, found, ha, hy, Ne.symm hy] using kept
  · have unexpected : ∀ m, Keyed.get Messages.msgid s.outboundMsgs x = some m →
        m.nextMessageType ≠ .pubrec := fun m hm hw => waits ⟨m, hm, hw⟩
    have handled : handlePubrecs s.outboundMsgs x = (s.outboundMsgs, []) := by
      cases hout : Keyed.get Messages.msgid s.outboundMsgs x with
      | none => simp [handlePubrecs, hout]
      | some m => simp [handlePubrecs, hout, unexpected m hout]
    rw [handled]
    by_cases hy : y = x
    · subst hy
      have moved := Local.receipt (x := y) (v := s.view y) (answers.filter (·.msgid = y))
        (by simp [Link.view, ha]) unexpected
      simpa [Link.view] using moved
    · have kept := Local.same (x := y) (v := s.view y)
      simpa [Link.view, ha, Ne.symm hy] using kept

theorem Link.Inv.answeredPubrec {s : Link μ} (h : s.Inv) {x : ℕ} {answers : List Answer}
    (ha : s.answers = .pubrec x :: answers) :
    let r := handlePubrecs s.outboundMsgs x
    let s' : Link μ := { s with
      answers := answers, outboundMsgs := r.1, forward := s.forward ++ r.2 }
    s'.Inv ∧ Conserves s s' [] [] := by
  have online : s.connected = true := h.online (.inr (by simp [ha]))
  have phase (y : ℕ) := (h.phase y).local (view_pubrec ha y)
  have mine := h.phase x
  simp only [Link.view, ha, List.filter_cons_of_pos, Answer.msgid_pubrec, decide_true] at mine
  obtain ⟨p, ⟨hout, hin, -⟩ | ⟨hout, -⟩⟩ := mine.pubrec
  · have handled : handlePubrecs s.outboundMsgs x =
        (Keyed.modifyFirst Messages.msgid x Messages.release s.outboundMsgs, [.pubrel x false]) := by
      simp [handlePubrecs, hout]
    rw [handled] at phase ⊢
    obtain ⟨l₁, l₂, hsplit, before, -⟩ := Keyed.split h.distinct hout
    have modified : Keyed.modifyFirst Messages.msgid x Messages.release s.outboundMsgs =
        l₁ ++ ⟨x, p, .pubcomp⟩ :: l₂ := by
      rw [hsplit, Keyed.modifyFirst_split before rfl l₂]
      rfl
    have responses : (l₁ ++ ⟨x, p, .pubcomp⟩ :: l₂).map Messages.response =
        s.outboundMsgs.map Messages.response := by
      rw [← modified, Keyed.map_modifyFirst release_response]
    rw [modified] at phase ⊢
    set s' : Link μ := { s with
      answers := answers
      outboundMsgs := l₁ ++ ⟨x, p, .pubcomp⟩ :: l₂
      forward := s.forward ++ [.pubrel x false] }
    have stored : s'.stored = s.stored := by
      simp [Link.stored, s', hsplit]
    refine ⟨⟨responses ▸ h.responses, stored ▸ h.ids, stored ▸ h.isMsgId, h.last, h.inbound, phase,
      offline_of_online online⟩, ?_⟩
    have had : s.holds ⟨x, p, .pubrec⟩ = true := rfl
    have has : s.holds ⟨x, p, .pubcomp⟩ = true := by simp [Link.holds, hin]
    have looks : s.holds ⟨x, p, .pubcomp⟩ = s.holds ⟨x, p, .pubrec⟩ := has.trans had.symm
    refine .silent ?_ ?_ ?_ rfl
    · unfold Link.undelivered
      conv_rhs => rw [hsplit]
      exact congrArg _ (filter_replace looks rfl l₁ l₂)
    · unfold Link.unconfirmed
      conv_rhs => rw [hsplit]
      exact filter_replace (q := fun m => !s.holds m) (congrArg not looks) rfl l₁ l₂
    · unfold Link.unwritten
      conv_rhs => rw [hsplit]
      exact filter_replace (q := fun m => !s.awaited m) (f := Messages.publish)
        (a := ⟨x, p, .pubcomp⟩) (b := ⟨x, p, .pubrec⟩) rfl rfl l₁ l₂
  · have handled : handlePubrecs s.outboundMsgs x = (s.outboundMsgs, []) := by
      simp [handlePubrecs, hout]
    rw [handled] at phase ⊢
    exact ⟨⟨h.responses, h.ids, h.isMsgId, h.last, h.inbound, phase,
      offline_of_online online⟩, .silent rfl rfl rfl rfl⟩

theorem view_pubcomp {s : Link μ} (distinct : Keyed.Distinct Messages.msgid s.outboundMsgs) {x : ℕ}
    {answers : List Answer} (ha : s.answers = .pubcomp x :: answers) (responses : List (ℕ × μ))
    (y : ℕ) :
    Local y (s.view y) (Link.view { s with
      answers := answers
      outboundMsgs := handlePubcomps s.outboundMsgs x
      responses := responses } y) := by
  by_cases waits : ∃ m, Keyed.get Messages.msgid s.outboundMsgs x = some m ∧
      m.nextMessageType = .pubcomp
  · obtain ⟨m, hout, waits⟩ := waits
    have handled : handlePubcomps s.outboundMsgs x =
        Keyed.erase Messages.msgid s.outboundMsgs x := by
      simp [handlePubcomps, hout, waits]
    rw [handled]
    have found := Keyed.get_erase distinct x y
    by_cases hy : y = x
    · subst hy
      have moved := Local.complete (x := y) (v := s.view y) m (answers.filter (·.msgid = y))
        (by simp [Link.view, ha]) hout waits
      simpa [Link.view, found] using moved
    · have kept := Local.same (x := y) (v := s.view y)
      simpa [Link.view, found, ha, hy, Ne.symm hy] using kept
  · have unexpected : ∀ m, Keyed.get Messages.msgid s.outboundMsgs x = some m →
        m.nextMessageType ≠ .pubcomp := fun m hm hw => waits ⟨m, hm, hw⟩
    have handled : handlePubcomps s.outboundMsgs x = s.outboundMsgs := by
      cases hout : Keyed.get Messages.msgid s.outboundMsgs x with
      | none => simp [handlePubcomps, hout]
      | some m => simp [handlePubcomps, hout, unexpected m hout]
    rw [handled]
    by_cases hy : y = x
    · subst hy
      have moved := Local.ignored (x := y) (v := s.view y) (answers.filter (·.msgid = y))
        (by simp [Link.view, ha]) unexpected
      simpa [Link.view] using moved
    · have kept := Local.same (x := y) (v := s.view y)
      simpa [Link.view, ha, Ne.symm hy] using kept

theorem Link.Inv.waiting_erase {s : Link μ} (h : s.Inv) {x : ℕ} {m : Messages μ}
    (stored : Keyed.get Messages.msgid s.outboundMsgs x = some m) :
    ∃ (told : Option μ) (quiet : List μ),
      (Keyed.get Prod.fst s.responses x).map (fun r => LinkOut.completed r.2) =
        told.map LinkOut.completed ∧
      (s.responses.map Prod.snd).Perm
        (told.toList ++ (Keyed.erase Prod.fst s.responses x).map Prod.snd) ∧
      [m.publish] = told.toList ++ quiet ∧ quiet = if s.awaited m then [] else [m.publish] := by
  have key := (Keyed.get_mem stored).2
  cases found : Keyed.get Prod.fst s.responses x with
  | none =>
    refine ⟨none, [m.publish], rfl, ?_, rfl, ?_⟩
    · rw [Keyed.erase_of_get_none found]
      exact List.Perm.refl _
    · simp [Link.awaited, key, found]
  | some r =>
    obtain rfl := h.response_eq stored found
    refine ⟨some m.publish, [], rfl, ?_, rfl, ?_⟩
    · obtain ⟨l₁, l₂, hsplit, before, -⟩ := Keyed.split h.responses_distinct found
      have erased : Keyed.erase Prod.fst s.responses x = l₁ ++ l₂ := by
        rw [hsplit, Keyed.erase_split before key]
      rw [erased, hsplit, List.map_append, List.map_cons, List.map_append]
      exact List.perm_middle
    · simp [Link.awaited, key, found]

theorem Link.Inv.answeredPubcomp {s : Link μ} (h : s.Inv) {x : ℕ} {answers : List Answer}
    (ha : s.answers = .pubcomp x :: answers) :
    let s' : Link μ := { s with
      answers := answers
      outboundMsgs := handlePubcomps s.outboundMsgs x
      responses := Keyed.erase Prod.fst s.responses x }
    s'.Inv ∧ ∃ quiet, Conserves s s'
      ((Keyed.get Prod.fst s.responses x).map fun r => .completed r.2).toList quiet := by
  have online : s.connected = true := h.online (.inr (by simp [ha]))
  have phase (y : ℕ) := (h.phase y).local (view_pubcomp h.distinct ha
    (Keyed.erase Prod.fst s.responses x) y)
  have mine := h.phase x
  simp only [Link.view, ha, List.filter_cons_of_pos, Answer.msgid_pubcomp, decide_true] at mine
  obtain ⟨p, hout, hin, -, -⟩ := mine.pubcomp
  have handled : handlePubcomps s.outboundMsgs x = Keyed.erase Messages.msgid s.outboundMsgs x := by
    simp [handlePubcomps, hout]
  have sub : (s.commands.map Prod.fst ++
      (Keyed.erase Messages.msgid s.outboundMsgs x).map Messages.msgid).Sublist s.stored :=
    (List.eraseP_sublist.map Messages.msgid).append_left _
  rw [handled] at phase ⊢
  refine ⟨⟨?_, h.ids.sublist sub, fun y hy => h.isMsgId y (sub.subset hy), h.last, h.inbound,
    phase, offline_of_online online⟩, ?_⟩
  · have erased := h.responses.eraseP (p := fun r => Prod.fst r = x)
    have same := Keyed.erase_map response_fst s.outboundMsgs x
    exact same ▸ erased
  · obtain ⟨told, quiet, outs, responses, publish, quietly⟩ := h.waiting_erase hout
    obtain ⟨l₁, l₂, hsplit, before, behind⟩ := Keyed.split h.distinct hout
    have erased : Keyed.erase Messages.msgid s.outboundMsgs x = l₁ ++ l₂ := by
      rw [hsplit, Keyed.erase_split before rfl]
    have gone : s.holds ⟨x, p, .pubcomp⟩ = false := by simp [Link.holds, hin]
    rw [outs, erased]
    set s' : Link μ := { s with
      answers := answers
      outboundMsgs := l₁ ++ l₂
      responses := Keyed.erase Prod.fst s.responses x }
    have commands : s'.commands = s.commands := rfl
    have undelivered : s'.undelivered = s.undelivered := by
      unfold Link.undelivered
      rw [hsplit, filter_left gone (fun _ _ => rfl) (fun _ _ => rfl)]
      rfl
    have unconfirmed : s.unconfirmed.Perm (p :: s'.unconfirmed) := by
      unfold Link.unconfirmed
      rw [hsplit]
      have taken : ((l₁ ++ ⟨x, p, .pubcomp⟩ :: l₂).filter fun b => !s.holds b).Perm
          (⟨x, p, .pubcomp⟩ :: (l₁ ++ l₂).filter fun b => !s'.holds b) :=
        filter_taken (congrArg not gone) (fun _ _ => rfl) (fun _ _ => rfl)
      exact taken.map Messages.publish
    have unwritten : s.unwritten.Perm (quiet ++ s'.unwritten) := by
      have others (b : Messages μ) (hb : b.msgid ≠ x) : (!s'.awaited b) = !s.awaited b := by
        simp only [Link.awaited, s']
        rw [Keyed.get_erase_ne hb]
      have first (b : Messages μ) (hb : b ∈ l₁) := others b (before b hb)
      have second (b : Messages μ) (hb : b ∈ l₂) := others b (behind b hb)
      unfold Link.unwritten
      rw [hsplit, quietly]
      cases awaited : s.awaited ⟨x, p, .pubcomp⟩ with
      | true =>
        rw [filter_left (q := fun b => !s.awaited b) (congrArg not awaited) first second]
        rfl
      | false =>
        exact (filter_taken (q := fun b => !s.awaited b) (congrArg not awaited) first second).map
          Messages.publish
    have completed : (told.map (LinkOut.completed (μ := μ))).toList.filterMap LinkOut.completed? =
        told.toList := by
      cases told <;> rfl
    have others (f : LinkOut μ → Option μ) (hf : ∀ q, f (.completed q) = none) :
        (told.map (LinkOut.completed (μ := μ))).toList.filterMap f = [] := by
      cases told <;> simp [hf]
    refine ⟨quiet, ?_, ?_, ?_, ?_, others _ fun _ => rfl⟩
    · rw [undelivered, others _ fun _ => rfl, others _ fun _ => rfl, List.append_nil,
        List.nil_append]
    · rw [completed, ← publish, others _ fun _ => rfl, List.append_nil]
      exact unconfirmed
    · rw [others _ fun _ => rfl, List.append_nil]
      exact unwritten
    · rw [completed, others _ fun _ => rfl, others _ fun _ => rfl, List.append_nil, List.append_nil,
        Link.waiting, Link.waiting, commands]
      have moved := responses.append_left (s.commands.map Prod.snd)
      refine moved.trans ?_
      rw [← List.append_assoc, ← List.append_assoc]
      exact List.perm_append_comm.append_right _

/-! ### The connection -/

theorem retries_filter {outboundMsgs : List (Messages μ)}
    (h : Keyed.Distinct Messages.msgid outboundMsgs) (due : ℕ → Bool) (x : ℕ) :
    (retries outboundMsgs due).filter (·.msgid = x) =
      if due x then ((Keyed.get Messages.msgid outboundMsgs x).map Messages.retry).toList
      else [] := by
  have key (m : Messages μ) : m.retry.msgid = m.msgid := by
    unfold Messages.retry
    split <;> rfl
  have none (l : List (Messages μ)) (hl : ∀ m ∈ l, m.msgid ≠ x) :
      (retries l due).filter (·.msgid = x) = [] := by
    rw [List.filter_eq_nil_iff]
    intro f hf
    obtain ⟨m, hm, rfl⟩ := List.mem_map.1 hf
    simpa [key] using hl m (List.mem_of_mem_filter hm)
  cases hget : Keyed.get Messages.msgid outboundMsgs x with
  | none => simp [none _ (Keyed.get_eq_none_iff.1 hget)]
  | some m =>
    obtain ⟨l₁, l₂, rfl, before, behind⟩ := Keyed.split h hget
    obtain ⟨-, hm⟩ := Keyed.get_mem hget
    have whole : retries (l₁ ++ m :: l₂) due =
        retries l₁ due ++ (retries [m] due ++ retries l₂ due) := by
      simp only [retries, ← List.map_append, ← List.filter_append, List.singleton_append]
    rw [whole, List.filter_append, List.filter_append, none l₁ before, none l₂ behind]
    cases hdue : due x <;> simp [retries, hm, hdue, key]

theorem view_sendAgain {s : Link μ} (distinct : Keyed.Distinct Messages.msgid s.outboundMsgs)
    (due : ℕ → Bool) (connected : Bool) (x : ℕ) :
    Local x (s.view x) (Link.view { s with
      connected := connected, forward := s.forward ++ retries s.outboundMsgs due } x) := by
  have sent := retries_filter distinct due x
  have kept := Local.same (x := x) (v := s.view x)
  cases hget : Keyed.get Messages.msgid s.outboundMsgs x with
  | none => simpa [Link.view, sent, hget] using kept
  | some m =>
    cases hdue : due x with
    | false => simpa [Link.view, sent, hget, hdue] using kept
    | true =>
      have moved := Local.again (x := x) (v := s.view x) m hget
      simpa [Link.view, sent, hget, hdue] using moved

theorem Link.Inv.sendAgain {s : Link μ} (h : s.Inv) (due : ℕ → Bool) (connected : Bool)
    (online : connected = true) :
    let s' : Link μ := { s with
      connected := connected, forward := s.forward ++ retries s.outboundMsgs due }
    s'.Inv ∧ Conserves s s' [] [] :=
  ⟨⟨h.responses, h.ids, h.isMsgId, h.last, h.inbound,
    fun x => (h.phase x).local (view_sendAgain h.distinct due connected x),
    offline_of_online online⟩, .silent rfl rfl rfl rfl⟩

theorem Link.Inv.broken {s : Link μ} (h : s.Inv) :
    let s' : Link μ :=
      { s with connected := false, disconnecting := false, forward := [], answers := [] }
    s'.Inv ∧ Conserves s s' [] [] :=
  ⟨⟨h.responses, h.ids, h.isMsgId, h.last, h.inbound, fun x => (h.phase x).lose,
    fun _ => ⟨rfl, rfl⟩⟩, .silent rfl rfl rfl rfl⟩

theorem Link.Inv.queued {s : Link μ} (h : s.Inv) :
    let s' : Link μ := { s with disconnecting := true }
    s'.Inv ∧ Conserves s s' [] [] :=
  ⟨⟨h.responses, h.ids, h.isMsgId, h.last, h.inbound, h.phase, h.offline⟩,
    .silent rfl rfl rfl rfl⟩

/-- Where a message is sent, its id is fresh. -/
def LinkOp.Fresh (s : Link μ) : LinkOp μ → Prop
  | .send _ => s.Fresh
  | _ => True

instance (s : Link μ) (op : LinkOp μ) : Decidable (op.Fresh s) :=
  match op with
  | .send _ => inferInstanceAs (Decidable s.Fresh)
  | .process _ | .receive | .answered | .retry _ | .disconnectInternal | .disconnect _
  | .connect _ => inferInstanceAs (Decidable True)

/-- The messages are conserved by a step, or thrown away with their session. -/
theorem Link.Inv.step {s s' : Link μ} (h : s.Inv) {op : LinkOp μ} {outs : List (LinkOut μ)}
    (fresh : op.Fresh s) (taken : linkStep s op = .ok (s', outs)) :
    s'.Inv ∧ ((∃ quiet, Conserves s s' outs quiet) ∨
      op = .disconnect true ∧ s' = initLink ∧
        outs = (s.commands.map Prod.snd ++ s.outboundMsgs.map Messages.publish).map .cleaned) := by
  have conserved {t : Link μ} {outs : List (LinkOut μ)} {quiet : List μ}
      (kept : t.Inv ∧ Conserves s t outs quiet) :
      t.Inv ∧ ((∃ quiet, Conserves s t outs quiet) ∨
        op = .disconnect true ∧ t = initLink ∧
          outs = (s.commands.map Prod.snd ++ s.outboundMsgs.map Messages.publish).map .cleaned) :=
    ⟨kept.1, .inl ⟨quiet, kept.2⟩⟩
  cases linkStep_happens taken with
  | refused p => exact conserved ⟨h, .silent rfl rfl rfl rfl⟩
  | accepted p online assigned nonzero => exact conserved (h.send fresh p assigned nonzero)
  | process head online going room => exact conserved (h.process head online)
  | unwritten head online => exact conserved (h.unwritten head online)
  | publish head => exact conserved (h.receivePublish head)
  | pubrel head => exact conserved (h.receivePubrel head)
  | pubrec head => exact conserved (h.answeredPubrec head)
  | pubcomp head => exact (h.answeredPubcomp head).imp_right .inl
  | retry due online => exact conserved (h.sendAgain due s.connected online)
  | queued => exact conserved h.queued
  | broken => exact conserved h.broken
  | cleaned => exact ⟨initLink_inv, .inr ⟨rfl, rfl, rfl⟩⟩
  | connect due offline =>
    have resent := h.sendAgain due true rfl
    rw [(h.offline offline).1, List.nil_append] at resent
    exact conserved resent

/-! ### Whole runs -/

/-- The messages of one kind of output, in order. -/
def collect (f : LinkOut μ → Option μ) (tr : List (LinkMove μ)) : List μ :=
  (tr.flatMap Move.outs).filterMap f

theorem collect_concat (f : LinkOut μ → Option μ) (tr : List (LinkMove μ)) (m : LinkMove μ) :
    collect f (tr ++ [m]) = collect f tr ++ m.outs.filterMap f := by
  simp [collect]

/-- Every message that was accepted was delivered, is still to be delivered or was dropped with its
session, and every message that was delivered is known to be complete, will be or was forgotten with
its session, but for `quiet`, of which the application was told that they have failed.  It is told
once of a message that is not thrown away. -/
structure Balanced (tr : List (LinkMove μ)) (s : Link μ) (dropped forgotten quiet : List μ) :
    Prop where
  cleaned : (dropped ++ forgotten).Perm (collect LinkOut.cleaned? tr)
  accepted : (collect LinkOut.accepted? tr).Perm
    (collect LinkOut.delivered? tr ++ s.undelivered ++ dropped)
  delivered : (collect LinkOut.delivered? tr).Perm
    (collect LinkOut.completed? tr ++ quiet ++ s.unconfirmed ++ forgotten)
  failed : (quiet ++ s.unwritten).Subperm (collect LinkOut.failed? tr)
  told : ∃ untold, untold.Subperm (collect LinkOut.cleaned? tr) ∧
    (collect LinkOut.accepted? tr).Perm
      (collect LinkOut.completed? tr ++ collect LinkOut.failed? tr ++ s.waiting ++ untold)

theorem Balanced.conserve {tr : List (LinkMove μ)} {m : LinkMove μ}
    {dropped forgotten quiet more : List μ} (h : Balanced tr m.pre dropped forgotten quiet)
    (conserves : Conserves m.pre m.post m.outs more) :
    Balanced (tr ++ [m]) m.post dropped forgotten (quiet ++ more) := by
  classical
  obtain ⟨hu, hc, hf, hw, hclean⟩ := conserves
  obtain ⟨cleaned, accepted, delivered, failed, untold, part, told⟩ := h
  rw [List.perm_iff_count] at hu hc hf hw accepted delivered told
  rw [List.subperm_iff_count] at failed
  refine ⟨?_, ?_, ?_, ?_, untold, ?_, ?_⟩
  · rwa [collect_concat, hclean, List.append_nil]
  · rw [List.perm_iff_count]
    intro a
    have hu := hu a
    have accepted := accepted a
    simp only [collect_concat, List.count_append] at *
    omega
  · rw [List.perm_iff_count]
    intro a
    have hc := hc a
    have delivered := delivered a
    simp only [collect_concat, List.count_append] at *
    omega
  · rw [List.subperm_iff_count]
    intro a
    have hf := hf a
    have failed := failed a
    simp only [collect_concat, List.count_append] at *
    omega
  · rwa [collect_concat, hclean, List.append_nil]
  · rw [List.perm_iff_count]
    intro a
    have hw := hw a
    have told := told a
    simp only [collect_concat, List.count_append] at *
    omega

theorem Link.messages_perm (s : Link μ) :
    (s.outboundMsgs.map Messages.publish).Perm
      ((s.outboundMsgs.filter s.holds).map Messages.publish ++ s.unconfirmed) := by
  rw [Link.unconfirmed, ← List.map_append]
  exact (List.filter_append_perm s.holds s.outboundMsgs).symm.map _

theorem Balanced.clean {tr : List (LinkMove μ)} {m : LinkMove μ} {dropped forgotten quiet : List μ}
    (h : Balanced tr m.pre dropped forgotten quiet) (inv : m.pre.Inv) (hpost : m.post = initLink)
    (houts : m.outs =
      (m.pre.commands.map Prod.snd ++ m.pre.outboundMsgs.map Messages.publish).map .cleaned) :
    Balanced (tr ++ [m]) m.post (dropped ++ m.pre.undelivered)
      (forgotten ++ m.pre.unconfirmed) quiet := by
  classical
  have none (f : LinkOut μ → Option μ) (hf : ∀ p, f (.cleaned p) = none) :
      m.outs.filterMap f = [] := by
    rw [houts, List.filterMap_map, List.filterMap_eq_nil_iff]
    exact fun p _ => hf p
  have all : m.outs.filterMap LinkOut.cleaned? =
      m.pre.commands.map Prod.snd ++ m.pre.outboundMsgs.map Messages.publish := by
    rw [houts, List.filterMap_map]
    exact List.filterMap_some
  have messages := m.pre.messages_perm
  have responses : (m.pre.responses.map Prod.snd).Subperm
      (m.pre.outboundMsgs.map Messages.publish) := by
    have sub := (inv.responses.map Prod.snd).subperm
    rwa [List.map_map] at sub
  have empty : m.post.undelivered = [] ∧ m.post.unconfirmed = [] ∧ m.post.unwritten = [] ∧
      m.post.waiting = [] := by
    rw [hpost]
    exact ⟨rfl, rfl, rfl, rfl⟩
  obtain ⟨cleaned, accepted, delivered, failed, untold, part, told⟩ := h
  rw [List.perm_iff_count] at cleaned accepted delivered messages told
  rw [List.subperm_iff_count] at failed part responses
  refine ⟨?_, ?_, ?_, ?_, untold ++ m.pre.waiting, ?_, ?_⟩
  · rw [List.perm_iff_count]
    intro a
    have cleaned := cleaned a
    have messages := messages a
    simp only [collect_concat, all, List.count_append, Link.undelivered] at *
    omega
  · rw [List.perm_iff_count]
    intro a
    have accepted := accepted a
    simp only [collect_concat, none LinkOut.accepted? fun _ => rfl,
      none LinkOut.delivered? fun _ => rfl, empty.1, List.count_append, List.append_nil] at *
    omega
  · rw [List.perm_iff_count]
    intro a
    have delivered := delivered a
    simp only [collect_concat, none LinkOut.completed? fun _ => rfl,
      none LinkOut.delivered? fun _ => rfl, empty.2.1, List.count_append, List.append_nil] at *
    omega
  · rw [List.subperm_iff_count]
    intro a
    have failed := failed a
    simp only [collect_concat, none LinkOut.failed? fun _ => rfl, empty.2.2.1, List.count_append,
      List.append_nil] at *
    omega
  · rw [List.subperm_iff_count]
    intro a
    have part := part a
    have responses := responses a
    simp only [collect_concat, all, List.count_append, Link.waiting] at *
    omega
  · rw [List.perm_iff_count]
    intro a
    have told := told a
    simp only [collect_concat, none LinkOut.accepted? fun _ => rfl,
      none LinkOut.completed? fun _ => rfl, none LinkOut.failed? fun _ => rfl, empty.2.2.2,
      List.count_append, List.append_nil] at *
    omega

/-- The two ends are in order, and the messages balance. -/
def Settled (tr : List (LinkMove μ)) (s : Link μ) : Prop :=
  s.Inv ∧ ∃ dropped forgotten quiet, Balanced tr s dropped forgotten quiet

theorem Settled.concat {tr : List (LinkMove μ)} {m : LinkMove μ} (h : Settled tr m.pre)
    (fresh : m.input.Fresh m.pre) (taken : linkStep m.pre m.input = .ok (m.post, m.outs)) :
    Settled (tr ++ [m]) m.post := by
  obtain ⟨inv, dropped, forgotten, quiet, balanced⟩ := h
  obtain ⟨inv', ⟨more, conserves⟩ | ⟨-, hpost, houts⟩⟩ := inv.step fresh taken
  · exact ⟨inv', dropped, forgotten, _, balanced.conserve conserves⟩
  · exact ⟨inv', _, _, quiet, balanced.clean inv hpost houts⟩

theorem linkTrace_settled {ops : List (LinkOp μ)} {p q : List (LinkMove μ)}
    (split : linkTrace ops = p ++ q) (fresh : ∀ m ∈ p, m.input.Fresh m.pre) :
    Settled p (final initLink p) := by
  have start : Settled ([] : List (LinkMove μ)) initLink :=
    ⟨initLink_inv, [], [], [], .refl _, .refl _, .refl _, .refl _, [], .refl _, .refl _⟩
  have settled : (∀ m ∈ p, m.input.Fresh m.pre) → Settled p (final initLink p) := by
    refine trace_history (fun tr s => (∀ m ∈ tr, m.input.Fresh m.pre) → Settled tr s)
      (fun _ => start) (fun tr m _ h taken fresh => ?_) split
    have before := h fun m' mem => fresh m' (List.mem_append_left _ mem)
    exact before.concat (fresh m (by simp)) taken
  exact settled fresh

/-- Every message in `outboundMsgs` has a response. -/
def Link.Whole (s : Link μ) : Prop := s.responses = s.outboundMsgs.map Messages.response

/-- Then `MQTTAsync_assignMsgId` sees all ids. -/
theorem Link.Whole.fresh {s : Link μ} (h : s.Whole) (inv : s.Inv) : s.Fresh := by
  rintro ⟨msgid, last⟩ assigned mem
  have isId := inv.isMsgId msgid (List.mem_append_right _ mem)
  have nonzero : msgid ≠ 0 := Nat.one_le_iff_ne_zero.1 isId.1
  obtain ⟨-, -, unused⟩ := assignMsgId_fresh inv.last (Nat.le_refl _) assigned nonzero
  apply unused
  apply List.mem_append_right
  rwa [h, List.map_map]

/-- It stays so as long as PUBLISH is written. -/
theorem Link.Whole.step {s s' : Link μ} (h : s.Whole) (inv : s.Inv) {op : LinkOp μ}
    {outs : List (LinkOut μ)} (happens : Happens s op s' outs) (written : op ≠ .process true) :
    s'.Whole := by
  cases happens with
  | unwritten => exact absurd rfl written
  | @process msgid p commands =>
    show s.responses ++ [(msgid, p)] = _
    rw [h, List.map_append]
    rfl
  | @pubrec x answers head =>
    refine Eq.trans h ?_
    unfold handlePubrecs
    cases Keyed.get Messages.msgid s.outboundMsgs x with
    | none => rfl
    | some m =>
      dsimp only
      split_ifs
      · rfl
      · exact (Keyed.map_modifyFirst release_response x _).symm
  | @pubcomp x answers head =>
    have mine := inv.phase x
    simp only [Link.view, head, List.filter_cons_of_pos, Answer.msgid_pubcomp, decide_true] at mine
    obtain ⟨p, hout, -, -, -⟩ := mine.pubcomp
    show Keyed.erase Prod.fst s.responses x = _
    rw [h, Keyed.erase_map response_fst]
    simp [handlePubcomps, hout]
  | cleaned => rfl
  | _ => exact h

/-- As long as PUBLISH is written, every id is fresh. -/
theorem linkTrace_fresh {ops : List (LinkOp μ)} (written : .process true ∉ ops) :
    ∀ m ∈ linkTrace ops, m.input.Fresh m.pre := by
  intro m mem
  obtain ⟨p, q, split⟩ := List.append_of_mem mem
  have whole : (final initLink p).Inv ∧ (final initLink p).Whole := by
    refine trace_history (fun _ s => s.Inv ∧ s.Whole) ⟨initLink_inv, rfl⟩
      (fun _ m' mem' h taken => ?_) split
    obtain ⟨inv, whole⟩ := h
    have fresh : m'.input.Fresh m'.pre := by
      cases m'.input with
      | send p => exact whole.fresh inv
      | _ => trivial
    refine ⟨(inv.step fresh taken).1, whole.step inv (linkStep_happens taken) ?_⟩
    exact fun failed => written (failed ▸ trace_input_mem mem')
  rw [(trace_split split).1]
  cases m.input with
  | send p => exact whole.2.fresh whole.1
  | _ => trivial

/-- For all runs of the two ends, with any breaks of the connection, with clean sessions or without,
with any writes that fail, and with anything sent again at any time, in which no message is given
the id of one in `outboundMsgs`: as multisets, the messages accepted are those delivered, those
still to be delivered and some that were thrown away with a session; the messages delivered are
those of which the application knows, those of which it will be told, the others that were thrown
away and some of which it was told that they have failed; and it was told once, that they are
complete or that they have failed, of all messages but those that wait for it and some that were
thrown away.  No message is delivered twice, and none is complete without it. -/
theorem qos2_exactly_once (ops : List (LinkOp μ)) :
    ∀ p q, linkTrace ops = p ++ q → (∀ m ∈ p, m.input.Fresh m.pre) →
      ∃ dropped forgotten quiet untold,
        (dropped ++ forgotten).Perm (collect LinkOut.cleaned? p) ∧
        (collect LinkOut.accepted? p).Perm
          (collect LinkOut.delivered? p ++ (final initLink p).undelivered ++ dropped) ∧
        (collect LinkOut.delivered? p).Perm
          (collect LinkOut.completed? p ++ quiet ++ (final initLink p).unconfirmed ++ forgotten) ∧
        quiet.Subperm (collect LinkOut.failed? p) ∧
        (collect LinkOut.accepted? p).Perm
          (collect LinkOut.completed? p ++ collect LinkOut.failed? p ++
            (final initLink p).waiting ++ untold) ∧
        untold.Subperm (collect LinkOut.cleaned? p) := by
  intro p q split fresh
  obtain ⟨-, dropped, forgotten, quiet, balanced⟩ := linkTrace_settled split fresh
  obtain ⟨untold, part, told⟩ := balanced.told
  have failed : quiet.Subperm (collect LinkOut.failed? p) :=
    (List.sublist_append_left _ _).subperm.trans balanced.failed
  exact ⟨dropped, forgotten, quiet, untold, balanced.cleaned, balanced.accepted, balanced.delivered,
    failed, told, part⟩

/-- A message is published and handed over; PUBCOMP is under way. -/
def sampleLinkOps : List (LinkOp ℕ) :=
  [.connect fun _ => true, .send 7, .process false, .receive, .answered, .receive]

/-- The first write of a message fails; it is sent when the session goes on, and is delivered and
complete without the application being told. -/
def unwrittenOps : List (LinkOp ℕ) :=
  [.connect fun _ => true, .send 7, .process true, .disconnect false, .connect fun _ => true,
    .receive, .answered, .receive, .answered]

theorem qos2_exactly_once_sample :
    collect LinkOut.failed? (linkTrace unwrittenOps) = [7] ∧
      collect LinkOut.delivered? (linkTrace unwrittenOps) = [7] ∧
      collect LinkOut.completed? (linkTrace unwrittenOps) = [] ∧
      ∃ dropped forgotten quiet untold,
        (dropped ++ forgotten).Perm (collect LinkOut.cleaned? (linkTrace unwrittenOps)) ∧
        (collect LinkOut.accepted? (linkTrace unwrittenOps)).Perm
          (collect LinkOut.delivered? (linkTrace unwrittenOps) ++
            (final initLink (linkTrace unwrittenOps)).undelivered ++ dropped) ∧
        (collect LinkOut.delivered? (linkTrace unwrittenOps)).Perm
          (collect LinkOut.completed? (linkTrace unwrittenOps) ++ quiet ++
            (final initLink (linkTrace unwrittenOps)).unconfirmed ++ forgotten) ∧
        quiet.Subperm (collect LinkOut.failed? (linkTrace unwrittenOps)) ∧
        (collect LinkOut.accepted? (linkTrace unwrittenOps)).Perm
          (collect LinkOut.completed? (linkTrace unwrittenOps) ++
            collect LinkOut.failed? (linkTrace unwrittenOps) ++
            (final initLink (linkTrace unwrittenOps)).waiting ++ untold) ∧
        untold.Subperm (collect LinkOut.cleaned? (linkTrace unwrittenOps)) :=
  ⟨rfl, rfl, rfl,
    qos2_exactly_once unwrittenOps _ [] (List.append_nil _).symm (by decide +kernel)⟩

end Siproxy.Mqtt
