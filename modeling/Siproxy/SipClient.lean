import Siproxy.Sessions

/-!
# The event handler and the SIP client

The SIP client runs beside the event handler.  Calls are set up in it by an incoming invitation or
by `sip_make_call`, end at the far side or by `sip_hangup_call`, and for each call that has ended it
reports `EVT_SIP_DISCONNCTD` once, at some later moment.  All events pass through one queue, and the
steps of the client, of the other producers and of the handler interleave in any order.

Events carry no call identity; the queue entries here carry it as a ghost (`Queued.call`).
`teardown_own`: as long as no SIP call is set up while an earlier one is still outstanding, a
session is torn down only by the end of its own SIP call.
-/

namespace Siproxy

open CString Machine

variable {localtime : ℕ → Tm}

/-- An entry of `events_queue`, with the SIP call it is about. -/
structure Queued where
  inp : Input
  call : Option ℕ
  deriving DecidableEq

/-- The calls of the SIP client. -/
structure Client where
  /-- Set up and not ended. -/
  live : List ℕ
  /-- Ended, and the end not reported yet. -/
  ended : List ℕ
  /-- The number of the next call. -/
  next : ℕ
  /-- The SIP call of the session started last. -/
  own : Option ℕ
  deriving DecidableEq

/-- The event handler, its queue and the SIP client. -/
structure System where
  ctrl : SiproxyCtrl
  queue : List Queued
  client : Client
  deriving DecidableEq

def initSystem (sipPeer : CStr) (uartFd : ℤ) : System :=
  ⟨initCtrl sipPeer uartFd, [], ⟨[], [], 0, none⟩⟩

/-- What the SIP client does with an output of the handler; `call` is the call that the event being
handled is about.  `hA` hangs up all calls. -/
def react (call : Option ℕ) (s : Client) : Output → Client
  | .sipMakeCall _ => { s with live := s.live ++ [s.next], next := s.next + 1, own := some s.next }
  | .sipAnswerCall => { s with own := call }
  | .sipHangupCall => { s with live := [], ended := s.ended ++ s.live }
  | _ => s

/-- The steps of the parties. -/
inductive Action where
  /-- A producer queues an event that is not about the beginning or the end of a SIP call. -/
  | post (inp : Input)
  /-- A SIP call comes in. -/
  | ring (inp : Input)
  /-- The client announces a live call once more. -/
  | ringAgain (inp : Input) (call : ℕ)
  /-- A call ends at the far side. -/
  | hangup (call : ℕ)
  /-- The client reports the end of a call. -/
  | report (inp : Input) (call : ℕ)
  /-- The handler thread takes the oldest event. -/
  | handle
  deriving DecidableEq

/-- One step of the system; an action that is not possible halts the run. -/
def systemStep (localtime : ℕ → Tm) (s : System) : Action → Except Unit (System × List Output)
  | .post inp =>
    if inp.evt.event = .sipIncoming ∨ inp.evt.event = .sipDisconnctd then .error ()
    else .ok ({ s with queue := s.queue ++ [⟨inp, none⟩] }, [])
  | .ring inp =>
    if inp.evt.event = .sipIncoming then
      .ok ({ s with
              queue := s.queue ++ [⟨inp, some s.client.next⟩]
              client := { s.client with
                live := s.client.live ++ [s.client.next], next := s.client.next + 1 } }, [])
    else .error ()
  | .ringAgain inp call =>
    if inp.evt.event = .sipIncoming ∧ call ∈ s.client.live then
      .ok ({ s with queue := s.queue ++ [⟨inp, some call⟩] }, [])
    else .error ()
  | .hangup call =>
    if call ∈ s.client.live then
      .ok ({ s with
              client := { s.client with
                live := s.client.live.erase call, ended := s.client.ended ++ [call] } }, [])
    else .error ()
  | .report inp call =>
    if inp.evt.event = .sipDisconnctd ∧ call ∈ s.client.ended then
      .ok ({ s with
              queue := s.queue ++ [⟨inp, some call⟩]
              client := { s.client with ended := s.client.ended.erase call } }, [])
    else .error ()
  | .handle =>
    match s.queue with
    | [] => .error ()
    | q :: rest =>
      match step localtime s.ctrl q.inp with
      | .error _ => .error ()
      | .ok (c, outs) => .ok (⟨c, rest, outs.foldl (react q.call) s.client⟩, outs)

/-- A recorded step of the system. -/
abbrev SystemMove := Move System Action Output

abbrev systemTrace (localtime : ℕ → Tm) (sipPeer : CStr) (uartFd : ℤ) (acts : List Action) :
    List SystemMove :=
  trace (systemStep localtime) (initSystem sipPeer uartFd) acts

/-! ### The property and its condition -/

/-- The call whose end a queue entry reports. -/
def Queued.ends (q : Queued) : Option ℕ :=
  if q.inp.evt.event = .sipDisconnctd then q.call else none

/-- The SIP calls whose end has not been handled yet. -/
def System.outstanding (s : System) : List ℕ :=
  s.client.live ++ s.client.ended ++ s.queue.filterMap Queued.ends

/-- A session that is torn down by an `EVT_SIP_DISCONNCTD` is torn down by that of its own call. -/
def TeardownOwn (m : SystemMove) : Prop :=
  ∀ q ∈ m.pre.queue.head?, q.inp.evt.event = .sipDisconnctd →
    .modemHangupCall m.pre.ctrl.uartFd ∈ m.outs → q.call ≠ none ∧ m.pre.client.own = q.call

instance : DecidablePred TeardownOwn := fun m =>
  inferInstanceAs (Decidable (∀ q ∈ m.pre.queue.head?, _))

def Action.isRing : Action → Bool
  | .ring _ => true
  | _ => false

/-- The step sets up a SIP call: one comes in, or the handler meets a `+CLIP` in `INIT`. -/
def SetsUpCall (m : SystemMove) : Prop :=
  m.input.isRing = true ∨ (m.input = .handle ∧ m.pre.ctrl.state = .init ∧
    ∃ q ∈ m.pre.queue.head?, q.inp.evt.event = .modemClip)

/-- A SIP call is set up while an earlier one is outstanding. -/
def Overlaps (m : SystemMove) : Prop := SetsUpCall m ∧ m.pre.outstanding ≠ []

instance : DecidablePred Overlaps := fun m =>
  inferInstanceAs (Decidable ((m.input.isRing = true ∨ (m.input = .handle ∧
    m.pre.ctrl.state = .init ∧ ∃ q ∈ m.pre.queue.head?, q.inp.evt.event = .modemClip)) ∧
    m.pre.outstanding ≠ []))

/-! ### The invariant -/

/-- Every queued invitation is about a call whose end has not been handled when it is its turn. -/
def Announced (pool : List ℕ) : List Queued → Prop
  | [] => True
  | q :: qs => (q.inp.evt.event = .sipIncoming →
      ∃ call, q.call = some call ∧ call ∈ pool ++ qs.filterMap Queued.ends) ∧ Announced pool qs

/-- Queueing an entry; a call may leave the pool when its end is queued. -/
theorem Announced.concat {pool pool' : List ℕ} {qs : List Queued} {q : Queued}
    (h : Announced pool qs) (sub : ∀ x ∈ pool, x ∈ pool' ∨ q.ends = some x)
    (hq : q.inp.evt.event = .sipIncoming → ∃ call, q.call = some call ∧ call ∈ pool') :
    Announced pool' (qs ++ [q]) := by
  induction qs with
  | nil => exact ⟨by simpa using hq, trivial⟩
  | cons x qs ih =>
    refine ⟨fun hx => ?_, ih h.2⟩
    obtain ⟨call, hcall, hmem⟩ := h.1 hx
    refine ⟨call, hcall, ?_⟩
    change call ∈ pool' ++ (qs ++ [q]).filterMap Queued.ends
    rcases List.mem_append.1 hmem with hmem | hmem
    · rcases sub call hmem with hmem | hends
      · simp [hmem]
      · simp [hends]
    · rw [List.filterMap_append]
      simp only [List.mem_append, hmem, true_or, or_true]

theorem Announced.subset {pool pool' : List ℕ} {qs : List Queued} (h : Announced pool qs)
    (sub : ∀ x ∈ pool, x ∈ pool') : Announced pool' qs := by
  induction qs with
  | nil => trivial
  | cons x qs ih =>
    refine ⟨fun hx => ?_, ih h.2⟩
    obtain ⟨call, hcall, hmem⟩ := h.1 hx
    refine ⟨call, hcall, ?_⟩
    rcases List.mem_append.1 hmem with hmem | hmem
    · simp [sub call hmem]
    · simp [hmem]

/-- What holds in every run without overlapping calls. -/
structure OneCall (s : System) : Prop where
  shape : Shape s.ctrl
  one : s.outstanding.length ≤ 1
  owned : s.ctrl.Active → ∃ call, s.client.own = some call ∧ call ∈ s.outstanding
  announced : Announced (s.client.live ++ s.client.ended) s.queue
  /-- A queued end is the end of some call. -/
  tagged : ∀ q ∈ s.queue, q.inp.evt.event = .sipDisconnctd → ∃ call, q.call = some call

theorem oneCall_initSystem (sipPeer : CStr) (uartFd : ℤ) : OneCall (initSystem sipPeer uartFd) where
  shape := shape_initCtrl sipPeer uartFd
  one := by simp [System.outstanding, initSystem]
  owned := fun h => absurd h (not_active_of_init rfl)
  announced := trivial
  tagged := by simp [initSystem]

theorem tagged_concat {qs : List Queued} {q : Queued}
    (h : ∀ q ∈ qs, q.inp.evt.event = .sipDisconnctd → ∃ call, q.call = some call)
    (hq : q.inp.evt.event = .sipDisconnctd → ∃ call, q.call = some call) :
    ∀ q' ∈ qs ++ [q], q'.inp.evt.event = .sipDisconnctd → ∃ call, q'.call = some call := by
  intro q' hmem
  rcases List.mem_append.1 hmem with hmem | hmem
  · exact h q' hmem
  · rw [List.mem_singleton.1 hmem]
    exact hq

theorem OneCall.post {s : System} (h : OneCall s) {inp : Input}
    (hin : inp.evt.event ≠ .sipIncoming) (hout : inp.evt.event ≠ .sipDisconnctd) :
    OneCall { s with queue := s.queue ++ [⟨inp, none⟩] } := by
  have same : ({ s with queue := s.queue ++ [⟨inp, none⟩] } : System).outstanding =
      s.outstanding := by
    simp [System.outstanding, Queued.ends]
  refine ⟨h.shape, same ▸ h.one, fun ha => same ▸ h.owned ha, ?_,
    tagged_concat h.tagged fun he => absurd he hout⟩
  exact h.announced.concat (fun x hx => .inl hx) fun he => absurd he hin

theorem OneCall.ring {s : System} (h : OneCall s) {inp : Input}
    (he : inp.evt.event = .sipIncoming) (free : s.outstanding = []) :
    OneCall { s with
      queue := s.queue ++ [⟨inp, some s.client.next⟩]
      client := { s.client with
        live := s.client.live ++ [s.client.next], next := s.client.next + 1 } } := by
  have idle : ¬ s.ctrl.Active := by
    intro ha
    obtain ⟨call, -, hmem⟩ := h.owned ha
    simp [free] at hmem
  simp only [System.outstanding, List.append_eq_nil_iff] at free
  refine ⟨h.shape, ?_, fun ha => absurd ha idle, ?_, tagged_concat h.tagged fun _ => ⟨_, rfl⟩⟩
  · simp [System.outstanding, free, Queued.ends, he]
  · exact h.announced.concat (fun x hx => by simp [free] at hx) fun _ => ⟨_, rfl, by simp⟩

theorem OneCall.ringAgain {s : System} (h : OneCall s) {inp : Input} {call : ℕ}
    (he : inp.evt.event = .sipIncoming) (hlive : call ∈ s.client.live) :
    OneCall { s with queue := s.queue ++ [⟨inp, some call⟩] } := by
  have same : ({ s with queue := s.queue ++ [⟨inp, some call⟩] } : System).outstanding =
      s.outstanding := by
    simp [System.outstanding, Queued.ends, he]
  refine ⟨h.shape, same ▸ h.one, fun ha => same ▸ h.owned ha, ?_,
    tagged_concat h.tagged fun _ => ⟨_, rfl⟩⟩
  exact h.announced.concat (fun x hx => .inl hx) fun _ => ⟨call, rfl, by simp [hlive]⟩

/-- Moving calls between the lists keeps the invariant. -/
theorem OneCall.perm {s t : System} (h : OneCall s) (hctrl : t.ctrl = s.ctrl)
    (hown : t.client.own = s.client.own) (hperm : t.outstanding.Perm s.outstanding)
    (hann : Announced (t.client.live ++ t.client.ended) t.queue)
    (htag : ∀ q ∈ t.queue, q.inp.evt.event = .sipDisconnctd → ∃ call, q.call = some call) :
    OneCall t := by
  refine ⟨hctrl ▸ h.shape, hperm.length_eq ▸ h.one, fun ha => ?_, hann, htag⟩
  obtain ⟨call, hcall, hmem⟩ := h.owned (hctrl ▸ ha)
  exact ⟨call, hown ▸ hcall, hperm.mem_iff.2 hmem⟩

theorem erase_append_perm {l r : List ℕ} {x : ℕ} (h : x ∈ l) :
    (l.erase x ++ (r ++ [x])).Perm (l ++ r) := by
  have : (l.erase x ++ (r ++ [x])).Perm (x :: l.erase x ++ r) := by
    rw [← List.append_assoc]
    exact List.perm_append_singleton x _
  exact this.trans ((List.perm_cons_erase h).symm.append_right r)

theorem OneCall.hangup {s : System} (h : OneCall s) {call : ℕ} (hlive : call ∈ s.client.live) :
    OneCall { s with
      client := { s.client with
        live := s.client.live.erase call, ended := s.client.ended ++ [call] } } := by
  have pool := erase_append_perm (r := s.client.ended) hlive
  refine h.perm rfl rfl (pool.append_right _) (h.announced.subset fun x hx => ?_) h.tagged
  exact pool.mem_iff.2 hx

theorem OneCall.report {s : System} (h : OneCall s) {inp : Input} {call : ℕ}
    (he : inp.evt.event = .sipDisconnctd) (hended : call ∈ s.client.ended) :
    OneCall { s with
      queue := s.queue ++ [⟨inp, some call⟩]
      client := { s.client with ended := s.client.ended.erase call } } := by
  have hq : (Queued.mk inp (some call)).ends = some call := by simp [Queued.ends, he]
  refine h.perm rfl rfl ?_ (h.announced.concat (fun x hx => ?_) fun hin => by simp [he] at hin)
    (tagged_concat h.tagged fun _ => ⟨_, rfl⟩)
  · have moved := erase_append_perm (r := s.queue.filterMap Queued.ends) hended
    simp only [System.outstanding, List.filterMap_append, List.filterMap_cons, hq,
      List.filterMap_nil, List.append_assoc]
    exact moved.append_left _
  · rcases List.mem_append.1 hx with hx | hx
    · exact .inl (List.mem_append_left _ hx)
    · by_cases hxc : x = call
      · exact .inr (by rw [hq, hxc])
      · exact .inl (List.mem_append_right _ ((List.mem_erase_of_ne hxc).2 hx))

/-! ### The handler's step -/

theorem outstanding_pop {c c' : SiproxyCtrl} {q : Queued} {rest : List Queued} {client : Client}
    (hq : q.inp.evt.event ≠ .sipDisconnctd) :
    (System.mk c (q :: rest) client).outstanding = (System.mk c' rest client).outstanding := by
  simp [System.outstanding, Queued.ends, hq]

theorem outstanding_pop_sublist {c c' : SiproxyCtrl} {q : Queued} {rest : List Queued}
    {client : Client} :
    ((System.mk c' rest client).outstanding).Sublist
      (System.mk c (q :: rest) client).outstanding := by
  unfold System.outstanding
  exact (List.Sublist.refl _).append ((List.sublist_cons_self q rest).filterMap _)

theorem OneCall.handle {c c' : SiproxyCtrl} {q : Queued} {rest : List Queued} {client : Client}
    {outs : List Output} (h : OneCall ⟨c, q :: rest, client⟩)
    (taken : Transition localtime c q.inp c' outs)
    (free : q.inp.evt.event = .modemClip → c.state = .init →
      (System.mk c (q :: rest) client).outstanding = []) :
    OneCall ⟨c', rest, outs.foldl (react q.call) client⟩ := by
  have fewer : (System.mk c' rest client).outstanding.length ≤ 1 :=
    outstanding_pop_sublist.length_le.trans h.one
  have tagged : ∀ q ∈ rest, q.inp.evt.event = .sipDisconnctd → ∃ call, q.call = some call :=
    fun q' hq' => h.tagged q' (List.mem_cons_of_mem _ hq')
  have quiet : ∀ {c'' : SiproxyCtrl}, Shape c'' → (c''.Active → c.Active) →
      q.inp.evt.event ≠ .sipDisconnctd → OneCall ⟨c'', rest, client⟩ := by
    intro c'' hshape hact hq
    refine ⟨hshape, outstanding_pop_sublist.length_le.trans h.one, fun ha => ?_, h.announced.2,
      tagged⟩
    obtain ⟨call, hcall, hmem⟩ := h.owned (hact ha)
    exact ⟨call, hcall, outstanding_pop hq ▸ hmem⟩
  have hshape := taken.shape h.shape
  cases taken with
  | smsIn he => exact quiet hshape id (by simp [he])
  | smsOut he => exact quiet hshape id (by simp [he])
  | store he => exact quiet hshape id (by simp [he])
  | colp he hs => exact quiet hshape (fun _ => .inl hs) (by simp [he])
  | dial he => exact quiet hshape id (by simp [he])
  | answer he hs => exact quiet hshape (fun _ => .inl hs) (by simp [he])
  | idle hi =>
    by_cases hq : q.inp.evt.event = .sipDisconnctd
    · have calm : ¬ c.Active := fun ha => hi.2.2.2.2.2.2.2 ha hq
      exact ⟨hshape, fewer, fun ha => absurd ha calm, h.announced.2, tagged⟩
    · exact quiet hshape id hq
  | ring he hs hd phone hphone hrc =>
    have none := free he hs
    have hq : q.ends = Option.none := by simp [Queued.ends, he]
    simp only [System.outstanding, List.append_eq_nil_iff, List.filterMap_cons, hq] at none
    refine ⟨hshape, ?_, fun _ => ⟨client.next, rfl, ?_⟩, ?_, tagged⟩
    · simp [System.outstanding, react, none]
    · simp [System.outstanding, react]
    · apply h.announced.2.subset
      intro x hx
      simp [none.1] at hx
  | invite he hs hd hm =>
    obtain ⟨call, hcall, hmem⟩ := h.announced.1 he
    exact ⟨hshape, fewer, fun _ => ⟨call, hcall, hmem⟩, h.announced.2, tagged⟩
  | modemEnd he ha =>
    have off : ¬ (endFromModem c).1.Active := not_active_of_init rfl
    have hang : ((endFromModem c).2).foldl (react q.call) client =
        { client with live := [], ended := client.ended ++ client.live } := by
      have dir : c.initDir = .fromSip ∨ c.initDir = .fromModem := h.shape.initDir_of_active ha
      rcases dir with hd | hd <;> simp [endFromModem, react, hd]
    rw [hang]
    refine ⟨hshape, ?_, fun ha => absurd ha off, h.announced.2.subset fun x hx => ?_, tagged⟩
    · refine le_trans (le_of_eq ?_) fewer
      simp only [System.outstanding, List.length_append, List.length_nil]
      omega
    · rcases List.mem_append.1 hx with hx | hx
      · exact List.mem_append_right _ (List.mem_append_right _ hx)
      · exact List.mem_append_right _ (List.mem_append_left _ hx)
  | sipEnd he ha =>
    have off : ¬ (endFromSip c).1.Active := not_active_of_init rfl
    have same : ((endFromSip c).2).foldl (react q.call) client = client := by
      have dir : c.initDir = .fromSip ∨ c.initDir = .fromModem := h.shape.initDir_of_active ha
      rcases dir with hd | hd <;> simp [endFromSip, react, hd]
    rw [same]
    exact ⟨hshape, fewer, fun ha => absurd ha off, h.announced.2, tagged⟩

/-! ### Whole runs -/

theorem systemStep_handle {s s' : System} {outs : List Output}
    (h : systemStep localtime s .handle = .ok (s', outs)) :
    ∃ q rest c', s.queue = q :: rest ∧ Transition localtime s.ctrl q.inp c' outs ∧
      s' = ⟨c', rest, outs.foldl (react q.call) s.client⟩ := by
  simp only [systemStep] at h
  split at h
  · cases h
  · next q rest hq =>
    rcases hs : step localtime s.ctrl q.inp with e | ⟨c', o⟩
    · simp [hs] at h
    · simp only [hs, Except.ok.injEq, Prod.mk.injEq] at h
      obtain ⟨rfl, rfl⟩ := h
      exact ⟨q, rest, c', hq, step_transition hs, rfl⟩

/-- Every step that does not set up a call beside another keeps the invariant. -/
theorem OneCall.step {m : SystemMove} (h : OneCall m.pre) (apart : ¬ Overlaps m)
    (taken : systemStep localtime m.pre m.input = .ok (m.post, m.outs)) : OneCall m.post := by
  have free : SetsUpCall m → m.pre.outstanding = [] := by
    intro hs
    by_contra hne
    exact apart ⟨hs, hne⟩
  rcases m with ⟨s, act, outs, s'⟩
  dsimp only at *
  cases act with
  | post inp =>
    simp only [systemStep] at taken
    split_ifs at taken with he
    cases taken
    exact h.post (fun h => he (.inl h)) fun h => he (.inr h)
  | ring inp =>
    simp only [systemStep] at taken
    split_ifs at taken with he
    cases taken
    exact h.ring he (free (.inl rfl))
  | ringAgain inp call =>
    simp only [systemStep] at taken
    split_ifs at taken with he
    cases taken
    exact h.ringAgain he.1 he.2
  | hangup call =>
    simp only [systemStep] at taken
    split_ifs at taken with he
    cases taken
    exact h.hangup he
  | report inp call =>
    simp only [systemStep] at taken
    split_ifs at taken with he
    cases taken
    exact h.report he.1 he.2
  | handle =>
    obtain ⟨q, rest, c', hq, trans, rfl⟩ := systemStep_handle taken
    rcases s with ⟨c, queue, client⟩
    dsimp only at hq
    subst hq
    exact h.handle trans fun he hs => free (.inr ⟨rfl, hs, q, rfl, he⟩)

theorem systemStep_outs {s s' : System} {act : Action} {outs : List Output}
    (h : systemStep localtime s act = .ok (s', outs)) : act = .handle ∨ outs = [] := by
  cases act with
  | handle => exact .inl rfl
  | _ =>
    simp only [systemStep] at h
    split_ifs at h
    cases h
    exact .inr rfl

/-- With one call outstanding at most, the end that is handled is that of the session's call. -/
theorem OneCall.teardownOwn {m : SystemMove} (h : OneCall m.pre)
    (taken : systemStep localtime m.pre m.input = .ok (m.post, m.outs)) : TeardownOwn m := by
  intro q hhead he hath
  have active : m.pre.ctrl.Active := by
    rcases systemStep_outs taken with hact | hnil
    · rw [hact] at taken
      obtain ⟨q', rest', c', -, trans, -⟩ := systemStep_handle taken
      rcases trans.hangup h.shape with ⟨ha, -⟩ | ⟨-, hquiet⟩
      · exact ha
      · exact absurd (hquiet _ hath) (by simp [Output.isHangup])
    · simp [hnil] at hath
  obtain ⟨call, hcall⟩ := h.tagged q (List.mem_of_mem_head? hhead) he
  have hends : q.ends = some call := by simp [Queued.ends, he, hcall]
  have hmem : call ∈ m.pre.outstanding :=
    List.mem_append_right _ (List.mem_filterMap.2 ⟨q, List.mem_of_mem_head? hhead, hends⟩)
  obtain ⟨own, hown, hmem'⟩ := h.owned active
  obtain ⟨only, honly⟩ := List.length_eq_one_iff.1
    (le_antisymm h.one (List.length_pos_of_mem hmem))
  rw [honly, List.mem_singleton] at hmem hmem'
  exact ⟨by simp [hcall], by rw [hown, hcall, hmem, hmem']⟩

/-- In every run of the handler, the SIP client and the other producers in which no SIP call is set
up while an earlier one is outstanding, a session is torn down by the end of its own call only. -/
theorem teardown_own (localtime : ℕ → Tm) (sipPeer : CStr) (uartFd : ℤ) (acts : List Action)
    (apart : ∀ m ∈ systemTrace localtime sipPeer uartFd acts, ¬ Overlaps m) :
    ∀ m ∈ systemTrace localtime sipPeer uartFd acts, TeardownOwn m := by
  intro m hm
  obtain ⟨p, q, split⟩ := List.append_of_mem hm
  obtain ⟨hpre, taken⟩ := trace_split split
  have before : OneCall (final (initSystem sipPeer uartFd) p) :=
    trace_history (fun _ s => OneCall s) (oneCall_initSystem sipPeer uartFd)
      (fun _ m' hm' h hs => h.step (apart m' hm') hs) split
  exact OneCall.teardownOwn (hpre ▸ before) taken

/-- A call from the modem whose caller gives up, the end of its SIP call after it, and a second call
that ends at the SIP peer. -/
def sampleGivenUp : List Action :=
  [.post sampleClip, .handle, .post (.bare .modemNoCarrier), .handle,
    .report (.bare .sipDisconnctd) 0, .handle, .post sampleClip, .handle, .hangup 1,
    .report (.bare .sipDisconnctd) 1, .handle]

theorem teardown_own_sampleGivenUp :
    (∀ m ∈ systemTrace sampleLocaltime samplePeer 3 sampleGivenUp, ¬ Overlaps m) ∧
      ∀ m ∈ systemTrace sampleLocaltime samplePeer 3 sampleGivenUp, TeardownOwn m :=
  have apart : ∀ m ∈ systemTrace sampleLocaltime samplePeer 3 sampleGivenUp, ¬ Overlaps m := by
    decide
  ⟨apart, teardown_own sampleLocaltime samplePeer 3 sampleGivenUp apart⟩

/-- The next call from the modem comes before the end of the SIP call of the one given up, and is
torn down by it. -/
def sampleLateEnd : List Action :=
  [.post sampleClip, .handle, .post (.bare .modemNoCarrier), .handle, .post sampleClip, .handle,
    .report (.bare .sipDisconnctd) 0, .handle]

theorem not_teardownOwn_lateEnd :
    ¬ ∀ m ∈ systemTrace sampleLocaltime samplePeer 3 sampleLateEnd, TeardownOwn m := by
  decide

end Siproxy
