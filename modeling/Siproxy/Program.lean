import Mathlib.Data.Fintype.EquivFin
import Siproxy.Monitor
import Siproxy.Sessions

/-!
# The threads of the program

The main thread, the thread of the MQTT library and `evt_handler` around `events_queue`.  A producer
is any thread that allocates a `struct evt`, fills it and hands its address to `queue_add`;
`evt_handler` asks for the length of the queue, takes an address if there is one, calls `state` with
the event in memory and frees it.  The threads interleave at the steps of the monitor.

`program_exact`: in every run the handler thread is a run of the machine of `state` on the events
that were queued, in the order of the critical sections of `queue_add`; it never sleeps in
`queue_get`; and every event that was allocated is in the hands of one thread, queued, or lost by a
`queue_add` that returned `ENOMEM`.  `program_drains`: from every state that a run reaches, the
threads can go on until all events that are queued have been handled, or `state` stops the program.
-/

namespace Siproxy

open Heap Machine

variable {ι : Type} [DecidableEq ι] {localtime : ℕ → Tm}

/-- The number of an event: those of `enum EVENT` are consecutive from `EVT_NONE = 1` on. -/
def Event.code (e : Event) : ℤ := e.ctorIdx + 1

/-- Where `evt_handler` is. -/
inductive HandlerPc where
  /-- At `queue_length`. -/
  | top
  /-- Behind it, with a length above zero. -/
  | ready
  /-- In `queue_get`. -/
  | getting
  /-- With the address that `queue_get` has returned. -/
  | holding (evt : Addr)
  deriving DecidableEq

/-- The queue with its threads, the events in memory and the control block; `none` is the thread of
`evt_handler`, and the others are producers. -/
structure Program (ι : Type) where
  monitor : Monitor (Option ι) Addr
  handler : HandlerPc
  evts : Memory Evt
  ctrl : SiproxyCtrl

def initProgram (sipPeer : CString.CStr) (uartFd : ℤ) : Program ι :=
  ⟨initMonitor, .top, fun _ => none, initCtrl sipPeer uartFd⟩

/-- A step of a thread. -/
inductive ProgramStep (ι : Type) where
  /-- A producer has filled the event at `a`, which `malloc` returned, and calls `queue_add`. -/
  | produce (i : ι) (a : Addr) (evt : Evt)
  | lock (t : Option ι)
  | body (t : Option ι) (malloc : Option (Addr × MsgNode Addr))
  | wake (t : Option ι) (timedOut : Bool)
  | unlock (t : Option ι)
  /-- `evt_handler` calls `queue_length`, `queue_get` and `state`. -/
  | length
  | get
  | handle (tvSec : ℕ) (sendRc : ℤ)

/-- What a step does that is seen from outside. -/
inductive ProgramOut where
  | queued (evt : Evt)
  /-- `queue_add` has returned `ENOMEM`. -/
  | lost (a : Addr)
  | handled (inp : Input) (outs : List Output)
  deriving DecidableEq

/-- Why a run stops. -/
inductive ProgramHalt where
  | impossible
  /-- The memory of the queue or of the events is not used as it may be. -/
  | fault
  /-- `state` stops the program. -/
  | halted (h : Halt)
  deriving DecidableEq

/-- A step of the monitor. -/
def Program.act (s : Program ι) (step : MonitorStep (Option ι) Addr) :
    Except ProgramHalt (Program ι × List (QueueOut Addr)) :=
  match monitorStep s.monitor step with
  | .error .impossible => .error .impossible
  | .error .fault => .error .fault
  | .ok (m, outs) => .ok ({ s with monitor := m }, outs)

/-- What a critical section of `queue_add` by a producer does to the outside. -/
def Program.report (s : Program ι) (i : ι) : QueueOut Addr → List ProgramOut
  | .added (some a) _ => (s.evts a).toList.map .queued
  | .enomem =>
    match s.monitor.pc (some i) with
    | .addBody (some a) _ => [.lost a]
    | _ => []
  | _ => []

/-- What `evt_handler` has after a critical section of `queue_get`. -/
def Program.take (s : Program ι) : QueueOut Addr → Except ProgramHalt (Program ι)
  | .got m =>
    match m.data with
    | none => .error .fault
    | some a => .ok { s with handler := .holding a }
  | _ => .ok s

/-- One step of a thread. -/
def programStep (localtime : ℕ → Tm) (s : Program ι) :
    ProgramStep ι → Except ProgramHalt (Program ι × List ProgramOut)
  | .produce i a evt =>
    if (s.evts a).isNone then do
      let (s', _) ← s.act (.add (some i) (some a) evt.event.code)
      .ok ({ s' with evts := Function.update s.evts a (some evt) }, [])
    else .error .impossible
  | .lock t => do
    let (s', _) ← s.act (.lock t)
    .ok (s', [])
  | .body (some i) malloc => do
    let (s', outs) ← s.act (.body (some i) malloc)
    .ok (s', outs.flatMap (s.report i))
  | .body none malloc => do
    let (s', outs) ← s.act (.body none malloc)
    let s'' ← outs.foldlM Program.take s'
    .ok (s'', [])
  | .wake t timedOut => do
    let (s', _) ← s.act (.wake t timedOut)
    .ok (s', [])
  | .unlock t => do
    let (s', _) ← s.act (.unlock t)
    .ok (s', [])
  | .length =>
    match s.handler, s.monitor.pc none, s.monitor.owner with
    | .top, .out, none =>
      .ok ({ s with handler := if 0 < s.monitor.queue.length then .ready else .top }, [])
    | _, _, _ => .error .impossible
  | .get =>
    if s.handler = .ready then do
      let (s', _) ← s.act (.get none false)
      .ok ({ s' with handler := .getting }, [])
    else .error .impossible
  | .handle tvSec sendRc =>
    match s.handler, s.monitor.pc none with
    | .holding a, .out =>
      match s.evts a with
      | none => .error .fault
      | some evt =>
        match step localtime s.ctrl ⟨evt, tvSec, sendRc⟩ with
        | .error h => .error (.halted h)
        | .ok (c, outs) =>
          .ok ({ s with handler := .top, evts := Function.update s.evts a none, ctrl := c },
            [.handled ⟨evt, tvSec, sendRc⟩ outs])
    | _, _ => .error .impossible

/-- A recorded step. -/
abbrev ProgramMove (ι : Type) := Move (Program ι) (ProgramStep ι) ProgramOut

abbrev programTrace (localtime : ℕ → Tm) (sipPeer : CString.CStr) (uartFd : ℤ)
    (steps : List (ProgramStep ι)) : List (ProgramMove ι) :=
  trace (programStep localtime) (initProgram sipPeer uartFd) steps

/-! ### The invariant -/

/-- The address that a producer passes to `queue_add` and that is not queued yet. -/
def Pc.hand : Pc Addr → Option Addr
  | .addLock data _ | .addBody data _ => data
  | _ => none

/-- The thread has the mutex. -/
def Pc.InSection {α : Type} : Pc α → Prop
  | .addBody _ _ | .getTest _ _ | .unlock => True
  | _ => False

/-- The address that `evt_handler` works on. -/
def HandlerPc.held : HandlerPc → List Addr
  | .holding a => [a]
  | _ => []

/-- Where a producer can be. -/
inductive ProducerAt : Pc Addr → Prop
  | out : ProducerAt .out
  | locking (a : Addr) (msgtype : ℤ) : ProducerAt (.addLock (some a) msgtype)
  | adding (a : Addr) (msgtype : ℤ) : ProducerAt (.addBody (some a) msgtype)
  | leaving : ProducerAt .unlock

/-- Where the thread of `evt_handler` can be while `ws` is queued. -/
inductive HandlerAt : HandlerPc → Pc Addr → List Addr → Prop
  | top (ws : List Addr) : HandlerAt .top .out ws
  | ready {ws : List Addr} (h : ws ≠ []) : HandlerAt .ready .out ws
  | locking {ws : List Addr} (h : ws ≠ []) : HandlerAt .getting (.getLock false) ws
  | testing {ws : List Addr} (h : ws ≠ []) : HandlerAt .getting (.getTest false false) ws
  | leaving (a : Addr) (ws : List Addr) : HandlerAt (.holding a) .unlock ws
  | holding (a : Addr) (ws : List Addr) : HandlerAt (.holding a) .out ws

theorem HandlerAt.mono {hpc : HandlerPc} {p : Pc Addr} {ws ws' : List Addr}
    (h : HandlerAt hpc p ws) (grows : ws ≠ [] → ws' ≠ []) : HandlerAt hpc p ws' := by
  cases h with
  | top => exact .top ws'
  | ready hws => exact .ready (grows hws)
  | locking hws => exact .locking (grows hws)
  | testing hws => exact .testing (grows hws)
  | leaving a => exact .leaving a ws'
  | holding a => exact .holding a ws'

/-- The addresses `ws` are queued and those of `lost` were lost; the events `es` were queued and
have not been handled. -/
structure Program.Inv (s : Program ι) (ws lost : List Addr) (es : List Evt) : Prop where
  queue : ∃ qs ps, s.monitor.queue.Inv qs ps [] ∧
    (s.monitor.queue.msgs qs).map Prod.fst = ws.map some
  handler : HandlerAt s.handler (s.monitor.pc none) ws
  producer : ∀ i, ProducerAt (s.monitor.pc (some i))
  owner : ∀ t, s.monitor.owner = some t ↔ (s.monitor.pc t).InSection
  nodup : (s.handler.held ++ ws ++ lost).Nodup
  /-- What a producer has in its hands is allocated and nowhere else. -/
  hand : ∀ i a, (s.monitor.pc (some i)).hand = some a → a ∉ s.handler.held ++ ws ++ lost ∧
    ∀ j, (s.monitor.pc (some j)).hand = some a → j = i
  alloc : ∀ a, s.evts a ≠ none ↔
    a ∈ s.handler.held ++ ws ++ lost ∨ ∃ i, (s.monitor.pc (some i)).hand = some a
  contents : (s.handler.held ++ ws).map s.evts = es.map some

omit [DecidableEq ι] in
theorem initProgram_inv (sipPeer : CString.CStr) (uartFd : ℤ) :
    (initProgram sipPeer uartFd : Program ι).Inv [] [] [] where
  queue := ⟨[], [], queueInit_inv, rfl⟩
  handler := .top []
  producer := fun _ => .out
  owner := fun _ => by simp [initProgram, initMonitor, Pc.InSection]
  nodup := List.nodup_nil
  hand := fun i a h => by simp [initProgram, initMonitor, Pc.hand] at h
  alloc := fun a => by simp [initProgram, initMonitor, HandlerPc.held, Pc.hand]
  contents := rfl

theorem act_eq_ok {s s' : Program ι} {step : MonitorStep (Option ι) Addr}
    {outs : List (QueueOut Addr)} :
    s.act step = .ok (s', outs) ↔
      ∃ m, monitorStep s.monitor step = .ok (m, outs) ∧ s' = { s with monitor := m } := by
  unfold Program.act
  rcases monitorStep s.monitor step with ⟨⟨⟩⟩ | ⟨m, o⟩ <;> simp [eq_comm, and_comm]

theorem act_bind_eq_ok {s : Program ι} {step : MonitorStep (Option ι) Addr} {β : Type}
    {f : Program ι × List (QueueOut Addr) → Except ProgramHalt β} {b : β} :
    (s.act step >>= f) = .ok b ↔
      ∃ m outs, monitorStep s.monitor step = .ok (m, outs) ∧
        f ({ s with monitor := m }, outs) = .ok b := by
  rw [bind_eq_ok]
  constructor
  · rintro ⟨⟨s', outs⟩, hact, hf⟩
    obtain ⟨m, hm, rfl⟩ := act_eq_ok.1 hact
    exact ⟨m, outs, hm, hf⟩
  · rintro ⟨m, outs, hm, hf⟩
    exact ⟨_, act_eq_ok.2 ⟨m, hm, rfl⟩, hf⟩

theorem Program.Inv.goto {s : Program ι} {ws lost : List Addr} {es : List Evt}
    (h : s.Inv ws lost es) {i : ι} {p : Pc Addr} (hp : ProducerAt p)
    (hand : p.hand = (s.monitor.pc (some i)).hand) {owner : Option (Option ι)}
    (howner : ∀ t, owner = some t ↔ (Function.update s.monitor.pc (some i) p t).InSection) :
    Program.Inv { s with monitor := Monitor.goto { s.monitor with owner := owner } (some i) p }
      ws lost es := by
  have same (j : ι) : (Function.update s.monitor.pc (some i) p (some j)).hand =
      (s.monitor.pc (some j)).hand := by
    by_cases hj : j = i
    · rw [hj, Function.update_self, hand]
    · rw [Function.update_of_ne fun heq => hj (Option.some.inj heq)]
  refine ⟨h.queue, ?_, ?_, howner, h.nodup, ?_, ?_, h.contents⟩
  · simpa [Monitor.goto] using h.handler
  · intro j
    by_cases hj : j = i
    · simpa [Monitor.goto, hj] using hp
    · simpa [Monitor.goto, hj] using h.producer j
  · simpa only [Monitor.goto, same] using h.hand
  · simpa only [Monitor.goto, same] using h.alloc

theorem Program.Inv.gotoHandler {s : Program ι} {ws lost : List Addr} {es : List Evt}
    (h : s.Inv ws lost es) {hpc : HandlerPc} {p : Pc Addr} (hp : HandlerAt hpc p ws)
    (held : hpc.held = s.handler.held) {owner : Option (Option ι)}
    (howner : ∀ t, owner = some t ↔ (Function.update s.monitor.pc none p t).InSection) :
    Program.Inv { s with
      handler := hpc, monitor := Monitor.goto { s.monitor with owner := owner } none p }
      ws lost es := by
  have same (j : ι) : Function.update s.monitor.pc none p (some j) = s.monitor.pc (some j) :=
    Function.update_of_ne (Option.some_ne_none j) _ _
  refine ⟨h.queue, ?_, ?_, howner, ?_, ?_, ?_, ?_⟩
  · simpa [Monitor.goto] using hp
  · simpa only [Monitor.goto, same] using h.producer
  · simpa only [held] using h.nodup
  · simpa only [Monitor.goto, same, held] using h.hand
  · simpa only [Monitor.goto, same, held] using h.alloc
  · simpa only [held] using h.contents

theorem owner_update {s : Program ι} {ws lost : List Addr} {es : List Evt} (h : s.Inv ws lost es)
    {t : Option ι} {p : Pc Addr} (same : p.InSection ↔ (s.monitor.pc t).InSection) (u : Option ι) :
    s.monitor.owner = some u ↔ (Function.update s.monitor.pc t p u).InSection := by
  rw [h.owner u]
  by_cases hu : u = t
  · rw [hu, Function.update_self, same]
  · rw [Function.update_of_ne hu]

theorem owner_lock {s : Program ι} {ws lost : List Addr} {es : List Evt} (h : s.Inv ws lost es)
    (free : s.monitor.owner = none) {t : Option ι} {p : Pc Addr} (hp : p.InSection)
    (u : Option ι) : some t = some u ↔ (Function.update s.monitor.pc t p u).InSection := by
  by_cases hu : u = t
  · rw [hu, Function.update_self]
    exact iff_of_true rfl hp
  · rw [Function.update_of_ne hu, ← h.owner u, free]
    simp [Ne.symm hu]

theorem owner_unlock {s : Program ι} {ws lost : List Addr} {es : List Evt} (h : s.Inv ws lost es)
    {t : Option ι} (had : (s.monitor.pc t).InSection) (u : Option ι) :
    none = some u ↔ (Function.update s.monitor.pc t .out u).InSection := by
  by_cases hu : u = t
  · rw [hu, Function.update_self]
    exact iff_of_false (by simp) not_false
  · have mine := (h.owner t).2 had
    rw [Function.update_of_ne hu, ← h.owner u, mine]
    simp [Ne.symm hu]

/-! ### The steps -/

theorem Program.Inv.produce {s s' : Program ι} {ws lost : List Addr} {es : List Evt}
    (h : s.Inv ws lost es) {i : ι} {a : Addr} {evt : Evt} {outs : List ProgramOut}
    (taken : programStep localtime s (.produce i a evt) = .ok (s', outs)) :
    s'.Inv ws lost es ∧ outs = [] ∧ s'.ctrl = s.ctrl := by
  simp only [programStep] at taken
  split_ifs at taken with hfresh
  have fresh : s.evts a = none := Option.isNone_iff_eq_none.1 hfresh
  obtain ⟨m, o, hstep, hret⟩ := act_bind_eq_ok.1 taken
  simp only [monitorStep] at hstep
  split at hstep
  next hpc =>
    cases hstep
    cases hret
    have new : a ∉ s.handler.held ++ ws ++ lost ∧
        ∀ j, (s.monitor.pc (some j)).hand ≠ some a := by
      have none := mt (h.alloc a).2 (not_not.2 fresh)
      rw [not_or, not_exists] at none
      exact none
    have hand (j : ι) : (Function.update s.monitor.pc (some i)
        (.addLock (some a) evt.event.code) (some j)).hand =
          if j = i then some a else (s.monitor.pc (some j)).hand := by
      by_cases hj : j = i
      · rw [hj, Function.update_self, if_pos rfl]
        rfl
      · rw [Function.update_of_ne fun heq => hj (Option.some.inj heq), if_neg hj]
    have empty : (s.monitor.pc (some i)).hand = none := by rw [hpc]; rfl
    refine ⟨⟨h.queue, ?_, ?_, ?_, h.nodup, ?_, ?_, ?_⟩, rfl, rfl⟩
    · simpa [Monitor.goto] using h.handler
    · intro j
      by_cases hj : j = i
      · simpa [Monitor.goto, hj] using ProducerAt.locking a evt.event.code
      · simpa [Monitor.goto, hj] using h.producer j
    · exact owner_update h (by rw [hpc]; exact Iff.rfl)
    · intro j b hb
      simp only [Monitor.goto, hand] at hb ⊢
      split_ifs at hb with hj
      · obtain rfl := Option.some.inj hb
        refine ⟨new.1, fun k hk => ?_⟩
        split_ifs at hk with hki
        · rw [hki, hj]
        · exact absurd hk (new.2 k)
      · obtain ⟨out, uniq⟩ := h.hand j b hb
        refine ⟨out, fun k hk => ?_⟩
        split_ifs at hk with hki
        · obtain rfl := Option.some.inj hk
          exact absurd hb (new.2 j)
        · exact uniq k hk
    · intro b
      simp only [Monitor.goto, hand]
      by_cases hb : b = a
      · subst hb
        rw [Function.update_self]
        exact iff_of_true (by simp) (.inr ⟨i, if_pos rfl⟩)
      · rw [Function.update_of_ne hb, h.alloc b]
        refine or_congr_right (exists_congr fun j => ⟨fun hj => ?_, fun hj => ?_⟩)
        · rw [if_neg]
          · exact hj
          · rintro rfl
            rw [empty] at hj
            cases hj
        · split_ifs at hj with hji
          · exact absurd (Option.some.inj hj).symm hb
          · exact hj
    · refine Eq.trans ?_ h.contents
      apply List.map_congr_left
      intro b hb
      refine Function.update_of_ne ?_ _ _
      rintro rfl
      exact new.1 (List.mem_append_left _ hb)
  · cases hstep

theorem Program.Inv.lock {s s' : Program ι} {ws lost : List Addr} {es : List Evt}
    (h : s.Inv ws lost es) {t : Option ι} {outs : List ProgramOut}
    (taken : programStep localtime s (.lock t) = .ok (s', outs)) :
    s'.Inv ws lost es ∧ outs = [] ∧ s'.ctrl = s.ctrl := by
  simp only [programStep] at taken
  obtain ⟨m, o, hstep, hret⟩ := act_bind_eq_ok.1 taken
  cases hret
  refine ⟨?_, rfl, rfl⟩
  simp only [monitorStep] at hstep
  cases t with
  | none =>
    have at_ := h.handler
    generalize hpc : s.monitor.pc none = p, hh : s.handler = hpc' at at_
    rw [hpc] at hstep
    split at hstep
    · cases at_
    · next timed free =>
      cases at_ with
      | locking hws =>
        cases hstep
        exact h.gotoHandler (.testing hws) (by rw [hh]) (owner_lock h free trivial)
    · cases at_
    · cases hstep
  | some i =>
    have at_ := h.producer i
    generalize hpc : s.monitor.pc (some i) = p at at_
    rw [hpc] at hstep
    split at hstep
    · next data msgtype free =>
      cases at_ with
      | locking a =>
        cases hstep
        exact h.goto (.adding a msgtype) (by rw [hpc]; rfl) (owner_lock h free trivial)
    · cases at_
    · cases at_
    · cases hstep

theorem Program.Inv.unlock {s s' : Program ι} {ws lost : List Addr} {es : List Evt}
    (h : s.Inv ws lost es) {t : Option ι} {outs : List ProgramOut}
    (taken : programStep localtime s (.unlock t) = .ok (s', outs)) :
    s'.Inv ws lost es ∧ outs = [] ∧ s'.ctrl = s.ctrl := by
  simp only [programStep] at taken
  obtain ⟨m, o, hstep, hret⟩ := act_bind_eq_ok.1 taken
  cases hret
  refine ⟨?_, rfl, rfl⟩
  simp only [monitorStep] at hstep
  split at hstep
  next hpc =>
    cases hstep
    have free := owner_unlock h (t := t) (by rw [hpc]; trivial)
    cases t with
    | none =>
      have at_ := h.handler
      rw [hpc] at at_
      generalize hh : s.handler = hpc' at at_
      cases at_ with
      | leaving a =>
        exact h.gotoHandler (.holding a ws) (by rw [hh]) free
    | some i => exact h.goto .out (by rw [hpc]; rfl) free
  · cases hstep

omit [DecidableEq ι] in
theorem Program.Inv.not_asleep {s : Program ι} {ws lost : List Addr} {es : List Evt}
    (h : s.Inv ws lost es) (t : Option ι) (timed notified : Bool) :
    s.monitor.pc t ≠ .asleep timed notified := by
  intro hpc
  cases t with
  | none =>
    have at_ := h.handler
    rw [hpc] at at_
    generalize s.handler = hpc' at at_
    cases at_
  | some i =>
    have at_ := h.producer i
    rw [hpc] at at_
    cases at_

theorem Program.Inv.wake {s s' : Program ι} {ws lost : List Addr} {es : List Evt}
    (h : s.Inv ws lost es) {t : Option ι} {timedOut : Bool} {outs : List ProgramOut} :
    programStep localtime s (.wake t timedOut) ≠ .ok (s', outs) := by
  intro taken
  simp only [programStep] at taken
  obtain ⟨m, o, hstep, -⟩ := act_bind_eq_ok.1 taken
  simp only [monitorStep] at hstep
  split at hstep
  next hpc => exact h.not_asleep t _ _ hpc
  · cases hstep

theorem Queue.Inv.length_msgs {α : Type} {q : Queue α} {qs ps : List Addr} (h : q.Inv qs ps []) :
    (q.msgs qs).length = qs.length := by
  rw [Queue.msgs, contents, List.length_filterMap_eq_countP, List.countP_eq_length]
  intro a ha
  have allocated : q.heap a ≠ none := (h.owned a).2 (by simp [ha])
  obtain ⟨n, hn⟩ := Option.ne_none_iff_exists'.1 allocated
  simp [hn]

omit [DecidableEq ι] in
theorem Program.Inv.length_pos_iff {s : Program ι} {ws lost : List Addr} {es : List Evt}
    (h : s.Inv ws lost es) : 0 < s.monitor.queue.length ↔ ws ≠ [] := by
  obtain ⟨qs, ps, inv, hdata⟩ := h.queue
  have lengths := congrArg List.length hdata
  rw [List.length_map, List.length_map, inv.length_msgs] at lengths
  rw [inv.length, lengths, ← List.length_pos_iff]
  exact Int.natCast_pos

theorem Program.Inv.queueLength {s s' : Program ι} {ws lost : List Addr} {es : List Evt}
    (h : s.Inv ws lost es) {outs : List ProgramOut}
    (taken : programStep localtime s .length = .ok (s', outs)) :
    s'.Inv ws lost es ∧ outs = [] ∧ s'.ctrl = s.ctrl := by
  simp only [programStep] at taken
  split at taken
  next hh hpc howner =>
    cases taken
    refine ⟨⟨h.queue, ?_, h.producer, h.owner, ?_, ?_, ?_, ?_⟩, rfl, rfl⟩
    · rw [hpc]
      split_ifs with hpos
      · exact .ready (h.length_pos_iff.1 hpos)
      · exact .top ws
    all_goals
      have held : (if 0 < s.monitor.queue.length then HandlerPc.ready else .top).held =
          s.handler.held := by
        rw [hh]
        split_ifs <;> rfl
      simp only [held]
    · exact h.nodup
    · exact h.hand
    · exact h.alloc
    · exact h.contents
  · cases taken

theorem Program.Inv.queueGet {s s' : Program ι} {ws lost : List Addr} {es : List Evt}
    (h : s.Inv ws lost es) {outs : List ProgramOut}
    (taken : programStep localtime s .get = .ok (s', outs)) :
    s'.Inv ws lost es ∧ outs = [] ∧ s'.ctrl = s.ctrl := by
  simp only [programStep] at taken
  split_ifs at taken with hh
  obtain ⟨m, o, hstep, hret⟩ := act_bind_eq_ok.1 taken
  cases hret
  simp only [monitorStep] at hstep
  split at hstep
  next hpc =>
    cases hstep
    have at_ := h.handler
    rw [hh, hpc] at at_
    cases at_ with
    | ready hws =>
      exact ⟨h.gotoHandler (.locking hws) (by rw [hh]; rfl)
        (owner_update h (by rw [hpc]; exact Iff.rfl)), rfl, rfl⟩
  · cases hstep

omit [DecidableEq ι] in
/-- Nobody sleeps, so that a broadcast changes nothing. -/
theorem Program.Inv.broadcast {s : Program ι} {ws lost : List Addr} {es : List Evt}
    (h : s.Inv ws lost es) : s.monitor.broadcast = s.monitor := by
  have same : (fun u => (s.monitor.pc u).notify) = s.monitor.pc := by
    funext u
    cases hpc : s.monitor.pc u with
    | asleep timed notified => exact absurd hpc (h.not_asleep u timed notified)
    | _ => rfl
  rw [Monitor.broadcast, same]

theorem Program.Inv.release {s : Program ι} {ws lost : List Addr} {es : List Evt}
    (h : s.Inv ws lost es) {i : ι} {a : Addr} {msgtype : ℤ}
    (hpc : s.monitor.pc (some i) = .addBody (some a) msgtype) {q : Queue Addr}
    {ws' lost' : List Addr} {es' : List Evt}
    (queue : ∃ qs ps, q.Inv qs ps [] ∧ (q.msgs qs).map Prod.fst = ws'.map some)
    (grows : ws ≠ [] → ws' ≠ [])
    (moved : (s.handler.held ++ ws' ++ lost').Perm (a :: (s.handler.held ++ ws ++ lost)))
    (contents : (s.handler.held ++ ws').map s.evts = es'.map some) :
    Program.Inv { s with monitor := Monitor.goto { s.monitor with queue := q } (some i) .unlock }
      ws' lost' es' := by
  have mine : (s.monitor.pc (some i)).hand = some a := by rw [hpc]; rfl
  obtain ⟨out, only⟩ := h.hand i a mine
  have hand (j : ι) : (Function.update s.monitor.pc (some i) .unlock (some j)).hand =
      if j = i then none else (s.monitor.pc (some j)).hand := by
    by_cases hj : j = i
    · rw [hj, Function.update_self, if_pos rfl]
      rfl
    · rw [Function.update_of_ne fun heq => hj (Option.some.inj heq), if_neg hj]
  refine ⟨queue, ?_, ?_, ?_, ?_, ?_, ?_, contents⟩
  · simpa [Monitor.goto] using h.handler.mono grows
  · intro j
    by_cases hj : j = i
    · simpa [Monitor.goto, hj] using ProducerAt.leaving
    · simpa [Monitor.goto, hj] using h.producer j
  · exact owner_update h (by rw [hpc]; exact Iff.rfl)
  · exact moved.nodup_iff.2 (List.nodup_cons.2 ⟨out, h.nodup⟩)
  · intro j b hb
    simp only [Monitor.goto, hand] at hb ⊢
    split_ifs at hb with hj
    obtain ⟨hout, uniq⟩ := h.hand j b hb
    refine ⟨?_, fun k hk => ?_⟩
    · rw [moved.mem_iff, List.mem_cons, not_or]
      refine ⟨?_, hout⟩
      rintro rfl
      exact hj (only j hb)
    · split_ifs at hk
      exact uniq k hk
  · intro b
    simp only [Monitor.goto, hand]
    rw [h.alloc b, moved.mem_iff, List.mem_cons]
    constructor
    · rintro (hb | ⟨j, hj⟩)
      · exact .inl (.inr hb)
      · by_cases hji : j = i
        · rw [hji, mine] at hj
          exact .inl (.inl (Option.some.inj hj).symm)
        · exact .inr ⟨j, by rw [if_neg hji]; exact hj⟩
    · rintro ((rfl | hb) | ⟨j, hj⟩)
      · exact .inr ⟨i, mine⟩
      · exact .inl hb
      · split_ifs at hj
        exact .inr ⟨j, hj⟩

/-- The critical section of `queue_add`: the event is queued, or there is no memory for its node. -/
theorem Program.Inv.queueAdd {s s' : Program ι} {ws lost : List Addr} {es : List Evt}
    (h : s.Inv ws lost es) {i : ι} {malloc : Option (Addr × MsgNode Addr)}
    {outs : List ProgramOut}
    (taken : programStep localtime s (.body (some i) malloc) = .ok (s', outs)) :
    s'.ctrl = s.ctrl ∧ ((∃ a, outs = [.lost a] ∧ s'.Inv ws (lost ++ [a]) es) ∨
      ∃ a evt, outs = [.queued evt] ∧ s'.Inv (ws ++ [a]) lost (es ++ [evt])) := by
  simp only [programStep] at taken
  obtain ⟨m, o, hstep, hret⟩ := act_bind_eq_ok.1 taken
  cases hret
  simp only [monitorStep] at hstep
  split_ifs at hstep with howner
  have at_ := h.producer i
  have sect := (h.owner (some i)).1 howner
  generalize hpc : s.monitor.pc (some i) = p at at_
  rw [hpc] at hstep sect
  cases at_ with
  | out => exact absurd sect not_false
  | locking a msgtype => exact absurd sect not_false
  | leaving => cases hstep
  | adding a msgtype =>
    obtain ⟨qs, ps, inv, hdata⟩ := h.queue
    have mine : s.evts a ≠ none := (h.alloc a).2 (.inr ⟨i, by rw [hpc]; rfl⟩)
    obtain ⟨evt, hevt⟩ := Option.ne_none_iff_exists'.1 mine
    simp only [addSection] at hstep
    split_ifs at hstep with can
    have fresh : ∀ r ∈ malloc, s.monitor.queue.heap r.1 = none := by
      rintro r rfl
      simpa [Queue.canMalloc] using can
    rcases queueAdd_spec inv fresh (some a) msgtype with ⟨-, hadd⟩ | ⟨q, b, ps', hadd, inv', hmsgs⟩
    · simp only [hadd] at hstep
      cases hstep
      refine ⟨rfl, .inl ⟨a, by simp [Program.report, hpc], ?_⟩⟩
      refine h.release hpc ⟨qs, ps, inv, hdata⟩ id ?_ h.contents
      rw [← List.append_assoc]
      exact List.perm_append_singleton a _
    · simp only [hadd, h.broadcast, ite_self] at hstep
      cases hstep
      refine ⟨rfl, .inr ⟨a, evt, by simp [Program.report, hevt], ?_⟩⟩
      refine h.release hpc ⟨_, ps', inv', by simp [hmsgs, hdata]⟩ (fun _ => by simp) ?_ ?_
      · rw [← List.append_assoc, List.append_assoc _ [a], List.singleton_append]
        exact List.perm_middle
      · rw [← List.append_assoc, List.map_append, h.contents]
        simp [hevt]

/-- The critical section of `queue_get`: the oldest event is taken. -/
theorem Program.Inv.getSection {s : Program ι} {ws lost : List Addr} {es : List Evt}
    (h : s.Inv ws lost es) {malloc : Option (Addr × MsgNode Addr)} {m : Monitor (Option ι) Addr}
    {o : List (QueueOut Addr)} (hstep : monitorStep s.monitor (.body none malloc) = .ok (m, o)) :
    ∃ a rest msg, o = [.got msg] ∧ msg.data = some a ∧ ws = a :: rest ∧
      Program.Inv { s with monitor := m, handler := .holding a } rest lost es := by
  simp only [monitorStep] at hstep
  split_ifs at hstep with howner
  have at_ := h.handler
  have sect := (h.owner none).1 howner
  generalize hpc : s.monitor.pc none = p, hh : s.handler = hpc' at at_
  rw [hpc] at hstep sect
  cases at_ with
  | top => exact absurd sect not_false
  | ready hws => exact absurd sect not_false
  | locking hws => exact absurd sect not_false
  | leaving a => cases hstep
  | holding a => exact absurd sect not_false
  | testing hws =>
    obtain ⟨qs, ps, inv, hdata⟩ := h.queue
    simp only [Siproxy.getSection] at hstep
    rcases queueGet_spec inv false with ⟨-, hqs⟩ | ⟨-, timedOut⟩ |
      ⟨q, b, rest, ps', msg, hget, hqs, inv', hmsgs⟩
    · have none : ws.map some = [] := by
        rw [← hdata, hqs]
        rfl
      exact absurd (List.map_eq_nil_iff.1 none) hws
    · cases timedOut
    · simp only [hget] at hstep
      cases hstep
      rw [hmsgs] at hdata
      cases ws with
      | nil => exact absurd rfl hws
      | cons a ws =>
        obtain ⟨hmsg, hrest⟩ : msg.data = some a ∧ (q.msgs rest).map Prod.fst = ws.map some := by
          simpa using hdata
        have held : s.handler.held = [] := by rw [hh]; rfl
        have whole : HandlerPc.held (.holding a) ++ ws ++ lost = s.handler.held ++ a :: ws ++ lost := by
          rw [held]
          rfl
        have same (j : ι) : Function.update s.monitor.pc none .unlock (some j) =
            s.monitor.pc (some j) := Function.update_of_ne (Option.some_ne_none j) _ _
        refine ⟨a, ws, msg, rfl, hmsg, rfl, ⟨rest, ps', inv', hrest⟩, ?_, ?_, ?_, ?_, ?_, ?_, ?_⟩
        · simpa [Monitor.goto] using HandlerAt.leaving a ws
        · simpa only [Monitor.goto, same] using h.producer
        · exact owner_update h (by rw [hpc]; exact Iff.rfl)
        · rw [whole]
          exact h.nodup
        · simpa only [Monitor.goto, same, whole] using h.hand
        · simpa only [Monitor.goto, same, whole] using h.alloc
        · have contents := h.contents
          rw [held] at contents
          exact contents

theorem Program.Inv.queueTake {s s' : Program ι} {ws lost : List Addr} {es : List Evt}
    (h : s.Inv ws lost es) {malloc : Option (Addr × MsgNode Addr)} {outs : List ProgramOut}
    (taken : programStep localtime s (.body none malloc) = .ok (s', outs)) :
    outs = [] ∧ s'.ctrl = s.ctrl ∧ ∃ a rest, ws = a :: rest ∧ s'.Inv rest lost es := by
  simp only [programStep] at taken
  obtain ⟨m, o, hstep, hret⟩ := act_bind_eq_ok.1 taken
  obtain ⟨a, rest, msg, rfl, hmsg, hws, h'⟩ := h.getSection hstep
  simp only [List.foldlM_cons, List.foldlM_nil, Program.take, hmsg, bind, Except.bind, pure,
    Except.pure] at hret
  cases hret
  exact ⟨rfl, rfl, a, rest, hws, h'⟩

/-- `evt_handler` calls `state` with the event that it has taken, and frees it. -/
theorem Program.Inv.handle {s s' : Program ι} {ws lost : List Addr} {es : List Evt}
    (h : s.Inv ws lost es) {tvSec : ℕ} {sendRc : ℤ} {outs : List ProgramOut}
    (taken : programStep localtime s (.handle tvSec sendRc) = .ok (s', outs)) :
    ∃ evt rest os, es = evt :: rest ∧ outs = [.handled ⟨evt, tvSec, sendRc⟩ os] ∧
      step localtime s.ctrl ⟨evt, tvSec, sendRc⟩ = .ok (s'.ctrl, os) ∧ s'.Inv ws lost rest := by
  simp only [programStep] at taken
  split at taken
  next a hh hpc =>
    have contents := h.contents
    rw [hh] at contents
    cases es with
    | nil => simp [HandlerPc.held] at contents
    | cons evt rest =>
      obtain ⟨hevt, hrest⟩ : s.evts a = some evt ∧ ws.map s.evts = rest.map some := by
        simpa [HandlerPc.held] using contents
      simp only [hevt] at taken
      rcases hs : step localtime s.ctrl ⟨evt, tvSec, sendRc⟩ with e | ⟨c, os⟩
      · rw [hs] at taken
        cases taken
      · rw [hs] at taken
        cases taken
        have nodup := h.nodup
        have hand := h.hand
        have alloc := h.alloc
        rw [hh] at nodup hand alloc
        simp only [HandlerPc.held, List.cons_append, List.nodup_cons] at nodup hand alloc
        refine ⟨evt, rest, os, rfl, rfl, hs, ⟨h.queue, ?_, h.producer, h.owner, nodup.2, ?_, ?_, ?_⟩⟩
        · rw [hpc]
          exact .top ws
        · intro i b hb
          obtain ⟨out, only⟩ := hand i b hb
          exact ⟨fun hm => out (List.mem_cons_of_mem _ hm), only⟩
        · intro b
          by_cases hb : b = a
          · subst hb
            refine iff_of_false (not_not.2 (Function.update_self _ _ _)) ?_
            rintro (hm | ⟨i, hi⟩)
            · exact nodup.1 hm
            · exact (hand i b hi).1 List.mem_cons_self
          · show Function.update s.evts a none b ≠ none ↔ _
            rw [Function.update_of_ne hb, alloc b, List.mem_cons]
            simp [hb, HandlerPc.held]
        · refine Eq.trans ?_ hrest
          apply List.map_congr_left
          intro b hb
          refine Function.update_of_ne ?_ _ _
          rintro rfl
          exact nodup.1 (List.mem_append_left _ hb)
  · cases taken

theorem Program.Inv.step {s s' : Program ι} {ws lost : List Addr} {es : List Evt}
    (h : s.Inv ws lost es) {op : ProgramStep ι} {outs : List ProgramOut}
    (taken : programStep localtime s op = .ok (s', outs)) :
    (outs = [] ∧ s'.ctrl = s.ctrl ∧ ∃ ws', s'.Inv ws' lost es) ∨
      (∃ a, outs = [.lost a] ∧ s'.ctrl = s.ctrl ∧ s'.Inv ws (lost ++ [a]) es) ∨
      (∃ a evt, outs = [.queued evt] ∧ s'.ctrl = s.ctrl ∧ s'.Inv (ws ++ [a]) lost (es ++ [evt])) ∨
      ∃ inp os rest, es = inp.evt :: rest ∧ outs = [.handled inp os] ∧
        Siproxy.step localtime s.ctrl inp = .ok (s'.ctrl, os) ∧ s'.Inv ws lost rest := by
  cases op with
  | produce i a evt =>
    obtain ⟨h', houts, hctrl⟩ := h.produce taken
    exact .inl ⟨houts, hctrl, ws, h'⟩
  | lock t =>
    obtain ⟨h', houts, hctrl⟩ := h.lock taken
    exact .inl ⟨houts, hctrl, ws, h'⟩
  | body t malloc =>
    cases t with
    | none =>
      obtain ⟨houts, hctrl, a, rest, -, h'⟩ := h.queueTake taken
      exact .inl ⟨houts, hctrl, rest, h'⟩
    | some i =>
      obtain ⟨hctrl, ⟨a, houts, h'⟩ | ⟨a, evt, houts, h'⟩⟩ := h.queueAdd taken
      · exact .inr (.inl ⟨a, houts, hctrl, h'⟩)
      · exact .inr (.inr (.inl ⟨a, evt, houts, hctrl, h'⟩))
  | wake t timedOut => exact absurd taken h.wake
  | unlock t =>
    obtain ⟨h', houts, hctrl⟩ := h.unlock taken
    exact .inl ⟨houts, hctrl, ws, h'⟩
  | length =>
    obtain ⟨h', houts, hctrl⟩ := h.queueLength taken
    exact .inl ⟨houts, hctrl, ws, h'⟩
  | get =>
    obtain ⟨h', houts, hctrl⟩ := h.queueGet taken
    exact .inl ⟨houts, hctrl, ws, h'⟩
  | handle tvSec sendRc =>
    obtain ⟨evt, rest, os, hes, houts, hs, h'⟩ := h.handle taken
    exact .inr (.inr (.inr ⟨⟨evt, tvSec, sendRc⟩, os, rest, hes, houts, hs, h'⟩))

/-! ### Whole runs -/

def ProgramOut.queued? : ProgramOut → Option Evt
  | .queued evt => some evt
  | _ => none

def ProgramOut.lost? : ProgramOut → Option Addr
  | .lost a => some a
  | _ => none

def ProgramOut.handled? : ProgramOut → Option (Input × List Output)
  | .handled inp outs => some (inp, outs)
  | _ => none

/-- The outputs of a run. -/
def outsOf (tr : List (ProgramMove ι)) : List ProgramOut := tr.flatMap Move.outs

/-- The handler thread is the machine of `state` on the events that were handled, and those that
were queued are these and `es`. -/
def HandlerRuns (localtime : ℕ → Tm) (sipPeer : CString.CStr) (uartFd : ℤ)
    (outs : List ProgramOut) (c : SiproxyCtrl) (es : List Evt) : Prop :=
  outs.filterMap ProgramOut.queued? =
      (outs.filterMap ProgramOut.handled?).map (fun h => h.1.evt) ++ es ∧
    run (step localtime) (initCtrl sipPeer uartFd)
        ((outs.filterMap ProgramOut.handled?).map Prod.fst) =
      .ok (c, (outs.filterMap ProgramOut.handled?).flatMap Prod.snd)

/-- The outputs of a run account for the events in memory and in the queue. -/
def ProgramAccounted (localtime : ℕ → Tm) (sipPeer : CString.CStr) (uartFd : ℤ)
    (tr : List (ProgramMove ι)) (s : Program ι) : Prop :=
  ∃ ws es, s.Inv ws ((outsOf tr).filterMap ProgramOut.lost?) es ∧
    HandlerRuns localtime sipPeer uartFd (outsOf tr) s.ctrl es

theorem ProgramAccounted.concat {sipPeer : CString.CStr} {uartFd : ℤ} {tr : List (ProgramMove ι)}
    {m : ProgramMove ι} (h : ProgramAccounted localtime sipPeer uartFd tr m.pre)
    (taken : programStep localtime m.pre m.input = .ok (m.post, m.outs)) :
    ProgramAccounted localtime sipPeer uartFd (tr ++ [m]) m.post := by
  obtain ⟨ws, es, inv, hist, ran⟩ := h
  have outs : outsOf (tr ++ [m]) = outsOf tr ++ m.outs := by simp [outsOf]
  unfold ProgramAccounted HandlerRuns
  rw [outs]
  rcases inv.step taken with ⟨ho, hctrl, ws', inv'⟩ | ⟨a, ho, hctrl, inv'⟩ |
    ⟨a, evt, ho, hctrl, inv'⟩ | ⟨inp, os, rest, rfl, ho, hstep, inv'⟩
  · rw [ho, hctrl, List.append_nil]
    exact ⟨ws', es, inv', hist, ran⟩
  · rw [ho, hctrl]
    refine ⟨ws, es, ?_, ?_, ?_⟩
    · simpa [ProgramOut.queued?, ProgramOut.lost?, ProgramOut.handled?, List.filterMap_cons] using inv'
    · simpa [ProgramOut.queued?, ProgramOut.lost?, ProgramOut.handled?, List.filterMap_cons] using hist
    · simpa [ProgramOut.queued?, ProgramOut.lost?, ProgramOut.handled?, List.filterMap_cons] using ran
  · rw [ho, hctrl]
    refine ⟨ws ++ [a], es ++ [evt], ?_, ?_, ?_⟩
    · simpa [ProgramOut.queued?, ProgramOut.lost?, ProgramOut.handled?, List.filterMap_cons] using inv'
    · simp [ProgramOut.queued?, ProgramOut.handled?, List.filterMap_cons, hist]
    · simpa [ProgramOut.queued?, ProgramOut.lost?, ProgramOut.handled?, List.filterMap_cons] using ran
  · rw [ho]
    refine ⟨ws, rest, ?_, ?_, ?_⟩
    · simpa [ProgramOut.queued?, ProgramOut.lost?, ProgramOut.handled?, List.filterMap_cons] using inv'
    · simp [ProgramOut.queued?, ProgramOut.handled?, List.filterMap_cons, hist]
    · have next : run (step localtime) m.pre.ctrl [inp] = .ok (m.post.ctrl, os) := by
        simp [run, hstep]
      simpa [ProgramOut.queued?, ProgramOut.lost?, ProgramOut.handled?, List.filterMap_cons] using run_append ran next

theorem monitorStep_ne_fault {τ α : Type} [DecidableEq τ] {s : Monitor τ α} (h : s.queue.Sound)
    (step : MonitorStep τ α) : monitorStep s step ≠ .error .fault := by
  obtain ⟨qs, ps, inv⟩ := h
  cases step with
  | body t malloc =>
    simp only [monitorStep]
    split_ifs
    · split
      · next data msgtype hpc =>
        unfold addSection
        split_ifs with can
        · have fresh : ∀ r ∈ malloc, s.queue.heap r.1 = none := by
            rintro r rfl
            simpa [Queue.canMalloc] using can
          rcases queueAdd_spec inv fresh data msgtype with ⟨-, hadd⟩ | ⟨q, a, ps', hadd, -, -⟩
          · simp [hadd]
          · simp [hadd]
        · simp
      · next timed timedOut hpc =>
        unfold getSection
        rcases queueGet_spec inv timedOut with ⟨hget, -⟩ | ⟨hget, -⟩ |
          ⟨_, _, _, _, _, hget, -, -, -⟩
        all_goals simp [hget]
      · simp
    · simp
  | wake t timedOut =>
    simp only [monitorStep]
    split
    · split_ifs <;> simp
    · simp
  | _ =>
    simp only [monitorStep]
    split <;> simp

theorem act_ne_fault {s : Program ι} {ws lost : List Addr} {es : List Evt} (h : s.Inv ws lost es)
    {step : MonitorStep (Option ι) Addr} {β : Type}
    {f : Program ι × List (QueueOut Addr) → Except ProgramHalt β}
    (rest : ∀ m outs, monitorStep s.monitor step = .ok (m, outs) →
      f ({ s with monitor := m }, outs) ≠ .error .fault) :
    (s.act step >>= f) ≠ .error .fault := by
  obtain ⟨qs, ps, inv, -⟩ := h.queue
  have sound := monitorStep_ne_fault ⟨qs, ps, inv⟩ step
  intro hfault
  rcases bind_eq_error.1 hfault with herr | ⟨⟨s', outs⟩, hact, hf⟩
  · unfold Program.act at herr
    rcases hm : monitorStep s.monitor step with ⟨⟨⟩⟩ | ⟨m, o⟩
    all_goals simp_all
  · obtain ⟨m, hm, rfl⟩ := act_eq_ok.1 hact
    exact rest m outs hm hf

/-- No step follows a pointer to an event or a node that is not there. -/
theorem Program.Inv.step_ne_fault {s : Program ι} {ws lost : List Addr} {es : List Evt}
    (h : s.Inv ws lost es) (op : ProgramStep ι) : programStep localtime s op ≠ .error .fault := by
  cases op with
  | produce i a evt =>
    simp only [programStep]
    split_ifs
    · exact act_ne_fault h (fun _ _ _ => by simp)
    · simp
  | body t malloc =>
    cases t with
    | none =>
      refine act_ne_fault h (fun m outs hstep => ?_)
      obtain ⟨a, rest, msg, rfl, hmsg, -, -⟩ := h.getSection hstep
      simp [Program.take, hmsg, bind, Except.bind, pure, Except.pure]
    | some i => exact act_ne_fault h (fun _ _ _ => by simp)
  | lock t => exact act_ne_fault h (fun _ _ _ => by simp)
  | wake t timedOut => exact act_ne_fault h (fun _ _ _ => by simp)
  | unlock t => exact act_ne_fault h (fun _ _ _ => by simp)
  | length =>
    simp only [programStep]
    split <;> simp
  | get =>
    simp only [programStep]
    split_ifs
    · exact act_ne_fault h (fun _ _ _ => by simp)
    · simp
  | handle tvSec sendRc =>
    simp only [programStep]
    split
    next a hh hpc =>
      have mine : s.evts a ≠ none := (h.alloc a).2 (.inl (by simp [hh, HandlerPc.held]))
      obtain ⟨evt, hevt⟩ := Option.ne_none_iff_exists'.1 mine
      simp only [hevt]
      split <;> simp
    · simp

theorem Program.Inv.sound {s s' : Program ι} {ws lost : List Addr} {es : List Evt}
    (h : s.Inv ws lost es) {op : ProgramStep ι} {outs : List ProgramOut}
    (taken : programStep localtime s op = .ok (s', outs)) :
    ∃ ws lost es, s'.Inv ws lost es := by
  rcases h.step taken with ⟨-, -, ws', h'⟩ | ⟨a, -, -, h'⟩ | ⟨a, evt, -, -, h'⟩ |
    ⟨inp, os, rest, -, -, -, h'⟩
  · exact ⟨ws', lost, es, h'⟩
  · exact ⟨ws, _, es, h'⟩
  · exact ⟨_, lost, _, h'⟩
  · exact ⟨ws, lost, rest, h'⟩

theorem programTrace_accounted {sipPeer : CString.CStr} {uartFd : ℤ}
    {steps : List (ProgramStep ι)} {p q : List (ProgramMove ι)}
    (split : programTrace localtime sipPeer uartFd steps = p ++ q) :
    ProgramAccounted localtime sipPeer uartFd p (final (initProgram sipPeer uartFd) p) :=
  trace_history (ProgramAccounted localtime sipPeer uartFd)
    ⟨[], [], initProgram_inv sipPeer uartFd, rfl, rfl⟩ (fun _ _ _ h taken => h.concat taken) split

/-- In every run of the threads: no pointer is followed that does not lead to an event or a node;
the handler thread is the machine of `state` on the events in the order of the critical sections of
`queue_add`, and never sleeps in `queue_get`; and an event that is allocated is held by the handler,
queued, lost after an `ENOMEM`, or in the hands of one producer. -/
theorem program_exact (localtime : ℕ → Tm) (sipPeer : CString.CStr) (uartFd : ℤ)
    (steps : List (ProgramStep ι)) :
    halt? (programStep localtime) (initProgram sipPeer uartFd) steps ≠ some .fault ∧
    ∀ p q, programTrace localtime sipPeer uartFd steps = p ++ q →
      ∃ ws es, (final (initProgram sipPeer uartFd) p).Inv ws
          ((outsOf p).filterMap ProgramOut.lost?) es ∧
        HandlerRuns localtime sipPeer uartFd (outsOf p)
          (final (initProgram sipPeer uartFd) p).ctrl es ∧
        ∀ timed notified, (final (initProgram sipPeer uartFd) p).monitor.pc none ≠
          .asleep timed notified := by
  refine ⟨?_, ?_⟩
  · intro hfault
    obtain ⟨s, op, -, ⟨ws, lost, es, inv⟩, herr⟩ := halt_cause
      (fun s : Program ι => ∃ ws lost es, s.Inv ws lost es)
      ⟨[], [], [], initProgram_inv sipPeer uartFd⟩
      (fun s op _ s' outs ⟨ws, lost, es, inv⟩ taken => inv.sound taken) hfault
    exact inv.step_ne_fault op herr
  · intro p q split
    obtain ⟨ws, es, inv, ran⟩ := programTrace_accounted split
    exact ⟨ws, es, inv, ran, inv.not_asleep none⟩

/-! ### Draining -/

/-- A step of a thread other than a new event. -/
def ProgramStep.GoesOn : ProgramStep ι → Prop
  | .produce _ _ _ => False
  | _ => True

/-- The threads go on, without new events. -/
inductive Goes (localtime : ℕ → Tm) : Program ι → List ProgramOut → Program ι → Prop
  | refl (s : Program ι) : Goes localtime s [] s
  | step {s s' s'' : Program ι} {op : ProgramStep ι} {outs outs' : List ProgramOut}
    (goesOn : op.GoesOn) (taken : programStep localtime s op = .ok (s', outs))
    (rest : Goes localtime s' outs' s'') : Goes localtime s (outs ++ outs') s''

theorem Goes.trans {s s' s'' : Program ι} {outs outs' : List ProgramOut}
    (h : Goes localtime s outs s') (h' : Goes localtime s' outs' s'') :
    Goes localtime s (outs ++ outs') s'' := by
  induction h with
  | refl s => exact h'
  | step goesOn taken _ ih =>
    rw [List.append_assoc]
    exact .step goesOn taken (ih h')

theorem Goes.one {s s' : Program ι} {op : ProgramStep ι} {outs : List ProgramOut}
    (taken : programStep localtime s op = .ok (s', outs)) (goesOn : op.GoesOn) :
    Goes localtime s outs s' := by
  rw [← List.append_nil outs]
  exact .step goesOn taken (.refl s')

/-- The threads get from `s` to `s'` without a new event, a loss or an event that is handled. -/
structure Quiet (localtime : ℕ → Tm) (s s' : Program ι) (es : List Evt) : Prop where
  goes : ∃ outs, Goes localtime s outs s' ∧ outs.filterMap ProgramOut.lost? = [] ∧
    outs.filterMap ProgramOut.handled? = []
  inv : ∃ ws lost more, s'.Inv ws lost (es ++ more)

theorem Program.Inv.quiet {s : Program ι} {ws lost : List Addr} {es : List Evt}
    (h : s.Inv ws lost es) : Quiet localtime s s es :=
  ⟨⟨[], .refl s, rfl, rfl⟩, ws, lost, [], by rwa [List.append_nil]⟩

theorem Quiet.snoc {s s' s'' : Program ι} {es : List Evt} (h : Quiet localtime s s' es)
    {op : ProgramStep ι} {outs : List ProgramOut}
    (taken : programStep localtime s' op = .ok (s'', outs)) (goesOn : op.GoesOn)
    (silent : outs = [] ∨ ∃ evt, outs = [.queued evt]) : Quiet localtime s s'' es := by
  obtain ⟨before, goes, hlost, hhandled⟩ := h.goes
  obtain ⟨ws, lost, more, inv⟩ := h.inv
  refine ⟨⟨before ++ outs, goes.trans (.one taken goesOn), ?_, ?_⟩, ?_⟩
  · rcases silent with rfl | ⟨evt, rfl⟩ <;> simp [hlost, ProgramOut.lost?, List.filterMap_cons]
  · rcases silent with rfl | ⟨evt, rfl⟩ <;>
      simp [hhandled, ProgramOut.handled?, List.filterMap_cons]
  · rcases inv.step taken with ⟨-, -, ws', inv'⟩ | ⟨a, ho, -, -⟩ | ⟨a, evt, -, -, inv'⟩ |
      ⟨inp, os, rest, -, ho, -, -⟩
    · exact ⟨ws', lost, more, inv'⟩
    · subst ho
      simp at silent
    · exact ⟨ws ++ [a], lost, more ++ [evt], by rwa [← List.append_assoc]⟩
    · subst ho
      simp at silent

theorem programStep_unlock {s : Program ι} {t : Option ι} (hpc : s.monitor.pc t = .unlock) :
    programStep localtime s (.unlock t) =
      .ok ({ s with monitor := Monitor.goto { s.monitor with owner := none } t .out }, []) := by
  simp [programStep, Program.act, monitorStep, hpc, bind, Except.bind]

theorem Queue.Inv.exists_fresh {α : Type} {q : Queue α} {qs ps : List Addr} (h : q.Inv qs ps []) :
    ∃ r, q.heap r = none := by
  obtain ⟨r, hr⟩ := Infinite.exists_notMem_finset (qs ++ ps).toFinset
  refine ⟨r, ?_⟩
  by_contra used
  have listed := (h.owned r).1 used
  exact hr (List.mem_toFinset.2 listed)

variable (localtime) in
/-- The thread with the mutex gets to the end of its critical section. -/
theorem Program.Inv.sectionEnds {s : Program ι} {ws lost : List Addr} {es : List Evt}
    (h : s.Inv ws lost es) {t : Option ι} (howner : s.monitor.owner = some t) :
    ∃ s', Quiet localtime s s' es ∧ s'.monitor.pc t = .unlock := by
  have sect := (h.owner t).1 howner
  obtain ⟨qs, ps, inv, hdata⟩ := h.queue
  cases t with
  | none =>
    have at_ := h.handler
    generalize hpc : s.monitor.pc none = p, hh : s.handler = hpc' at at_
    rw [hpc] at sect
    cases at_ with
    | top => exact absurd sect not_false
    | ready => exact absurd sect not_false
    | locking => exact absurd sect not_false
    | holding => exact absurd sect not_false
    | leaving a => exact ⟨s, h.quiet, hpc⟩
    | testing hws =>
      rcases queueGet_spec inv false with ⟨-, hqs⟩ | ⟨-, timedOut⟩ |
        ⟨q, b, rest, ps', msg, hget, hqs, inv', hmsgs⟩
      · rw [hqs] at hdata
        exact absurd (List.map_eq_nil_iff.1 hdata.symm) hws
      · cases timedOut
      · have hstep : monitorStep s.monitor (.body none none) =
            .ok (Monitor.goto { s.monitor with queue := q } none .unlock, [.got msg]) := by
          simp [monitorStep, howner, hpc, Siproxy.getSection, hget]
        obtain ⟨a, ws', msg', heq, hmsg, -, -⟩ := h.getSection hstep
        obtain rfl : msg = msg' := by simpa using heq
        have taken : programStep localtime s (.body none none) = .ok ({ s with
            monitor := Monitor.goto { s.monitor with queue := q } none .unlock,
            handler := .holding a }, []) := by
          simp [programStep, Program.act, hstep, Program.take, hmsg, bind, Except.bind, pure,
            Except.pure]
        exact ⟨_, h.quiet.snoc taken trivial (.inl rfl), by simp [Monitor.goto]⟩
  | some i =>
    have at_ := h.producer i
    generalize hpc : s.monitor.pc (some i) = p at at_
    rw [hpc] at sect
    cases at_ with
    | out => exact absurd sect not_false
    | locking => exact absurd sect not_false
    | leaving => exact ⟨s, h.quiet, hpc⟩
    | adding a msgtype =>
      have mine : s.evts a ≠ none := (h.alloc a).2 (.inr ⟨i, by rw [hpc]; rfl⟩)
      obtain ⟨evt, hevt⟩ := Option.ne_none_iff_exists'.1 mine
      obtain ⟨r, hr⟩ := inv.exists_fresh
      let node : MsgNode Addr := ⟨none, 0, none⟩
      have fresh : ∀ x ∈ some (r, node), s.monitor.queue.heap x.1 = none := by
        rintro x ⟨⟩
        exact hr
      have can : s.monitor.queue.canMalloc (some (r, node)) = true := by
        simp [Queue.canMalloc, hr]
      rcases queueAdd_spec inv fresh (some a) msgtype with ⟨hm, -⟩ | ⟨q, b, ps', hadd, -, -⟩
      · cases hm
      · have taken : programStep localtime s (.body (some i) (some (r, node))) = .ok ({ s with
            monitor := Monitor.goto { s.monitor with queue := q } (some i) .unlock },
            [.queued evt]) := by
          simp [programStep, Program.act, monitorStep, howner, hpc, addSection, can, hadd,
            h.broadcast, Program.report, hevt, bind, Except.bind]
        exact ⟨_, h.quiet.snoc taken trivial (.inr ⟨evt, rfl⟩), by simp [Monitor.goto]⟩

variable (localtime) in
theorem Program.Inv.mutexFreed {s : Program ι} {ws lost : List Addr} {es : List Evt}
    (h : s.Inv ws lost es) : ∃ s', Quiet localtime s s' es ∧ s'.monitor.owner = none := by
  cases howner : s.monitor.owner with
  | none => exact ⟨s, h.quiet, howner⟩
  | some t =>
    obtain ⟨s', quiet, hpc⟩ := h.sectionEnds localtime howner
    exact ⟨_, quiet.snoc (programStep_unlock hpc) trivial (.inl rfl), rfl⟩

/-- `evt_handler` has an event and is out of the queue. -/
def Program.Loaded (s : Program ι) : Prop :=
  (∃ a, s.handler = .holding a) ∧ s.monitor.pc none = .out

theorem HandlerAt.loaded {hpc : HandlerPc} {ws : List Addr} (h : HandlerAt hpc .unlock ws) :
    ∃ a, hpc = .holding a := by
  cases h with
  | leaving a => exact ⟨a, rfl⟩

theorem Quiet.trans {s s' s'' : Program ι} {es more : List Evt} (h : Quiet localtime s s' es)
    (h' : Quiet localtime s' s'' (es ++ more)) : Quiet localtime s s'' es := by
  obtain ⟨outs, goes, lost, handled⟩ := h.goes
  obtain ⟨outs', goes', lost', handled'⟩ := h'.goes
  obtain ⟨ws, left, more', inv⟩ := h'.inv
  exact ⟨⟨outs ++ outs', goes.trans goes', by simp [lost, lost'], by simp [handled, handled']⟩,
    ws, left, more ++ more', by rwa [← List.append_assoc]⟩

theorem Quiet.loads {s s' : Program ι} {es : List Evt} (h : Quiet localtime s s' es)
    (howner : s'.monitor.owner = some none) : ∃ s'', Quiet localtime s s'' es ∧ s''.Loaded := by
  obtain ⟨ws, lost, more, inv⟩ := h.inv
  obtain ⟨s₂, quiet, hpc⟩ := inv.sectionEnds localtime howner
  obtain ⟨ws₂, lost₂, more₂, inv₂⟩ := quiet.inv
  have at_ := inv₂.handler
  rw [hpc] at at_
  exact ⟨_, (h.trans quiet).snoc (programStep_unlock hpc) trivial (.inl rfl), at_.loaded,
    by simp [Monitor.goto]⟩

variable (localtime) in
/-- `evt_handler` gets an event while one is queued. -/
theorem Program.Inv.loads {s : Program ι} {ws lost : List Addr} {evt : Evt} {es : List Evt}
    (h : s.Inv ws lost (evt :: es)) (free : s.monitor.owner = none) :
    ∃ s', Quiet localtime s s' (evt :: es) ∧ s'.Loaded := by
  have fromLock {s' : Program ι} (quiet : Quiet localtime s s' (evt :: es))
      (free : s'.monitor.owner = none) (hpc : s'.monitor.pc none = .getLock false) :
      ∃ s'', Quiet localtime s s'' (evt :: es) ∧ s''.Loaded := by
    have taken : programStep localtime s' (.lock none) = .ok ({ s' with
        monitor := Monitor.goto { s'.monitor with owner := some none } none (.getTest false false) },
        []) := by
      simp [programStep, Program.act, monitorStep, free, hpc, bind, Except.bind]
    exact (quiet.snoc taken trivial (.inl rfl)).loads rfl
  have fromReady {s' : Program ι} (quiet : Quiet localtime s s' (evt :: es))
      (free : s'.monitor.owner = none) (hh : s'.handler = .ready)
      (hpc : s'.monitor.pc none = .out) :
      ∃ s'', Quiet localtime s s'' (evt :: es) ∧ s''.Loaded := by
    have taken : programStep localtime s' .get = .ok ({ s' with
        monitor := s'.monitor.goto none (.getLock false), handler := .getting }, []) := by
      simp [programStep, Program.act, monitorStep, hh, hpc, bind, Except.bind]
    exact fromLock (quiet.snoc taken trivial (.inl rfl)) free (by simp [Monitor.goto])
  have at_ := h.handler
  have sect := mt (h.owner none).2 (by rw [free]; simp)
  generalize hpc : s.monitor.pc none = p, hh : s.handler = hpc' at at_
  rw [hpc] at sect
  cases at_ with
  | leaving => exact absurd trivial sect
  | testing => exact absurd trivial sect
  | holding a => exact ⟨s, h.quiet, ⟨a, hh⟩, hpc⟩
  | locking => exact fromLock h.quiet free hpc
  | ready => exact fromReady h.quiet free hh hpc
  | top =>
    have full : ws ≠ [] := by
      rintro rfl
      have contents := h.contents
      simp [hh, HandlerPc.held] at contents
    have taken : programStep localtime s .length = .ok ({ s with handler := .ready }, []) := by
      simp [programStep, hh, hpc, free, h.length_pos_iff.2 full]
    exact fromReady (h.quiet.snoc taken trivial (.inl rfl)) free rfl hpc

/-- `evt_handler` has the event, and `state` stops the program on it with these answers. -/
def Program.Stops (localtime : ℕ → Tm) (s : Program ι) (inp : Input) : Prop :=
  ∃ a e, s.handler = .holding a ∧ s.evts a = some inp.evt ∧
    step localtime s.ctrl inp = .error e

omit [DecidableEq ι] in
theorem Program.Inv.holds {s : Program ι} {ws lost : List Addr} {evt : Evt} {es : List Evt}
    (h : s.Inv ws lost (evt :: es)) {a : Addr} (hh : s.handler = .holding a) :
    s.evts a = some evt := by
  have contents := h.contents
  simp only [hh, HandlerPc.held, List.singleton_append, List.map_cons, List.cons.injEq] at contents
  exact contents.1

variable (localtime) in
/-- The next event is handled, or `state` stops the program. -/
theorem Program.Inv.handles {s : Program ι} {ws lost : List Addr} {evt : Evt} {es : List Evt}
    (h : s.Inv ws lost (evt :: es)) (tvSec : ℕ) (sendRc : ℤ) :
    (∃ s' outs, Goes localtime s outs s' ∧ outs.filterMap ProgramOut.lost? = [] ∧
        outs.filterMap ProgramOut.handled? = [] ∧ s'.Stops localtime ⟨evt, tvSec, sendRc⟩) ∨
      ∃ s' outs os ws' lost' more, Goes localtime s outs s' ∧
        outs.filterMap ProgramOut.lost? = [] ∧
        outs.filterMap ProgramOut.handled? = [(⟨evt, tvSec, sendRc⟩, os)] ∧
        s'.Inv ws' lost' (es ++ more) := by
  obtain ⟨s₁, quiet₁, free⟩ := h.mutexFreed localtime
  obtain ⟨ws₁, lost₁, more₁, inv₁⟩ := quiet₁.inv
  obtain ⟨s₂, quiet₂, ⟨a, hh⟩, hpc⟩ := inv₁.loads localtime free
  have later : Quiet localtime s₁ s₂ (evt :: es ++ more₁) := quiet₂
  have quiet := quiet₁.trans later
  obtain ⟨ws₂, lost₂, more, inv⟩ := quiet.inv
  obtain ⟨outs, goes, lost, handled⟩ := quiet.goes
  have hevt : s₂.evts a = some evt := inv.holds hh
  rcases hstep : Siproxy.step localtime s₂.ctrl ⟨evt, tvSec, sendRc⟩ with e | ⟨c, os⟩
  · exact .inl ⟨s₂, outs, goes, lost, handled, a, e, hh, hevt, hstep⟩
  · have taken : programStep localtime s₂ (.handle tvSec sendRc) =
        .ok ({ s₂ with handler := .top, evts := Function.update s₂.evts a none, ctrl := c },
          [.handled ⟨evt, tvSec, sendRc⟩ os]) := by
      simp only [programStep, hh, hpc, hevt, hstep]
    obtain ⟨evt', rest, os', heq, houts, -, inv'⟩ := inv.handle taken
    obtain ⟨rfl, rfl⟩ := List.cons.inj heq
    refine .inr ⟨_, _, os, ws₂, lost₂, more, goes.trans (.one taken trivial), ?_, ?_, inv'⟩
    · simp [lost, ProgramOut.lost?, List.filterMap_cons]
    · simp [handled, ProgramOut.handled?]

/-- What `state` is called with, for the answers of the clock and of the MQTT library. -/
def inputsOf (es : List Evt) (answers : List (ℕ × ℤ)) : List Input :=
  List.zipWith (fun evt r => ⟨evt, r.1, r.2⟩) es answers

/-- Without new events, the threads get to the end of those that are queued, or to the first one on
which `state` stops the program. -/
theorem Program.Inv.drain {s : Program ι} {ws lost : List Addr} {es more : List Evt}
    (h : s.Inv ws lost (es ++ more)) (answers : List (ℕ × ℤ)) :
    ∃ s' outs rest, Goes localtime s outs s' ∧ outs.filterMap ProgramOut.lost? = [] ∧
      inputsOf es answers = (outs.filterMap ProgramOut.handled?).map Prod.fst ++ rest ∧
      ∀ inp ∈ rest.head?, s'.Stops localtime inp := by
  induction es generalizing s ws lost more answers with
  | nil => exact ⟨s, [], [], .refl s, rfl, rfl, by simp⟩
  | cons evt es ih =>
    cases answers with
    | nil => exact ⟨s, [], [], .refl s, rfl, rfl, by simp⟩
    | cons r answers =>
      rcases h.handles localtime r.1 r.2 with
        ⟨s', outs, goes, hlost, none, stops⟩ |
          ⟨s₁, outs₁, os, ws₁, lost₁, more₁, goes₁, hlost₁, handled₁, inv₁⟩
      · refine ⟨s', outs, _, goes, hlost, by rw [none]; rfl, ?_⟩
        rintro _ ⟨⟩
        exact stops
      · rw [List.append_eq, List.append_assoc] at inv₁
        obtain ⟨s', outs, rest, goes, hlost, handled, stops⟩ := ih inv₁ answers
        refine ⟨s', outs₁ ++ outs, rest, goes₁.trans goes, by simp [hlost₁, hlost], ?_, stops⟩
        rw [List.filterMap_append, handled₁, List.map_append, List.append_assoc, ← handled]
        rfl

/-- The events that a run has queued and not handled. -/
def pendingOf (outs : List ProgramOut) : List Evt :=
  (outs.filterMap ProgramOut.queued?).drop (outs.filterMap ProgramOut.handled?).length

/-- There is no deadlock: from every state that a run reaches, whatever the clock and the MQTT
library are going to answer, the threads can go on without a new event and without a loss until
`state` has been called with every pending event, in order and with these answers, or until
`evt_handler` has the first event on which `state` stops the program with its answers. -/
theorem program_drains (localtime : ℕ → Tm) (sipPeer : CString.CStr) (uartFd : ℤ)
    {steps : List (ProgramStep ι)} {p q : List (ProgramMove ι)}
    (split : programTrace localtime sipPeer uartFd steps = p ++ q) (answers : List (ℕ × ℤ)) :
    ∃ s' outs rest, Goes localtime (final (initProgram sipPeer uartFd) p) outs s' ∧
      outs.filterMap ProgramOut.lost? = [] ∧
      inputsOf (pendingOf (outsOf p)) answers =
        (outs.filterMap ProgramOut.handled?).map Prod.fst ++ rest ∧
      ∀ inp ∈ rest.head?, s'.Stops localtime inp := by
  obtain ⟨ws, es, inv, hist, -⟩ := programTrace_accounted split
  have pending : pendingOf (outsOf p) = es := by
    rw [pendingOf, hist, List.drop_left' (List.length_map _)]
  rw [pending]
  rw [← List.append_nil es] at inv
  exact inv.drain answers

/-- A producer queues two events, and is at the end of the second `queue_add`. -/
def sampleProgram : List (ProgramStep Unit) :=
  [.produce () 7 sampleCalling.evt, .lock (some ()), .body (some ()) (some (1, ⟨none, 0, none⟩)),
    .unlock (some ()), .produce () 8 sampleRecalling.evt, .lock (some ()),
    .body (some ()) (some (2, ⟨none, 0, none⟩))]

/-- Both are pending, and `evt_handler` gets to them. -/
theorem program_drains_sample :
    pendingOf (outsOf (programTrace sampleLocaltime samplePeer 3 sampleProgram)) =
        [sampleCalling.evt, sampleRecalling.evt] ∧
      ∃ s' outs rest, Goes sampleLocaltime (final (initProgram samplePeer 3)
          (programTrace sampleLocaltime samplePeer 3 sampleProgram)) outs s' ∧
        outs.filterMap ProgramOut.lost? = [] ∧
        inputsOf (pendingOf (outsOf (programTrace sampleLocaltime samplePeer 3 sampleProgram)))
            [(5, 0), (6, 0)] =
          (outs.filterMap ProgramOut.handled?).map Prod.fst ++ rest ∧
        ∀ inp ∈ rest.head?, s'.Stops sampleLocaltime inp :=
  ⟨by decide, program_drains sampleLocaltime samplePeer 3 (List.append_nil _).symm [(5, 0), (6, 0)]⟩

end Siproxy
