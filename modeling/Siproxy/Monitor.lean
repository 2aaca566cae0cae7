import Siproxy.Queue

/-!
# Sleepers and wake-ups

The threads around one queue, at the steps of its monitor: to ask for the mutex, to get it, to run
the critical section up to the next operation on the mutex or the condition, to wake up and to
unlock.  A thread may wake up at any time, and takes the mutex again before it goes on.

`queue_add` broadcasts the condition only when `length` was `0`.  `no_lost_wakeup`: nevertheless no
thread sleeps through a message, as a thread goes to sleep only when the list is empty, and the
message that ends this state is the one that is broadcast.
-/

namespace Siproxy

open Heap Machine

variable {ι α : Type} [DecidableEq ι]

/-- Where a thread is.  `timed` tells whether `queue_get` was given a timeout. -/
inductive Pc (α : Type) where
  /-- In none of the operations. -/
  | out
  /-- At `pthread_mutex_lock` of `queue_add`, and behind it. -/
  | addLock (data : Option α) (msgtype : ℤ)
  | addBody (data : Option α) (msgtype : ℤ)
  /-- At `pthread_mutex_lock` of `queue_get`. -/
  | getLock (timed : Bool)
  /-- At the condition of the loop, with the mutex. -/
  | getTest (timed timedOut : Bool)
  /-- In `pthread_cond_wait` or `pthread_cond_timedwait`. -/
  | asleep (timed notified : Bool)
  /-- Woken up, and without the mutex. -/
  | woken (timed timedOut : Bool)
  /-- At `pthread_mutex_unlock`. -/
  | unlock

/-- The queue, the thread that has the mutex, and all threads. -/
structure Monitor (ι α : Type) where
  queue : Queue α
  owner : Option ι
  pc : ι → Pc α

def initMonitor : Monitor ι α := ⟨queueInit, none, fun _ => .out⟩

/-- A step of a thread. -/
inductive MonitorStep (ι α : Type) where
  | add (t : ι) (data : Option α) (msgtype : ℤ)
  | get (t : ι) (timed : Bool)
  | lock (t : ι)
  | body (t : ι) (malloc : Option (Addr × MsgNode α))
  /-- After a broadcast, without one, or as the timeout has passed. -/
  | wake (t : ι) (timedOut : Bool)
  | unlock (t : ι)

/-- A thread moves on. -/
def Monitor.goto (s : Monitor ι α) (t : ι) (p : Pc α) : Monitor ι α :=
  { s with pc := Function.update s.pc t p }

/-- `pthread_cond_broadcast`: every sleeper is notified. -/
def Pc.notify : Pc α → Pc α
  | .asleep timed _ => .asleep timed true
  | p => p

def Monitor.broadcast (s : Monitor ι α) : Monitor ι α := { s with pc := fun u => (s.pc u).notify }

/-- The critical section of `queue_add`. -/
def addSection (s : Monitor ι α) (t : ι) (malloc : Option (Addr × MsgNode α)) (data : Option α)
    (msgtype : ℤ) : Except Stuck (Monitor ι α × List (QueueOut α)) :=
  if s.queue.canMalloc malloc then
    match queueAdd s.queue malloc data msgtype with
    | none => .error .fault
    | some (q, .enomem, _) => .ok (Monitor.goto { s with queue := q } t .unlock, [.enomem])
    | some (q, .zero, broadcast) =>
      let s := if broadcast then s.broadcast else s
      .ok (Monitor.goto { s with queue := q } t .unlock, [.added data msgtype])
  else .error .impossible

/-- The critical section of `queue_get` from the condition of the loop on; to wait gives the mutex
back. -/
def getSection (s : Monitor ι α) (t : ι) (timed timedOut : Bool) :
    Except Stuck (Monitor ι α × List (QueueOut α)) :=
  match queueGet s.queue timedOut with
  | none => .error .fault
  | some (q, .waits) =>
    .ok (Monitor.goto { s with queue := q, owner := none } t (.asleep timed false), [])
  | some (q, .etimedout) => .ok (Monitor.goto { s with queue := q } t .unlock, [.etimedout])
  | some (q, .msg m) => .ok (Monitor.goto { s with queue := q } t .unlock, [.got m])

/-- One step of the monitor. -/
def monitorStep (s : Monitor ι α) :
    MonitorStep ι α → Except Stuck (Monitor ι α × List (QueueOut α))
  | .add t data msgtype =>
    match s.pc t with
    | .out => .ok (s.goto t (.addLock data msgtype), [])
    | _ => .error .impossible
  | .get t timed =>
    match s.pc t with
    | .out => .ok (s.goto t (.getLock timed), [])
    | _ => .error .impossible
  | .lock t =>
    match s.owner, s.pc t with
    | none, .addLock data msgtype =>
      .ok (Monitor.goto { s with owner := some t } t (.addBody data msgtype), [])
    | none, .getLock timed =>
      .ok (Monitor.goto { s with owner := some t } t (.getTest timed false), [])
    | none, .woken timed timedOut =>
      .ok (Monitor.goto { s with owner := some t } t (.getTest timed timedOut), [])
    | _, _ => .error .impossible
  | .body t malloc =>
    if s.owner = some t then
      match s.pc t with
      | .addBody data msgtype => addSection s t malloc data msgtype
      | .getTest timed timedOut => getSection s t timed timedOut
      | _ => .error .impossible
    else .error .impossible
  | .wake t timedOut =>
    match s.pc t with
    | .asleep timed _ =>
      if timedOut = true → timed = true then .ok (s.goto t (.woken timed timedOut), [])
      else .error .impossible
    | _ => .error .impossible
  | .unlock t =>
    match s.pc t with
    | .unlock => .ok (Monitor.goto { s with owner := none } t .out, [])
    | _ => .error .impossible

/-- A recorded step of the monitor. -/
abbrev MonitorMove (ι α : Type) := Move (Monitor ι α) (MonitorStep ι α) (QueueOut α)

abbrev monitorTrace (steps : List (MonitorStep ι α)) : List (MonitorMove ι α) :=
  trace monitorStep initMonitor steps

/-- The thread sleeps, and was not notified since it went to sleep. -/
def Pc.Unnotified : Pc α → Prop
  | .asleep _ notified => notified = false
  | _ => False

/-- Nobody sleeps through a message. -/
def Monitor.Awake (s : Monitor ι α) : Prop :=
  s.queue.first ≠ none → ∀ t, ¬ (s.pc t).Unnotified

theorem Pc.notify_notified (p : Pc α) : ¬ p.notify.Unnotified := by
  cases p <;> simp [Pc.notify, Pc.Unnotified]

theorem Monitor.Awake.goto {s : Monitor ι α} (h : s.Awake) {t : ι} {p : Pc α}
    (hp : ¬ p.Unnotified) : (s.goto t p).Awake := by
  intro full u
  by_cases hu : u = t
  · simpa [Monitor.goto, hu] using hp
  · simpa [Monitor.goto, hu] using h full u

/-- The lists of the queue are in order, and nobody sleeps through a message. -/
structure Monitor.Inv (s : Monitor ι α) : Prop where
  sound : s.queue.Sound
  awake : s.Awake

omit [DecidableEq ι] in
theorem initMonitor_inv : (initMonitor : Monitor ι α).Inv :=
  ⟨queueInit_sound, fun full => absurd rfl full⟩

theorem Monitor.Inv.goto {s : Monitor ι α} (h : s.Inv) (o : Option ι) {t : ι} {p : Pc α}
    (hp : ¬ p.Unnotified) : (Monitor.goto { s with owner := o } t p).Inv := by
  have awake : Monitor.Awake { s with owner := o } := h.awake
  exact ⟨h.sound, awake.goto hp⟩

theorem Monitor.Inv.addSection {s s' : Monitor ι α} (h : s.Inv) {t : ι}
    {malloc : Option (Addr × MsgNode α)} {data : Option α} {msgtype : ℤ}
    {outs : List (QueueOut α)} (taken : addSection s t malloc data msgtype = .ok (s', outs)) :
    s'.Inv := by
  obtain ⟨qs, ps, inv⟩ := h.sound
  unfold Siproxy.addSection at taken
  split_ifs at taken with can
  have fresh : ∀ r ∈ malloc, s.queue.heap r.1 = none := by
    rintro r rfl
    simpa [Queue.canMalloc] using can
  rcases queueAdd_spec inv fresh data msgtype with ⟨-, hadd⟩ | ⟨q, a, ps', hadd, inv', -⟩
  · simp only [hadd] at taken
    cases taken
    exact h.goto s.owner not_false
  · simp only [hadd] at taken
    cases taken
    refine ⟨⟨_, _, inv'⟩, ?_⟩
    have awake : ∀ u, ¬ ((if s.queue.length = 0 then s.broadcast else s).pc u).Unnotified := by
      intro u
      split_ifs with hlen
      · exact Pc.notify_notified _
      · exact h.awake (fun hf => hlen (inv.first_eq_none_iff.1 hf)) u
    refine Monitor.Awake.goto (p := .unlock) ?_ not_false
    intro _ u
    simpa using awake u

theorem Monitor.Inv.getSection {s s' : Monitor ι α} (h : s.Inv) {t : ι} {timed timedOut : Bool}
    {outs : List (QueueOut α)} (taken : getSection s t timed timedOut = .ok (s', outs)) :
    s'.Inv := by
  obtain ⟨qs, ps, inv⟩ := h.sound
  unfold Siproxy.getSection at taken
  rcases queueGet_spec inv timedOut with ⟨hget, hqs⟩ | ⟨hget, -⟩ |
    ⟨q, a, rest, ps', m, hget, hqs, inv', -⟩
  · simp only [hget] at taken
    cases taken
    refine ⟨h.sound, fun full => absurd ?_ full⟩
    exact inv.queue.none_iff.2 hqs
  · simp only [hget] at taken
    cases taken
    exact h.goto s.owner not_false
  · simp only [hget] at taken
    cases taken
    have before : s.queue.first ≠ none := by
      rw [ne_eq, inv.queue.none_iff, hqs]
      simp
    have awake : Monitor.Awake { s with queue := q } := fun _ => h.awake before
    exact ⟨⟨_, _, inv'⟩, awake.goto not_false⟩

theorem Monitor.Inv.step {s s' : Monitor ι α} (h : s.Inv) {step : MonitorStep ι α}
    {outs : List (QueueOut α)} (taken : monitorStep s step = .ok (s', outs)) : s'.Inv := by
  cases step with
  | add t data msgtype =>
    simp only [monitorStep] at taken
    split at taken
    · cases taken
      exact h.goto s.owner not_false
    · cases taken
  | get t timed =>
    simp only [monitorStep] at taken
    split at taken
    · cases taken
      exact h.goto s.owner not_false
    · cases taken
  | lock t =>
    simp only [monitorStep] at taken
    split at taken
    · cases taken
      exact h.goto (some t) not_false
    · cases taken
      exact h.goto (some t) not_false
    · cases taken
      exact h.goto (some t) not_false
    · cases taken
  | body t malloc =>
    simp only [monitorStep] at taken
    split_ifs at taken
    split at taken
    · exact h.addSection taken
    · exact h.getSection taken
    · cases taken
  | wake t timedOut =>
    simp only [monitorStep] at taken
    split at taken
    · split_ifs at taken
      cases taken
      exact h.goto s.owner not_false
    · cases taken
  | unlock t =>
    simp only [monitorStep] at taken
    split at taken
    · cases taken
      exact h.goto none not_false
    · cases taken

/-- For any threads and any interleaving of the steps of the monitor, it never happens that the
queue is not empty while a thread sleeps that was not notified since it went to sleep. -/
theorem no_lost_wakeup (steps : List (MonitorStep ι α)) :
    ∀ m ∈ monitorTrace steps, m.pre.Awake ∧ m.post.Awake := by
  intro m hm
  obtain ⟨before, after⟩ := trace_invariant Monitor.Inv initMonitor_inv
    (fun s step s' outs h taken => h.step taken) hm
  exact ⟨before.awake, after.awake⟩

/-- A consumer goes to sleep, and a producer adds a message. -/
def sampleSteps : List (MonitorStep Bool ℕ) :=
  [.get false false, .lock false, .body false none, .add true (some 7) 0, .lock true,
    .body true (some (1, ⟨none, 0, none⟩))]

/-- The consumer is notified. -/
theorem no_lost_wakeup_sample :
    ∃ m ∈ monitorTrace sampleSteps, m.post.queue.first = some 1 ∧
      m.post.pc false = .asleep false true ∧ m.pre.Awake ∧ m.post.Awake := by
  have last : ∃ m, (monitorTrace sampleSteps).getLast? = some m ∧ m.post.queue.first = some 1 ∧
      m.post.pc false = .asleep false true := ⟨_, rfl, rfl, rfl⟩
  obtain ⟨m, hm, hfirst, hpc⟩ := last
  have mem := List.mem_of_getLast? hm
  exact ⟨m, mem, hfirst, hpc, no_lost_wakeup sampleSteps m mem⟩

end Siproxy
