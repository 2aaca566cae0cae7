import Mathlib.Data.List.Basic
import Mathlib.Data.List.Induction
import Mathlib.Tactic.Common

/-!
# Machines with outputs that may halt

A machine reads one input at a time, moves to a new state and emits a list of outputs, or halts
with a reason.  `trace step s is` is the list of the steps taken on the inputs `is` from `s`: it
ends where the machine halts, so that every prefix of every run is the trace of some input list.
`final s tr` is the state in which a trace ends, and `run step s is` is the result of a run that
never halts.

The rule of the file is `trace_history`: a property of the history and the state that holds at the
start and is kept by every step holds at every prefix of every trace.
-/

namespace Machine

variable {σ ι ω ε : Type}

/-! ### Computations that may fail -/

section Except

variable {α β : Type} {x : Except ε α} {b : β} {e : ε}

theorem bind_eq_ok {f : α → Except ε β} : (x >>= f) = .ok b ↔ ∃ a, x = .ok a ∧ f a = .ok b := by
  cases x <;> simp [bind, Except.bind]

theorem bind_eq_error {f : α → Except ε β} :
    (x >>= f) = .error e ↔ x = .error e ∨ ∃ a, x = .ok a ∧ f a = .error e := by
  cases x <;> simp [bind, Except.bind]

theorem map_eq_ok {f : α → β} : x.map f = .ok b ↔ ∃ a, x = .ok a ∧ f a = b := by
  cases x <;> simp [Except.map]

theorem map_eq_error {f : α → β} : x.map f = .error e ↔ x = .error e := by
  cases x <;> simp [Except.map]

end Except

/-! ### Traces and runs -/

/-- One recorded step: the state before, the input, the outputs and the state after. -/
structure Move (σ ι ω : Type) where
  pre : σ
  input : ι
  outs : List ω
  post : σ
  deriving DecidableEq

variable (step : σ → ι → Except ε (σ × List ω))

/-- The steps taken on a list of inputs, up to the first one on which the machine halts. -/
def trace : σ → List ι → List (Move σ ι ω)
  | _, [] => []
  | s, i :: is =>
    match step s i with
    | .error _ => []
    | .ok (s', o) => ⟨s, i, o, s'⟩ :: trace s' is

/-- The reason why a run halts, if it does. -/
def halt? : σ → List ι → Option ε
  | _, [] => none
  | s, i :: is =>
    match step s i with
    | .error e => some e
    | .ok (s', _) => halt? s' is

/-- The state and all outputs of a run that does not halt. -/
def run : σ → List ι → Except ε (σ × List ω)
  | s, [] => .ok (s, [])
  | s, i :: is =>
    match step s i with
    | .error e => .error e
    | .ok (s', o) =>
      match run s' is with
      | .error e => .error e
      | .ok (t, os) => .ok (t, o ++ os)

/-- The state in which a trace ends. -/
def final (s : σ) (tr : List (Move σ ι ω)) : σ := tr.foldl (fun _ m => m.post) s

@[simp]
theorem final_nil (s : σ) : final s ([] : List (Move σ ι ω)) = s := rfl

@[simp]
theorem final_cons (s : σ) (m : Move σ ι ω) (tr : List (Move σ ι ω)) :
    final s (m :: tr) = final m.post tr := rfl

@[simp]
theorem final_concat (s : σ) (tr : List (Move σ ι ω)) (m : Move σ ι ω) :
    final s (tr ++ [m]) = m.post := by
  simp [final]

variable {step}

theorem trace_eq_cons {s : σ} {is : List ι} {m : Move σ ι ω} {tr : List (Move σ ι ω)}
    (h : trace step s is = m :: tr) :
    ∃ js, is = m.input :: js ∧ m.pre = s ∧ step s m.input = .ok (m.post, m.outs) ∧
      trace step m.post js = tr := by
  cases is with
  | nil => simp [trace] at h
  | cons i is =>
    rcases hs : step s i with e | ⟨s', o⟩
    · simp [trace, hs] at h
    · simp only [trace, hs, List.cons.injEq] at h
      obtain ⟨rfl, rfl⟩ := h
      exact ⟨is, rfl, rfl, hs, rfl⟩

/-- Induction along a trace: what holds of the empty history at the start and is kept by every step
of the trace holds of every prefix of it, at the state in which that prefix ends. -/
theorem trace_history (Inv : List (Move σ ι ω) → σ → Prop) {s : σ} {is : List ι} (start : Inv [] s)
    (keep : ∀ h, ∀ m ∈ trace step s is, Inv h m.pre →
      step m.pre m.input = .ok (m.post, m.outs) → Inv (h ++ [m]) m.post)
    {p q : List (Move σ ι ω)} (split : trace step s is = p ++ q) : Inv p (final s p) := by
  have key : ∀ (p : List (Move σ ι ω)) (t : σ) (js : List ι) (h : List (Move σ ι ω)),
      (∀ m ∈ p, m ∈ trace step s is) → Inv h t → trace step t js = p ++ q →
      Inv (h ++ p) (final t p) := by
    intro p
    induction p with
    | nil =>
      intro t js h _ ht _
      simpa using ht
    | cons m p ih =>
      intro t js h sub ht split
      obtain ⟨ks, -, hpre, hstep, rest⟩ := trace_eq_cons split
      subst hpre
      have next := keep h m (sub m List.mem_cons_self) ht hstep
      have := ih m.post ks (h ++ [m]) (fun x hx => sub x (List.mem_cons_of_mem _ hx)) next rest
      simpa using this
  simpa using key p s is [] (fun m hm => by simp [split, hm]) start split

/-- The step that follows a prefix of a trace starts in the state where the prefix ends. -/
theorem trace_split {s : σ} {is : List ι} {p q : List (Move σ ι ω)} {m : Move σ ι ω}
    (split : trace step s is = p ++ m :: q) :
    m.pre = final s p ∧ step m.pre m.input = .ok (m.post, m.outs) := by
  induction p generalizing s is with
  | nil =>
    obtain ⟨js, -, rfl, hstep, -⟩ := trace_eq_cons split
    exact ⟨rfl, hstep⟩
  | cons m' p ih =>
    obtain ⟨js, -, -, -, rest⟩ := trace_eq_cons split
    exact ih rest

/-- What does not hold of the empty history and holds of a whole trace begins to at some step. -/
theorem exists_first (P : List (Move σ ι ω) → Prop) (start : ¬ P []) {tr : List (Move σ ι ω)}
    (h : P tr) : ∃ p m q, tr = p ++ m :: q ∧ ¬ P p ∧ P (p ++ [m]) := by
  induction tr using List.reverseRecOn with
  | nil => exact absurd h start
  | append_singleton tr m ih =>
    by_cases before : P tr
    · obtain ⟨p, m', q, rfl, hp, hm⟩ := ih before
      exact ⟨p, m', q ++ [m], by simp, hp, hm⟩
    · exact ⟨tr, m, [], rfl, before, h⟩

theorem trace_input_mem {s : σ} {is : List ι} {m : Move σ ι ω} (hm : m ∈ trace step s is) :
    m.input ∈ is := by
  induction is generalizing s with
  | nil => simp [trace] at hm
  | cons i is ih =>
    rcases hs : step s i with e | ⟨s', o⟩
    · simp [trace, hs] at hm
    · simp only [trace, hs, List.mem_cons] at hm
      rcases hm with rfl | hm
      · exact List.mem_cons_self
      · exact List.mem_cons_of_mem _ (ih hm)

theorem trace_append {s : σ} {is : List ι} (goes : halt? step s is = none) (js : List ι) :
    trace step s (is ++ js) = trace step s is ++ trace step (final s (trace step s is)) js := by
  induction is generalizing s with
  | nil => rfl
  | cons i is ih =>
    rw [List.cons_append]
    rcases hs : step s i with e | ⟨s', o⟩
    · simp [halt?, hs] at goes
    · simp only [halt?, hs] at goes
      simp only [trace, hs, List.cons_append, final_cons]
      rw [ih goes]

/-- A run that halts does so in the state in which its trace ends. -/
theorem halt_final {s : σ} {is : List ι} {e : ε} (h : halt? step s is = some e) :
    ∃ i ∈ is, step (final s (trace step s is)) i = .error e := by
  induction is generalizing s with
  | nil => simp [halt?] at h
  | cons i is ih =>
    rcases hs : step s i with e' | ⟨s', o⟩
    · simp only [halt?, hs, Option.some.injEq] at h
      refine ⟨i, List.mem_cons_self, ?_⟩
      simp only [trace, hs, final_nil]
      rw [h]
    · simp only [halt?, hs] at h
      obtain ⟨j, mem, halts⟩ := ih h
      refine ⟨j, List.mem_cons_of_mem _ mem, ?_⟩
      simpa only [trace, hs, final_cons] using halts

/-- An invariant of the state alone holds before and after every step of a trace. -/
theorem trace_invariant (Inv : σ → Prop) {s : σ} (start : Inv s)
    (keep : ∀ t i t' o, Inv t → step t i = .ok (t', o) → Inv t') {is : List ι}
    {m : Move σ ι ω} (hm : m ∈ trace step s is) : Inv m.pre ∧ Inv m.post := by
  obtain ⟨p, q, split⟩ := List.append_of_mem hm
  obtain ⟨hpre, hstep⟩ := trace_split split
  have before : Inv (final s p) :=
    trace_history (fun _ t => Inv t) start (fun _ m' _ hi hs => keep _ _ _ _ hi hs) split
  rw [← hpre] at before
  exact ⟨before, keep _ _ _ _ before hstep⟩

/-- A run that halts does so on one of its inputs, in a state that satisfies every invariant. -/
theorem halt_cause (Inv : σ → Prop) {s : σ} {is : List ι} {e : ε} (start : Inv s)
    (keep : ∀ t, ∀ i ∈ is, ∀ t' o, Inv t → step t i = .ok (t', o) → Inv t')
    (h : halt? step s is = some e) : ∃ t, ∃ i ∈ is, Inv t ∧ step t i = .error e := by
  induction is generalizing s with
  | nil => simp [halt?] at h
  | cons i is ih =>
    rcases hs : step s i with e' | ⟨s', o⟩
    · simp only [halt?, hs, Option.some.injEq] at h
      exact ⟨s, i, List.mem_cons_self, start, h ▸ hs⟩
    · simp only [halt?, hs] at h
      obtain ⟨t, j, hj, ht, herr⟩ := ih (keep s i List.mem_cons_self s' o start hs)
        (fun t j hj => keep t j (List.mem_cons_of_mem _ hj)) h
      exact ⟨t, j, List.mem_cons_of_mem _ hj, ht, herr⟩

/-- A run that goes through starts with a step and continues with a run that goes through. -/
theorem run_cons_eq_ok {s t : σ} {i : ι} {is : List ι} {os : List ω} :
    run step s (i :: is) = .ok (t, os) ↔
      ∃ s' o os', step s i = .ok (s', o) ∧ run step s' is = .ok (t, os') ∧ os = o ++ os' := by
  constructor
  · intro h
    rcases hs : step s i with e | ⟨s', o⟩
    · simp [run, hs] at h
    · rcases hr : run step s' is with e | ⟨t', os'⟩
      · simp [run, hs, hr] at h
      · simp only [run, hs, hr, Except.ok.injEq, Prod.mk.injEq] at h
        obtain ⟨rfl, rfl⟩ := h
        exact ⟨s', o, os', rfl, hr, rfl⟩
  · rintro ⟨s', o, os', hs, hr, rfl⟩
    simp [run, hs, hr]

theorem run_singleton {s t : σ} {i : ι} {o : List ω} (h : step s i = .ok (t, o)) :
    run step s [i] = .ok (t, o) :=
  run_cons_eq_ok.2 ⟨t, o, [], h, rfl, (List.append_nil o).symm⟩

theorem run_append {s t u : σ} {is js : List ι} {os os' : List ω}
    (h : run step s is = .ok (t, os)) (h' : run step t js = .ok (u, os')) :
    run step s (is ++ js) = .ok (u, os ++ os') := by
  induction is generalizing s os with
  | nil =>
    simp only [run, Except.ok.injEq, Prod.mk.injEq] at h
    obtain ⟨rfl, rfl⟩ := h
    exact h'
  | cons i is ih =>
    obtain ⟨s', o, os₁, hs, hr, rfl⟩ := run_cons_eq_ok.1 h
    rw [List.cons_append, List.append_assoc]
    exact run_cons_eq_ok.2 ⟨s', o, os₁ ++ os', hs, ih hr, rfl⟩

theorem run_trace {s t : σ} {is : List ι} {os : List ω} (h : run step s is = .ok (t, os)) :
    final s (trace step s is) = t ∧ (trace step s is).flatMap Move.outs = os := by
  induction is generalizing s os with
  | nil =>
    simp only [run, Except.ok.injEq, Prod.mk.injEq] at h
    exact h
  | cons i is ih =>
    obtain ⟨s', o, os', hs, hr, rfl⟩ := run_cons_eq_ok.1 h
    obtain ⟨ends, outs⟩ := ih hr
    simp only [trace, hs, final_cons, List.flatMap_cons]
    exact ⟨ends, by rw [outs]⟩

theorem run_goes {s t : σ} {is : List ι} {os : List ω} (h : run step s is = .ok (t, os)) :
    halt? step s is = none := by
  induction is generalizing s os with
  | nil => rfl
  | cons i is ih =>
    obtain ⟨s', o, os', hs, hr, -⟩ := run_cons_eq_ok.1 h
    simp only [halt?, hs]
    exact ih hr

/-- Forward simulation: where each step of a machine is matched by steps of another one with the same
outputs, each trace is matched by a run, of whose steps the same can be said. -/
theorem simulate {σ' ι' ε' : Type} {step' : σ' → ι' → Except ε' (σ' × List ω)} (R : σ → σ' → Prop)
    (Q : Move σ' ι' ω → Prop) {s : σ} {a : σ'} {is : List ι} (start : R s a)
    (keep : ∀ m ∈ trace step s is, ∀ a, R m.pre a → step m.pre m.input = .ok (m.post, m.outs) →
      ∃ js a', run step' a js = .ok (a', m.outs) ∧ R m.post a' ∧ ∀ m' ∈ trace step' a js, Q m') :
    ∃ js a', run step' a js = .ok (a', (trace step s is).flatMap Move.outs) ∧
      R (final s (trace step s is)) a' ∧ ∀ m' ∈ trace step' a js, Q m' := by
  induction is generalizing s a with
  | nil => exact ⟨[], a, rfl, start, by simp [trace]⟩
  | cons i is ih =>
    rcases hs : step s i with e | ⟨s', o⟩
    · have none : trace step s (i :: is) = [] := by simp [trace, hs]
      rw [none]
      exact ⟨[], a, rfl, start, by simp [trace]⟩
    · have htr : trace step s (i :: is) = ⟨s, i, o, s'⟩ :: trace step s' is := by simp [trace, hs]
      rw [htr] at keep ⊢
      obtain ⟨js, a', first, next, said⟩ := keep ⟨s, i, o, s'⟩ List.mem_cons_self a start hs
      obtain ⟨ks, b, rest, last, said'⟩ := ih next fun m hm => keep m (List.mem_cons_of_mem _ hm)
      refine ⟨js ++ ks, b, run_append first rest, last, fun m' mem => ?_⟩
      rw [trace_append (run_goes first), (run_trace first).1] at mem
      rcases List.mem_append.1 mem with mem | mem
      · exact said m' mem
      · exact said' m' mem

/-- What holds at the start and is kept by every step of the trace holds at the end of the run. -/
theorem run_invariant (Inv : σ → Prop) {s t : σ} {is : List ι} {os : List ω} (start : Inv s)
    (keep : ∀ m ∈ trace step s is, Inv m.pre → step m.pre m.input = .ok (m.post, m.outs) →
      Inv m.post) (h : run step s is = .ok (t, os)) : Inv t := by
  induction is generalizing s os with
  | nil =>
    simp only [run, Except.ok.injEq, Prod.mk.injEq] at h
    exact h.1 ▸ start
  | cons i is ih =>
    obtain ⟨s', o, os', hs, hr, -⟩ := run_cons_eq_ok.1 h
    have htr : trace step s (i :: is) = ⟨s, i, o, s'⟩ :: trace step s' is := by simp [trace, hs]
    rw [htr] at keep
    have next : Inv s' := keep ⟨s, i, o, s'⟩ List.mem_cons_self start hs
    exact ih next (fun m hm => keep m (List.mem_cons_of_mem _ hm)) hr

/-- A run whose steps all lower a measure is no longer than the measure at its start. -/
theorem run_length_le (Inv : σ → Prop) (μ : σ → ℕ) {s t : σ} {is : List ι} {os : List ω}
    (start : Inv s)
    (lower : ∀ t, ∀ i ∈ is, ∀ t' o, Inv t → step t i = .ok (t', o) → Inv t' ∧ μ t' < μ t)
    (h : run step s is = .ok (t, os)) : is.length ≤ μ s := by
  induction is generalizing s os with
  | nil => exact Nat.zero_le _
  | cons i is ih =>
    obtain ⟨s', o, os', hs, hr, -⟩ := run_cons_eq_ok.1 h
    obtain ⟨next, lt⟩ := lower s i List.mem_cons_self s' o start hs
    have rest := ih next (fun t j hj => lower t j (List.mem_cons_of_mem _ hj)) hr
    rw [List.length_cons]
    omega

/-- `Thins drop is js`: the list `js` is `is` without some of the elements that satisfy `drop`. -/
inductive Thins (drop : ι → Prop) : List ι → List ι → Prop
  | nil : Thins drop [] []
  | keep (i : ι) {is js : List ι} (h : Thins drop is js) : Thins drop (i :: is) (i :: js)
  | drop {i : ι} {is js : List ι} (hi : drop i) (h : Thins drop is js) : Thins drop (i :: is) js

theorem trace_cons {s s' : σ} {i : ι} {o : List ω} (h : step s i = .ok (s', o)) (is : List ι) :
    trace step s (i :: is) = ⟨s, i, o, s'⟩ :: trace step s' is := by
  simp [trace, h]

theorem trace_cons_halt {s : σ} {i : ι} {e : ε} (h : step s i = .error e) (is : List ι) :
    trace step s (i :: is) = [] := by
  simp [trace, h]

/-- Inputs on which the machine goes on without a change of the state may be left out: the run halts
or ends as before, in the same state, and shows the same observable outputs. -/
theorem trace_thins {drop : ι → Prop} {obs : ω → Bool}
    (silent : ∀ s i, drop i → ∃ o, step s i = .ok (s, o) ∧ o.filter obs = [])
    {is js : List ι} (thin : Thins drop is js) (s : σ) :
    halt? step s js = halt? step s is ∧
      final s (trace step s js) = final s (trace step s is) ∧
      ((trace step s js).flatMap Move.outs).filter obs =
        ((trace step s is).flatMap Move.outs).filter obs := by
  induction thin generalizing s with
  | nil => exact ⟨rfl, rfl, rfl⟩
  | keep i thin ih =>
    rcases hs : step s i with e | ⟨s', o⟩
    · simp [halt?, trace, hs]
    · obtain ⟨halts, ends, shows⟩ := ih s'
      simp only [halt?, trace_cons hs, hs, final_cons, List.flatMap_cons, List.filter_append]
      exact ⟨halts, ends, by rw [shows]⟩
  | @drop i is js hi thin ih =>
    obtain ⟨o, hs, quiet⟩ := silent s i hi
    obtain ⟨halts, ends, shows⟩ := ih s
    simp only [halt?, trace_cons hs, hs, final_cons, List.flatMap_cons, List.filter_append]
    exact ⟨halts, ends, by rw [quiet, List.nil_append, shows]⟩

/-- If the machine may halt on inputs that are left out, the whole run shows a first part of what is
shown without them. -/
theorem trace_thins_front {drop : ι → Prop} {obs : ω → Bool}
    (silent : ∀ s i s' o, drop i → step s i = .ok (s', o) → s' = s ∧ o.filter obs = [])
    {is js : List ι} (thin : Thins drop is js) (s : σ) :
    ((trace step s is).flatMap Move.outs).filter obs <+:
      ((trace step s js).flatMap Move.outs).filter obs := by
  induction thin generalizing s with
  | nil => exact List.prefix_refl _
  | keep i thin ih =>
    rcases hs : step s i with e | ⟨s', o⟩
    · simp [trace, hs]
    · simp only [trace_cons hs, List.flatMap_cons, List.filter_append]
      exact List.prefix_append_right_inj _ |>.2 (ih s')
  | @drop i is js hi thin ih =>
    rcases hs : step s i with e | ⟨s', o⟩
    · rw [trace_cons_halt hs]
      exact List.nil_prefix
    · obtain ⟨rfl, quiet⟩ := silent s i s' o hi hs
      simp only [trace_cons hs, List.flatMap_cons, List.filter_append, quiet, List.nil_append]
      exact ih s'

/-- A run takes its steps on the first of its inputs, and on all of them unless it halts. -/
theorem trace_inputs (s : σ) (is : List ι) :
    (trace step s is).map Move.input <+: is ∧
      (halt? step s is = none → (trace step s is).map Move.input = is) := by
  induction is generalizing s with
  | nil => exact ⟨List.prefix_refl _, fun _ => rfl⟩
  | cons i is ih =>
    rcases hs : step s i with e | ⟨s', o⟩
    · simp [trace, halt?, hs]
    · obtain ⟨front, all⟩ := ih s'
      simp only [trace_cons hs, halt?, hs, List.map_cons]
      exact ⟨List.cons_prefix_cons.2 ⟨rfl, front⟩, fun goes => by rw [all goes]⟩

/-- A machine whose invariant excludes halting on admissible inputs completes every run. -/
theorem run_total (Inv : σ → Prop) (Adm : ι → Prop) {s : σ} (start : Inv s)
    (progress : ∀ t i, Inv t → Adm i → ∃ t' o, step t i = .ok (t', o) ∧ Inv t')
    (is : List ι) (adm : ∀ i ∈ is, Adm i) :
    ∃ t os, run step s is = .ok (t, os) ∧ Inv t := by
  induction is generalizing s with
  | nil => exact ⟨s, [], rfl, start⟩
  | cons i is ih =>
    obtain ⟨s', o, hs, hinv⟩ := progress s i start (adm i List.mem_cons_self)
    obtain ⟨t, os, hr, ht⟩ := ih hinv fun j hj => adm j (List.mem_cons_of_mem _ hj)
    exact ⟨t, o ++ os, run_cons_eq_ok.2 ⟨s', o, os, hs, hr, rfl⟩, ht⟩

end Machine
