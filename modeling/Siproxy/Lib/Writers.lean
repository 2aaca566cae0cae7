import Mathlib.Data.List.Basic
import Mathlib.Tactic.Common

/-!
# Two writers on one port

Two writers put blocks of items on a port, one item in a step and in any order of steps.  The
port is *unbroken* if what was sent is, up to a block that is not complete yet, a sequence of
whole blocks in which the blocks of each writer keep their order (`Unbroken`).

`unbroken_of_exclusive`: this holds whenever no writer puts an item while the other one is inside a
block.
-/

namespace Writers

variable {α : Type}

/-- The third list is made of the elements of the first two, which keep their order. -/
inductive Shuffle : List α → List α → List α → Prop
  | nil : Shuffle [] [] []
  | left (x : α) {xs ys zs : List α} (h : Shuffle xs ys zs) : Shuffle (x :: xs) ys (x :: zs)
  | right (y : α) {xs ys zs : List α} (h : Shuffle xs ys zs) : Shuffle xs (y :: ys) (y :: zs)

theorem Shuffle.append {xs ys zs xs' ys' zs' : List α} (h : Shuffle xs ys zs)
    (h' : Shuffle xs' ys' zs') : Shuffle (xs ++ xs') (ys ++ ys') (zs ++ zs') := by
  induction h with
  | nil => exact h'
  | left x _ ih => exact .left x ih
  | right y _ ih => exact .right y ih

theorem Shuffle.all_left (xs : List α) : Shuffle xs [] xs := by
  induction xs with
  | nil => exact .nil
  | cons x xs ih => exact .left x ih

theorem Shuffle.all_right (ys : List α) : Shuffle [] ys ys := by
  induction ys with
  | nil => exact .nil
  | cons y ys ih => exact .right y ih

/-- A writer: what is left of the block it is inside of, and the blocks after it. -/
structure Writer (α : Type) where
  now : List α
  todo : List (List α)
  deriving DecidableEq

/-- The first item of the first block that is not empty, and the writer behind it. -/
def begin_ : List (List α) → Option (α × Writer α)
  | [] => none
  | [] :: todo => begin_ todo
  | (x :: now) :: todo => some (x, ⟨now, todo⟩)

/-- The next item of a writer. -/
def Writer.put (w : Writer α) : Option (α × Writer α) :=
  match w.now with
  | x :: now => some (x, ⟨now, w.todo⟩)
  | [] => begin_ w.todo

theorem begin_eq_some {bs : List (List α)} {x : α} {w : Writer α} (h : begin_ bs = some (x, w)) :
    ∃ started, bs = started ++ w.todo ∧ started.flatten = x :: w.now := by
  fun_induction begin_ bs with
  | case1 => cases h
  | case2 todo ih =>
    obtain ⟨started, rfl, hflat⟩ := ih h
    exact ⟨[] :: started, rfl, by simpa using hflat⟩
  | case3 y now todo =>
    cases h
    exact ⟨[x :: now], rfl, by simp⟩

/-- An item is the next one of the block that the writer is inside of, or else of blocks that it
begins. -/
theorem Writer.put_eq_some {w w' : Writer α} {x : α} (h : w.put = some (x, w')) :
    ∃ started, w.todo = started ++ w'.todo ∧ w.now ++ started.flatten = x :: w'.now := by
  unfold Writer.put at h
  split at h
  next y now hnow =>
    cases h
    exact ⟨[], rfl, by simp [hnow]⟩
  next hnow =>
    obtain ⟨started, htodo, hflat⟩ := begin_eq_some h
    exact ⟨started, htodo, by simpa [hnow] using hflat⟩

/-- Which of the two writers. -/
inductive Side where
  | left
  | right
  deriving DecidableEq, Repr

/-- The two writers and what was sent. -/
structure Port (α : Type) where
  left : Writer α
  right : Writer α
  sent : List α
  deriving DecidableEq

namespace Port

/-- Nothing was sent, and each writer has its blocks in front of it. -/
def start (xs ys : List (List α)) : Port α := ⟨⟨[], xs⟩, ⟨[], ys⟩, []⟩

/-- One writer puts its next item, if it has one. -/
def step (c : Port α) : Side → Port α
  | .left =>
    match c.left.put with
    | none => c
    | some (x, w) => { c with left := w, sent := c.sent ++ [x] }
  | .right =>
    match c.right.put with
    | none => c
    | some (x, w) => { c with right := w, sent := c.sent ++ [x] }

/-- The port after a schedule. -/
def run (c : Port α) (sched : List Side) : Port α := sched.foldl step c

/-- The writer whose turn it is not. -/
def other (c : Port α) : Side → Writer α
  | .left => c.right
  | .right => c.left

/-- No step is taken while the other writer is inside a block. -/
def Exclusive : Port α → List Side → Prop
  | _, [] => True
  | c, s :: sched => (c.other s).now = [] ∧ Exclusive (c.step s) sched

instance Exclusive.decidable [DecidableEq α] :
    (c : Port α) → (sched : List Side) → Decidable (Exclusive c sched)
  | _, [] => isTrue trivial
  | c, s :: sched =>
    have := Exclusive.decidable (c.step s) sched
    inferInstanceAs (Decidable ((c.other s).now = [] ∧ Exclusive (c.step s) sched))

/-- Both writers are done. -/
def Idle (c : Port α) : Prop :=
  (c.left.now = [] ∧ c.left.todo = []) ∧ c.right.now = [] ∧ c.right.todo = []

instance [DecidableEq α] (c : Port α) : Decidable c.Idle :=
  inferInstanceAs (Decidable ((c.left.now = [] ∧ c.left.todo = []) ∧
    c.right.now = [] ∧ c.right.todo = []))

/-- What was sent is the beginning of a sequence of whole blocks, and all of it in the end. -/
def Unbroken (xs ys : List (List α)) (c : Port α) : Prop :=
  ∃ order, Shuffle xs ys order ∧ c.sent <+: order.flatten ∧ (c.Idle → c.sent = order.flatten)

/-- The invariant of exclusive steps: the blocks that were begun form a sequence, and what was sent
lacks only the rest of the block that is being written. -/
structure Whole (xs ys : List (List α)) (c : Port α) : Prop where
  begun : ∃ xs' ys' order, xs = xs' ++ c.left.todo ∧ ys = ys' ++ c.right.todo ∧
    Shuffle xs' ys' order ∧ c.sent ++ (c.left.now ++ c.right.now) = order.flatten
  apart : c.left.now = [] ∨ c.right.now = []

theorem whole_start (xs ys : List (List α)) : Whole xs ys (start xs ys) :=
  ⟨⟨[], [], [], rfl, rfl, .nil, rfl⟩, .inl rfl⟩

theorem Whole.step {xs ys : List (List α)} {c : Port α} (h : Whole xs ys c) {s : Side}
    (alone : (c.other s).now = []) : Whole xs ys (c.step s) := by
  obtain ⟨⟨xs', ys', order, hxs, hys, shuffle, hsent⟩, -⟩ := h
  cases s with
  | left =>
    have hright : c.right.now = [] := alone
    simp only [Port.step]
    split
    next => exact ⟨⟨xs', ys', order, hxs, hys, shuffle, hsent⟩, .inr hright⟩
    next x w hput =>
      obtain ⟨started, htodo, hflat⟩ := Writer.put_eq_some hput
      refine ⟨⟨xs' ++ started, ys', order ++ started, ?_, hys, ?_, ?_⟩, .inr hright⟩
      · rw [hxs, htodo, List.append_assoc]
      · simpa using shuffle.append (.all_left started)
      · rw [List.flatten_append, ← hsent, hright]
        simp [hflat]
  | right =>
    have hleft : c.left.now = [] := alone
    simp only [Port.step]
    split
    next => exact ⟨⟨xs', ys', order, hxs, hys, shuffle, hsent⟩, .inl hleft⟩
    next x w hput =>
      obtain ⟨started, htodo, hflat⟩ := Writer.put_eq_some hput
      refine ⟨⟨xs', ys' ++ started, order ++ started, hxs, ?_, ?_, ?_⟩, .inl hleft⟩
      · rw [hys, htodo, List.append_assoc]
      · simpa using shuffle.append (.all_right started)
      · rw [List.flatten_append, ← hsent, hleft]
        simp [hflat]

theorem Whole.run {xs ys : List (List α)} {sched : List Side} {c : Port α} (h : Whole xs ys c)
    (alone : Exclusive c sched) : Whole xs ys (c.run sched) := by
  induction sched generalizing c with
  | nil => exact h
  | cons s sched ih => exact ih (h.step alone.1) alone.2

/-- The blocks that were not begun follow in any order. -/
theorem Whole.unbroken {xs ys : List (List α)} {c : Port α} (h : Whole xs ys c) :
    Unbroken xs ys c := by
  obtain ⟨⟨xs', ys', order, hxs, hys, shuffle, hsent⟩, -⟩ := h
  have rest : Shuffle c.left.todo c.right.todo (c.left.todo ++ c.right.todo) := by
    simpa using (Shuffle.all_left c.left.todo).append (.all_right c.right.todo)
  refine ⟨order ++ (c.left.todo ++ c.right.todo), ?_, ?_, ?_⟩
  · rw [hxs, hys]
    exact shuffle.append rest
  · rw [List.flatten_append, ← hsent, List.append_assoc]
    exact List.prefix_append _ _
  · rintro ⟨⟨hnow, htodo⟩, hnow', htodo'⟩
    rw [hnow, hnow', List.append_nil, List.append_nil] at hsent
    rw [htodo, htodo', List.append_nil, List.append_nil, hsent]

theorem unbroken_of_exclusive {xs ys : List (List α)} {sched : List Side}
    (h : Exclusive (start xs ys) sched) : Unbroken xs ys ((start xs ys).run sched) :=
  ((whole_start xs ys).run h).unbroken

end Port

end Writers
