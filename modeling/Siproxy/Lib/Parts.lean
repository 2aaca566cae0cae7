import Mathlib.Data.List.Basic
import Mathlib.Tactic.Common

/-!
# Data in parts

A sequence of items, each of which is a part of some data or something else.  Where the data is cut
into parts does not matter: `merge` joins the parts that stand next to each other, and it does not
matter in which order they are joined (`merge_append_congr`).
-/

namespace Parts

variable {α β : Type}

inductive Item (α β : Type) where
  | part (xs : List α)
  | other (y : β)
  deriving DecidableEq

/-- An item in front of a sequence without adjacent parts. -/
def push : Item α β → List (Item α β) → List (Item α β)
  | .part xs, .part ys :: r => .part (xs ++ ys) :: r
  | s, r => s :: r

/-- Adjacent parts are joined. -/
def merge : List (Item α β) → List (Item α β)
  | [] => []
  | s :: r => push s (merge r)

theorem push_part_push (xs ys : List α) (r : List (Item α β)) :
    push (.part xs) (push (.part ys) r) = push (.part (xs ++ ys)) r := by
  rcases r with _ | ⟨_ | _, r⟩ <;> simp [push]

theorem merge_append (l r : List (Item α β)) : merge (l ++ r) = l.foldr push (merge r) := by
  induction l with
  | nil => rfl
  | cons s l ih => rw [List.cons_append, merge, ih, List.foldr_cons]

theorem foldr_push (s : Item α β) (l r : List (Item α β)) :
    (push s l).foldr push r = push s (l.foldr push r) := by
  cases s with
  | other y => rfl
  | part xs =>
    rcases l with _ | ⟨ys | y, l⟩
    · rfl
    · exact (push_part_push xs ys (l.foldr push r)).symm
    · rfl

theorem foldr_merge (l r : List (Item α β)) : (merge l).foldr push r = l.foldr push r := by
  induction l with
  | nil => rfl
  | cons s l ih => rw [merge, foldr_push, ih, List.foldr_cons]

theorem merge_append_congr {l l' r r' : List (Item α β)} (hl : merge l = merge l')
    (hr : merge r = merge r') : merge (l ++ r) = merge (l' ++ r') := by
  rw [merge_append, merge_append, hr, ← foldr_merge l, hl, foldr_merge]

theorem merge_part_append (xs ys : List α) (r : List (Item α β)) :
    merge (.part xs :: .part ys :: r) = merge (.part (xs ++ ys) :: r) := by
  simp only [merge, push_part_push]

/-! ### Two views of a sequence -/

/-- All the data. -/
def parts : List (Item α β) → List α
  | [] => []
  | .part xs :: s => xs ++ parts s
  | .other _ :: s => parts s

/-- Everything but the data. -/
def others : List (Item α β) → List β
  | [] => []
  | .part _ :: s => others s
  | .other y :: s => y :: others s

@[simp]
theorem parts_append (s s' : List (Item α β)) : parts (s ++ s') = parts s ++ parts s' := by
  induction s with
  | nil => rfl
  | cons x s ih => cases x <;> simp [parts, ih]

@[simp]
theorem others_append (s s' : List (Item α β)) : others (s ++ s') = others s ++ others s' := by
  induction s with
  | nil => rfl
  | cons x s ih => cases x <;> simp [others, ih]

@[simp]
theorem parts_map_other (ys : List β) : parts (ys.map .other : List (Item α β)) = [] := by
  induction ys with
  | nil => rfl
  | cons y ys ih => exact ih

@[simp]
theorem others_map_other (ys : List β) : others (ys.map .other : List (Item α β)) = ys := by
  induction ys with
  | nil => rfl
  | cons y ys ih => exact congrArg (y :: ·) ih

theorem views_push (x : Item α β) (s : List (Item α β)) :
    parts (push x s) = parts (x :: s) ∧ others (push x s) = others (x :: s) := by
  rcases x with xs | y
  · rcases s with _ | ⟨ys | y, s⟩ <;> simp [push, parts, others]
  · exact ⟨rfl, rfl⟩

/-- Joining parts changes neither of the views. -/
theorem views_merge (s : List (Item α β)) :
    parts (merge s) = parts s ∧ others (merge s) = others s := by
  induction s with
  | nil => exact ⟨rfl, rfl⟩
  | cons x s ih =>
    obtain ⟨data, rest⟩ := ih
    obtain ⟨hdata, hrest⟩ := views_push x (merge s)
    rw [merge, hdata, hrest]
    cases x with
    | part xs => exact ⟨congrArg (xs ++ ·) data, rest⟩
    | other y => exact ⟨data, congrArg (y :: ·) rest⟩

theorem merge_map_other (ys : List β) :
    merge (ys.map .other : List (Item α β)) = ys.map .other := by
  induction ys with
  | nil => rfl
  | cons y ys ih =>
    rw [List.map_cons, merge, ih]
    rfl

/-- A sequence whose joined form has no data has none itself. -/
theorem eq_of_merge_others {s : List (Item α β)} {ys : List β} (h : merge s = ys.map .other) :
    s = ys.map .other := by
  induction s generalizing ys with
  | nil => exact h
  | cons x s ih =>
    cases x with
    | part xs =>
      cases hs : merge s with
      | nil =>
        rw [merge, hs] at h
        cases ys <;> cases h
      | cons y r => cases y <;> (rw [merge, hs] at h; cases ys <;> cases h)
    | other y =>
      cases ys with
      | nil => cases h
      | cons y' ys =>
        obtain ⟨hy, hs⟩ := List.cons.inj h
        rw [List.map_cons, ih hs, hy]

end Parts
