import Mathlib.Data.List.ReduceOption
import Mathlib.Tactic.Common

/-!
# Results that need memory

A run goes through inputs of which some have a result, and asks an allocator once for each result;
a result for which no memory is left is lost.  `allot heap rs` is what remains of the results `rs`,
with `none` for an input without a result, when `heap` lists the answers of the allocator; behind
its end every answer is positive.

`Aligned` compares two such lists input by input: it says that the results come from the same
inputs, not only that they are equal one after the other.
-/

namespace Allot

variable {β γ : Type}

/-- The results for which memory is left. -/
def allot : List Bool → List (Option β) → List (Option β)
  | _, [] => []
  | heap, none :: rs => none :: allot heap rs
  | heap, some b :: rs => (if heap.headD true then some b else none) :: allot heap.tail rs

/-- The first `n` answers are positive. -/
def Granted (heap : List Bool) (n : ℕ) : Prop := ∀ ok ∈ heap.take n, ok = true

/-- The first `n` answers are negative. -/
def Denied (heap : List Bool) (n : ℕ) : Prop := heap.take n = List.replicate n false

instance (heap : List Bool) (n : ℕ) : Decidable (Granted heap n) :=
  inferInstanceAs (Decidable (∀ ok ∈ heap.take n, ok = true))

instance (heap : List Bool) (n : ℕ) : Decidable (Denied heap n) :=
  inferInstanceAs (Decidable (_ = _))

@[simp]
theorem granted_zero (heap : List Bool) : Granted heap 0 := by simp [Granted]

@[simp]
theorem denied_zero (heap : List Bool) : Denied heap 0 := rfl

theorem granted_nil (n : ℕ) : Granted [] n := by simp [Granted]

theorem granted_succ (heap : List Bool) (n : ℕ) :
    Granted heap (n + 1) ↔ heap.headD true = true ∧ Granted heap.tail n := by
  cases heap <;> simp [Granted]

theorem denied_succ (heap : List Bool) (n : ℕ) :
    Denied heap (n + 1) ↔ heap.headD true = false ∧ Denied heap.tail n := by
  cases heap <;> simp [Denied, List.replicate_succ]

theorem granted_add (heap : List Bool) (m n : ℕ) :
    Granted heap (m + n) ↔ Granted heap m ∧ Granted (heap.drop m) n := by
  simp only [Granted, List.take_add, List.mem_append, or_imp, forall_and]

@[simp]
theorem length_allot (heap : List Bool) (rs : List (Option β)) :
    (allot heap rs).length = rs.length := by
  fun_induction allot heap rs <;> simp [*]

theorem allot_append (heap : List Bool) (rs rs' : List (Option β)) :
    allot heap (rs ++ rs') = allot heap rs ++ allot (heap.drop rs.reduceOption.length) rs' := by
  fun_induction allot heap rs with
  | case1 heap => simp
  | case2 heap rs ih => simp [allot, ih]
  | case3 heap b rs ih => simp [allot, ih]

theorem allot_map (g : β → γ) (heap : List Bool) (rs : List (Option β)) :
    allot heap (rs.map (Option.map g)) = (allot heap rs).map (Option.map g) := by
  fun_induction allot heap rs with
  | case1 heap => rfl
  | case2 heap rs ih => simp [allot, ih]
  | case3 heap b rs ih =>
    simp only [List.map_cons, Option.map_some, allot, ih]
    split_ifs <;> rfl

/-- Nothing is lost exactly if memory is left for every result. -/
theorem allot_eq_self_iff {heap : List Bool} {rs : List (Option β)} :
    allot heap rs = rs ↔ Granted heap rs.reduceOption.length := by
  fun_induction allot heap rs with
  | case1 heap => simp
  | case2 heap rs ih => simpa using ih
  | case3 heap b rs ih =>
    rw [List.cons.injEq, ih, List.reduceOption_cons_of_some, List.length_cons, granted_succ]
    cases heap.headD true <;> simp

/-- Everything is lost exactly if no memory is left for any result. -/
theorem allot_none_iff {heap : List Bool} {rs : List (Option β)} :
    (∀ r ∈ allot heap rs, r = none) ↔ Denied heap rs.reduceOption.length := by
  fun_induction allot heap rs with
  | case1 heap => simp
  | case2 heap rs ih => simpa using ih
  | case3 heap b rs ih =>
    rw [List.forall_mem_cons, ih, List.reduceOption_cons_of_some, List.length_cons, denied_succ]
    cases heap.headD true <;> simp

/-! ### The same results of the same inputs -/

/-- Each input has the same result in both lists; an input behind the end of a list has none. -/
def Aligned (rs rs' : List (Option β)) : Prop := ∀ k : ℕ, rs[k]?.join = rs'[k]?.join

@[refl]
theorem Aligned.refl (rs : List (Option β)) : Aligned rs rs := fun _ => rfl

@[symm]
theorem Aligned.symm {rs rs' : List (Option β)} (h : Aligned rs rs') : Aligned rs' rs :=
  fun k => (h k).symm

theorem aligned_comm {rs rs' : List (Option β)} : Aligned rs rs' ↔ Aligned rs' rs :=
  ⟨Aligned.symm, Aligned.symm⟩

theorem Aligned.trans {a b c : List (Option β)} (h : Aligned a b) (h' : Aligned b c) :
    Aligned a c := fun k => (h k).trans (h' k)

@[simp]
theorem aligned_nil_left {rs : List (Option β)} : Aligned [] rs ↔ ∀ r ∈ rs, r = none := by
  constructor
  · intro h r hr
    obtain ⟨k, hk⟩ := List.mem_iff_getElem?.1 hr
    have at_k := h k
    rw [hk] at at_k
    exact at_k.symm
  · intro h k
    rcases hk : rs[k]? with _ | r
    · rfl
    · rw [h r (List.mem_of_getElem? hk)]
      rfl

@[simp]
theorem aligned_nil_right {rs : List (Option β)} : Aligned rs [] ↔ ∀ r ∈ rs, r = none :=
  aligned_comm.trans aligned_nil_left

theorem aligned_none_right {rs rs' : List (Option β)} (h : ∀ r ∈ rs', r = none) :
    Aligned rs rs' ↔ ∀ r ∈ rs, r = none := by
  rw [← aligned_nil_right] at h ⊢
  exact ⟨fun h' => h'.trans h, fun h' => h'.trans h.symm⟩

theorem aligned_cons {r r' : Option β} {rs rs' : List (Option β)} :
    Aligned (r :: rs) (r' :: rs') ↔ r = r' ∧ Aligned rs rs' := by
  constructor
  · exact fun h => ⟨h 0, fun k => h (k + 1)⟩
  · rintro ⟨rfl, h⟩ (_ | k)
    · rfl
    · exact h k

theorem aligned_append {a b rs rs' : List (Option β)} (len : a.length = b.length) :
    Aligned (a ++ rs) (b ++ rs') ↔ a = b ∧ Aligned rs rs' := by
  induction a generalizing b with
  | nil =>
    obtain rfl := List.length_eq_zero_iff.1 len.symm
    simp
  | cons r a ih =>
    rcases b with _ | ⟨r', b⟩
    · cases len
    · rw [List.cons_append, List.cons_append, aligned_cons, ih (Nat.succ.inj len),
        List.cons.injEq, and_assoc]

theorem reduceOption_eq_nil_iff {rs : List (Option β)} :
    rs.reduceOption = [] ↔ ∀ r ∈ rs, r = none := by
  simp [List.reduceOption, List.filterMap_eq_nil_iff]

/-- The results are then equal one after the other. -/
theorem Aligned.reduceOption_eq {rs rs' : List (Option β)} (h : Aligned rs rs') :
    rs.reduceOption = rs'.reduceOption := by
  induction rs generalizing rs' with
  | nil => exact (reduceOption_eq_nil_iff.2 (aligned_nil_left.1 h)).symm
  | cons r rs ih =>
    rcases rs' with _ | ⟨r', rs'⟩
    · exact reduceOption_eq_nil_iff.2 (aligned_nil_right.1 h)
    · obtain ⟨rfl, rest⟩ := aligned_cons.1 h
      cases r with
      | none => simpa using ih rest
      | some b => simpa using ih rest

end Allot
