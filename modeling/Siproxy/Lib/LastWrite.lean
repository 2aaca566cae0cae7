import Mathlib.Data.List.Induction
import Mathlib.Data.List.Nodup
import Mathlib.Logic.Function.Basic
import Mathlib.Tactic.Common

/-!
# Stores that keep the last write

A store keeps for each key the last value written.  `AllKept` says that every value of a log of
writes is still in the store under some key; for a log that writes no key twice it always holds.
-/

namespace LastWrite

variable {κ ν : Type} [DecidableEq κ]

/-- A value is written. -/
def put (s : κ → Option ν) (w : κ × ν) : κ → Option ν := Function.update s w.1 (some w.2)

/-- The store after a log of writes. -/
def after (ws : List (κ × ν)) : κ → Option ν := ws.foldl put fun _ => none

theorem after_concat (ws : List (κ × ν)) (w : κ × ν) :
    after (ws ++ [w]) = put (after ws) w := by
  simp [after]

theorem split_concat {α : Type} {ws pre post : List α} {w x : α}
    (h : ws ++ [w] = pre ++ x :: post) :
    (ws = pre ∧ w = x ∧ post = []) ∨ ∃ post', post = post' ++ [w] ∧ ws = pre ++ x :: post' := by
  rcases List.eq_nil_or_concat post with rfl | ⟨post', y, rfl⟩
  · obtain ⟨hpre, heq⟩ := List.append_inj' h rfl
    exact .inl ⟨hpre, List.singleton_inj.1 heq, rfl⟩
  · have longer : ws ++ [w] = (pre ++ x :: post') ++ [y] := by simpa using h
    obtain ⟨hws, heq⟩ := List.append_inj' longer rfl
    exact .inr ⟨post', by rw [List.singleton_inj.1 heq, List.concat_eq_append], hws⟩

/-- What is stored for a key is the last value written to it. -/
theorem after_eq_some_iff {ws : List (κ × ν)} {k : κ} {v : ν} :
    after ws k = some v ↔ ∃ pre post, ws = pre ++ (k, v) :: post ∧ k ∉ post.map Prod.fst := by
  induction ws using List.reverseRecOn with
  | nil => simp [after]
  | append_singleton ws w ih =>
    obtain ⟨l, x⟩ := w
    rw [after_concat, put]
    by_cases hk : k = l
    · subst hk
      rw [Function.update_self]
      constructor
      · intro h
        cases h
        exact ⟨ws, [], rfl, List.not_mem_nil⟩
      · rintro ⟨pre, post, split, new⟩
        rcases split_concat split with ⟨-, heq, -⟩ | ⟨post, rfl, -⟩
        · cases heq
          rfl
        · -- the last write has the same key
          exact absurd (by simp) new
    · rw [Function.update_of_ne hk, ih]
      constructor
      · rintro ⟨pre, post, rfl, new⟩
        exact ⟨pre, post ++ [(l, x)], by simp, by simpa [hk] using new⟩
      · rintro ⟨pre, post, split, new⟩
        rcases split_concat split with ⟨-, heq, -⟩ | ⟨post, rfl, hws⟩
        · cases heq
          exact absurd rfl hk
        · rw [List.map_append, List.mem_append, not_or] at new
          exact ⟨pre, post, hws, new.1⟩

/-- Every value written is stored under some key. -/
def AllKept (ws : List (κ × ν)) : Prop := ∀ w ∈ ws, ∃ k, after ws k = some w.2

/-- For every value written there is a write of it whose key is not written again. -/
def LastOfKey (ws : List (κ × ν)) : Prop :=
  ∀ w ∈ ws, ∃ pre k post, ws = pre ++ (k, w.2) :: post ∧ k ∉ post.map Prod.fst

theorem allKept_iff {ws : List (κ × ν)} : AllKept ws ↔ LastOfKey ws := by
  have kept (v : ν) : (∃ k, after ws k = some v) ↔
      ∃ pre k post, ws = pre ++ (k, v) :: post ∧ k ∉ post.map Prod.fst := by
    simp only [after_eq_some_iff]
    exact exists_comm
  exact forall₂_congr fun w _ => kept w.2

omit [DecidableEq κ] in
/-- If no key is written twice, nothing is lost. -/
theorem lastOfKey_of_nodup {ws : List (κ × ν)} (h : (ws.map Prod.fst).Nodup) : LastOfKey ws := by
  intro w hw
  obtain ⟨pre, post, rfl⟩ := List.append_of_mem hw
  rw [List.map_append, List.map_cons] at h
  have tail := (List.nodup_append.1 h).2.1
  exact ⟨pre, w.1, post, rfl, (List.nodup_cons.1 tail).1⟩

omit [DecidableEq κ] in
/-- Other keys for the same writes, with an injective renaming. -/
theorem lastOfKey_map_iff {κ' : Type} {f : κ → κ'} (inj : Function.Injective f)
    {ws : List (κ × ν)} :
    LastOfKey (ws.map fun w => (f w.1, w.2)) ↔ LastOfKey ws := by
  have keys (post : List (κ × ν)) (k : κ) :
      f k ∈ (post.map fun w => (f w.1, w.2)).map Prod.fst ↔ k ∈ post.map Prod.fst := by
    rw [List.map_map]
    constructor
    · intro h
      obtain ⟨w, hw, heq⟩ := List.mem_map.1 h
      exact List.mem_map.2 ⟨w, hw, inj heq⟩
    · intro h
      obtain ⟨w, hw, rfl⟩ := List.mem_map.1 h
      exact List.mem_map.2 ⟨w, hw, rfl⟩
  constructor
  · intro h w hw
    obtain ⟨pre', k', post', split, new⟩ := h (f w.1, w.2) (List.mem_map.2 ⟨w, hw, rfl⟩)
    obtain ⟨pre, rest, rfl, -, hrest⟩ := List.map_eq_append_iff.1 split
    obtain ⟨x, post, rfl, hx, rfl⟩ := List.map_eq_cons_iff.1 hrest
    obtain ⟨rfl, hv⟩ := Prod.mk.inj hx
    refine ⟨pre, x.1, post, ?_, fun hmem => new ((keys post x.1).2 hmem)⟩
    rw [← hv]
  · intro h w hw
    obtain ⟨x, hx, rfl⟩ := List.mem_map.1 hw
    obtain ⟨pre, k, post, rfl, new⟩ := h x hx
    exact ⟨_, f k, _, List.map_append.trans (congrArg _ List.map_cons),
      fun hmem => new ((keys post k).1 hmem)⟩

end LastWrite
