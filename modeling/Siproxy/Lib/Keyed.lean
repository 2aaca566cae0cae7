import Mathlib.Data.List.Nodup
import Mathlib.Tactic.Common

/-!
# Lists of entries with keys

A list is searched for the first entry with a key, which may be replaced or taken out.  Where the
keys are distinct (`Distinct`), the list is a finite map, and `split` shows it around one entry.
-/

namespace Keyed

variable {α κ : Type} [DecidableEq κ] (key : α → κ)

/-- The first entry with the key. -/
def get (l : List α) (k : κ) : Option α := l.find? fun a => key a = k

/-- The entries with the key are changed. -/
def modify (l : List α) (k : κ) (f : α → α) : List α := l.map fun a => if key a = k then f a else a

/-- The first entry with the key is taken out. -/
def erase (l : List α) (k : κ) : List α := l.eraseP fun a => key a = k

/-- The first entry with the key is changed. -/
def modifyFirst (k : κ) (f : α → α) : List α → List α
  | [] => []
  | a :: l => if key a = k then f a :: l else a :: modifyFirst k f l

/-- No key occurs twice. -/
def Distinct (l : List α) : Prop := (l.map key).Nodup

variable {key} {l : List α} {k : κ} {a : α}

theorem get_mem (h : get key l k = some a) : a ∈ l ∧ key a = k :=
  ⟨List.mem_of_find?_eq_some h, by simpa using List.find?_some h⟩

theorem get_eq_none_iff : get key l k = none ↔ ∀ a ∈ l, key a ≠ k := by simp [get]

theorem get_none_iff_notMem : get key l k = none ↔ k ∉ l.map key := by
  simp [get_eq_none_iff]

theorem get_isSome_iff : (get key l k).isSome ↔ k ∈ l.map key := by
  rw [Option.isSome_iff_ne_none, ne_eq, get_none_iff_notMem, not_not]

theorem get_append (l l' : List α) (k : κ) :
    get key (l ++ l') k = (get key l k).or (get key l' k) := List.find?_append

theorem get_concat (new : get key l (key a) = none) (k : κ) :
    get key (l ++ [a]) k = if k = key a then some a else get key l k := by
  rw [get_append]
  split_ifs with hk
  · rw [hk, new]
    simp [get]
  · simp [get, Ne.symm hk]

theorem get_map {β : Type} {key' : β → κ} {f : α → β} (same : ∀ a, key' (f a) = key a)
    (l : List α) (k : κ) : get key' (l.map f) k = (get key l k).map f := by
  unfold get
  rw [List.find?_map]
  simp only [Function.comp_def, same]

theorem split (distinct : Distinct key l) (h : get key l k = some a) :
    ∃ l₁ l₂, l = l₁ ++ a :: l₂ ∧ (∀ b ∈ l₁, key b ≠ k) ∧ ∀ b ∈ l₂, key b ≠ k := by
  obtain ⟨mem, hk⟩ := get_mem h
  obtain ⟨l₁, l₂, rfl⟩ := List.append_of_mem mem
  unfold Distinct at distinct
  rw [List.map_append, List.map_cons, List.nodup_middle, List.nodup_cons, List.mem_append,
    not_or, hk] at distinct
  refine ⟨l₁, l₂, rfl, fun b hb heq => ?_, fun b hb heq => ?_⟩
  · exact distinct.1.1 (List.mem_map.2 ⟨b, hb, heq⟩)
  · exact distinct.1.2 (List.mem_map.2 ⟨b, hb, heq⟩)

theorem get_of_mem (distinct : Distinct key l) (ha : a ∈ l) : get key l (key a) = some a := by
  have found : get key l (key a) ≠ none := fun h => get_eq_none_iff.1 h a ha rfl
  obtain ⟨b, hb⟩ := Option.ne_none_iff_exists'.1 found
  obtain ⟨mem, same⟩ := get_mem hb
  rw [hb, List.inj_on_of_nodup_map distinct mem ha same]

/-! ### Changing an entry -/

theorem map_key_modify {f : α → α} (same : ∀ a, key (f a) = key a) (l : List α) (k : κ) :
    (modify key l k f).map key = l.map key := by
  unfold modify
  rw [List.map_map]
  apply List.map_congr_left
  intro a _
  by_cases h : key a = k <;> simp [h, same]

theorem get_modify {f : α → α} (same : ∀ a, key (f a) = key a) (l : List α) (k k' : κ) :
    get key (modify key l k f) k' = if k' = k then (get key l k).map f else get key l k' := by
  have kept (a : α) : key (if key a = k then f a else a) = key a := by
    split_ifs
    · exact same a
    · rfl
  rw [modify, get_map kept]
  split_ifs with hk
  · subst hk
    cases h : get key l k' with
    | none => rfl
    | some a => rw [Option.map_some, Option.map_some, if_pos (get_mem h).2]
  · cases h : get key l k' with
    | none => rfl
    | some a =>
      have apart : key a ≠ k := fun heq => hk ((get_mem h).2.symm.trans heq)
      rw [Option.map_some, if_neg apart]

theorem modifyFirst_split {l₁ : List α} (before : ∀ b ∈ l₁, key b ≠ k) (hk : key a = k)
    (l₂ : List α) (f : α → α) : modifyFirst key k f (l₁ ++ a :: l₂) = l₁ ++ f a :: l₂ := by
  induction l₁ with
  | nil => simp [modifyFirst, hk]
  | cons b l₁ ih =>
    have first : key b ≠ k := before b List.mem_cons_self
    rw [List.cons_append, modifyFirst, if_neg first,
      ih fun c hc => before c (List.mem_cons_of_mem b hc)]
    rfl

theorem map_modifyFirst {β : Type} {g : α → β} {f : α → α} (same : ∀ a, g (f a) = g a) (k : κ)
    (l : List α) : (modifyFirst key k f l).map g = l.map g := by
  induction l with
  | nil => rfl
  | cons a l ih =>
    rw [modifyFirst]
    split_ifs
    · rw [List.map_cons, same, List.map_cons]
    · rw [List.map_cons, ih, List.map_cons]

theorem get_modifyFirst {f : α → α} (same : ∀ a, key (f a) = key a) (k k' : κ) (l : List α) :
    get key (modifyFirst key k f l) k' =
      if k' = k then (get key l k).map f else get key l k' := by
  induction l with
  | nil => simp [modifyFirst, get]
  | cons a l ih =>
    unfold get at *
    rw [modifyFirst]
    by_cases ha : key a = k
    · rw [if_pos ha, List.find?_cons, List.find?_cons]
      by_cases hk : k' = k
      · simp [same, ha, hk]
      · have apart : key a ≠ k' := fun heq => hk (heq.symm.trans ha)
        simp [same, apart, hk]
    · rw [if_neg ha, List.find?_cons, ih]
      by_cases hk : k' = k
      · simp [hk, ha]
      · by_cases hk' : key a = k' <;> simp [hk, hk']

theorem mem_modifyFirst {f : α → α} {b : α} (h : b ∈ modifyFirst key k f l) :
    b ∈ l ∨ ∃ a, get key l k = some a ∧ b = f a := by
  induction l with
  | nil => exact .inl h
  | cons a l ih =>
    rw [modifyFirst] at h
    split_ifs at h with ha
    · rcases List.mem_cons.1 h with rfl | mem
      · exact .inr ⟨a, by simp [get, ha], rfl⟩
      · exact .inl (List.mem_cons_of_mem a mem)
    · rcases List.mem_cons.1 h with rfl | mem
      · exact .inl List.mem_cons_self
      · rcases ih mem with before | ⟨c, found, rfl⟩
        · exact .inl (List.mem_cons_of_mem a before)
        · refine .inr ⟨c, ?_, rfl⟩
          unfold get at found ⊢
          simpa [ha] using found

theorem mem_of_mem_erase (h : a ∈ erase key l k) : a ∈ l := List.mem_of_mem_eraseP h

/-! ### Taking out an entry -/

theorem erase_split {l₁ l₂ : List α} (before : ∀ b ∈ l₁, key b ≠ k) (hk : key a = k) :
    erase key (l₁ ++ a :: l₂) k = l₁ ++ l₂ := by
  unfold erase
  rw [List.eraseP_append_right _ fun b hb => by simpa using before b hb]
  simp [hk]

theorem erase_of_get_none (absent : get key l k = none) : erase key l k = l := by
  unfold erase
  apply List.eraseP_of_forall_not
  intro a ha
  simpa using get_eq_none_iff.1 absent a ha

theorem Distinct.erase (distinct : Distinct key l) (k : κ) : Distinct key (erase key l k) :=
  distinct.sublist (List.eraseP_sublist.map key)

theorem erase_cons (a : α) (l : List α) (k : κ) :
    erase key (a :: l) k = if key a = k then l else a :: erase key l k := by
  unfold erase
  rw [List.eraseP_cons]
  by_cases h : key a = k <;> simp [h]

theorem erase_comm (l : List α) (k k' : κ) :
    erase key (erase key l k) k' = erase key (erase key l k') k := by
  induction l with
  | nil => rfl
  | cons a l ih =>
    simp only [erase_cons]
    by_cases hk : key a = k
    · by_cases hk' : key a = k'
      · rw [← hk, ← hk']
      · rw [if_pos hk, if_neg hk', erase_cons, if_pos hk]
    · by_cases hk' : key a = k'
      · rw [if_neg hk, if_pos hk', erase_cons, if_pos hk']
      · rw [if_neg hk, if_neg hk', erase_cons, erase_cons, if_neg hk, if_neg hk', ih]

theorem map_key_erase (l : List α) (k : κ) :
    (erase key l k).map key = (l.map key).erase k := by
  induction l with
  | nil => rfl
  | cons a l ih =>
    rw [erase_cons, List.map_cons, List.erase_cons]
    by_cases h : key a = k <;> simp [h, ih]

theorem get_erase_ne {k' : κ} (h : k' ≠ k) (l : List α) :
    get key (erase key l k) k' = get key l k' := by
  induction l with
  | nil => rfl
  | cons a l ih =>
    rw [erase_cons]
    split_ifs with hk
    · have apart : key a ≠ k' := fun heq => h (heq.symm.trans hk)
      simp [get, apart]
    · unfold get at ih ⊢
      rw [List.find?_cons, List.find?_cons, ih]

theorem get_erase_self (once : (l.map key).count k ≤ 1) : get key (erase key l k) k = none := by
  rw [get_none_iff_notMem, map_key_erase, ← List.count_eq_zero, List.count_erase_self]
  omega

theorem Distinct.count_le (distinct : Distinct key l) (k : κ) : (l.map key).count k ≤ 1 :=
  List.nodup_iff_count_le_one.1 distinct k

theorem get_erase (distinct : Distinct key l) (k k' : κ) :
    get key (erase key l k) k' = if k' = k then none else get key l k' := by
  split_ifs with hk
  · rw [hk, get_erase_self (distinct.count_le k)]
  · exact get_erase_ne hk l

theorem erase_map {β : Type} {key' : β → κ} {f : α → β} (same : ∀ a, key' (f a) = key a)
    (l : List α) (k : κ) : erase key' (l.map f) k = (erase key l k).map f := by
  unfold erase
  rw [List.eraseP_map]
  simp [Function.comp_def, same]

end Keyed
