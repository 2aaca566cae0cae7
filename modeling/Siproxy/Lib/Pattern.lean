import Mathlib.Computability.Language

/-!
# Patterns of a small matcher

A pattern is a list of items, each a symbol, any symbol, or one of the two any number of times, and
may be tied to the end of the text.  Its language is the product of the languages of its items.
The lemmas say what it takes for a pattern to match at the beginning of a text, one for each kind
of first item.
-/

namespace Matching

variable {α : Type}

inductive Atom (α : Type) where
  | any
  | sym (a : α)

inductive Item (α : Type) where
  | one (x : Atom α)
  | star (x : Atom α)

/-- A list of items; with `atEnd` the text ends behind them. -/
structure Pattern (α : Type) where
  items : List (Item α)
  atEnd : Bool

def Atom.Accepts : Atom α → α → Prop
  | .any, _ => True
  | .sym a, b => a = b

/-- The words of one symbol. -/
def Atom.lang (x : Atom α) : Language α := {w | ∃ a, x.Accepts a ∧ w = [a]}

open Computability in
def Item.lang : Item α → Language α
  | .one x => x.lang
  | .star x => x.lang∗

namespace Pattern

/-- An item in front of a pattern. -/
def cons (i : Item α) (p : Pattern α) : Pattern α := { p with items := i :: p.items }

/-- The words that the items stand for. -/
def lang (p : Pattern α) : Language α := (p.items.map Item.lang).prod

/-- A prefix of the text is in the language, and it is the whole text if the pattern is tied to the
end. -/
def MatchesAt (p : Pattern α) (s : List α) : Prop :=
  ∃ w ∈ p.lang, w <+: s ∧ (p.atEnd = true → w = s)

/-- The pattern matches at the beginning of a suffix of the text. -/
def Found (p : Pattern α) (s : List α) : Prop := ∃ t, t <:+ s ∧ p.MatchesAt t

theorem lang_cons (i : Item α) (p : Pattern α) : (p.cons i).lang = i.lang * p.lang := by
  simp [lang, cons]

theorem matchesAt_nil (atEnd : Bool) (s : List α) :
    MatchesAt ⟨[], atEnd⟩ s ↔ (atEnd = true → s = []) := by
  have empty : (⟨[], atEnd⟩ : Pattern α).lang = 1 := rfl
  unfold MatchesAt
  rw [empty]
  constructor
  · rintro ⟨w, hw, -, whole⟩ hend
    rw [← whole hend]
    exact hw
  · intro h
    exact ⟨[], Language.nil_mem_one, List.nil_prefix, fun hend => (h hend).symm⟩

/-- A word of the first item, and a match of the other items behind it. -/
theorem matchesAt_cons (i : Item α) (p : Pattern α) (s : List α) :
    (p.cons i).MatchesAt s ↔ ∃ u ∈ i.lang, ∃ t, s = u ++ t ∧ p.MatchesAt t := by
  unfold MatchesAt
  rw [lang_cons]
  constructor
  · rintro ⟨w, hw, ⟨rest, rfl⟩, whole⟩
    obtain ⟨u, hu, v, hv, rfl⟩ := Language.mem_mul.1 hw
    refine ⟨u, hu, v ++ rest, by simp, v, hv, List.prefix_append v rest, fun hend => ?_⟩
    exact List.append_cancel_left ((whole hend).trans (List.append_assoc u v rest))
  · rintro ⟨u, hu, t, rfl, v, hv, ⟨rest, rfl⟩, whole⟩
    refine ⟨u ++ v, Language.append_mem_mul hu hv, ⟨rest, List.append_assoc u v rest⟩,
      fun hend => ?_⟩
    rw [← whole hend]

theorem matchesAt_one (x : Atom α) (p : Pattern α) (s : List α) :
    (p.cons (.one x)).MatchesAt s ↔ ∃ a t, s = a :: t ∧ x.Accepts a ∧ p.MatchesAt t := by
  rw [matchesAt_cons]
  constructor
  · rintro ⟨u, ⟨a, ha, rfl⟩, t, rfl, ht⟩
    exact ⟨a, t, rfl, ha, ht⟩
  · rintro ⟨a, t, rfl, ha, ht⟩
    exact ⟨[a], ⟨a, ha, rfl⟩, t, rfl, ht⟩

open Computability in
theorem matchesAt_star (x : Atom α) (p : Pattern α) (s : List α) :
    (p.cons (.star x)).MatchesAt s ↔
      p.MatchesAt s ∨ ∃ a t, s = a :: t ∧ x.Accepts a ∧ (p.cons (.star x)).MatchesAt t := by
  have unrolled : (Item.star x).lang = 1 + x.lang * (Item.star x).lang :=
    (Language.one_add_self_mul_kstar_eq_kstar x.lang).symm
  constructor
  · intro h
    obtain ⟨u, hu, t, rfl, ht⟩ := (matchesAt_cons _ _ _).1 h
    rw [unrolled, Language.mem_add] at hu
    rcases hu with hu | hu
    · rw [Language.mem_one] at hu
      subst hu
      exact .inl ht
    · obtain ⟨_, ⟨a, ha, rfl⟩, v, hv, rfl⟩ := Language.mem_mul.1 hu
      exact .inr ⟨a, v ++ t, rfl, ha, (matchesAt_cons _ _ _).2 ⟨v, hv, t, rfl, ht⟩⟩
  · intro h
    apply (matchesAt_cons _ _ _).2
    rcases h with h | ⟨a, t, rfl, ha, ht⟩
    · exact ⟨[], Language.nil_mem_kstar x.lang, s, rfl, h⟩
    · obtain ⟨v, hv, r, rfl, hr⟩ := (matchesAt_cons _ _ _).1 ht
      refine ⟨a :: v, ?_, r, rfl, hr⟩
      have first : [a] ∈ x.lang := ⟨a, ha, rfl⟩
      rw [unrolled]
      exact .inr (Language.append_mem_mul first hv)

theorem found_nil (p : Pattern α) : p.Found [] ↔ p.MatchesAt [] := by
  simp [Found]

theorem found_cons (p : Pattern α) (a : α) (s : List α) :
    p.Found (a :: s) ↔ p.MatchesAt (a :: s) ∨ p.Found s := by
  simp [Found, List.suffix_cons_iff, or_and_right, exists_or]

end Pattern

/-! ### Patterns of plain symbols -/

/-- The pattern of a word. -/
def plain (w : List α) : Pattern α := ⟨w.map fun a => .one (.sym a), false⟩

theorem matchesAt_plain (w s : List α) : (plain w).MatchesAt s ↔ w <+: s := by
  induction w generalizing s with
  | nil => simp [plain, Pattern.matchesAt_nil]
  | cons a w ih =>
    have first : plain (a :: w) = (plain w).cons (.one (.sym a)) := rfl
    rw [first, Pattern.matchesAt_one]
    simp only [ih, Atom.Accepts]
    constructor
    · rintro ⟨_, t, rfl, rfl, hw⟩
      exact List.cons_prefix_cons.2 ⟨rfl, hw⟩
    · intro h
      cases s with
      | nil => exact absurd (List.prefix_nil.1 h) (List.cons_ne_nil a w)
      | cons b s =>
        obtain ⟨rfl, hw⟩ := List.cons_prefix_cons.1 h
        exact ⟨a, s, rfl, rfl, hw⟩

theorem found_plain (w s : List α) : (plain w).Found s ↔ w <:+: s := by
  unfold Pattern.Found
  simp only [matchesAt_plain]
  constructor
  · rintro ⟨t, ht, hw⟩
    exact hw.isInfix.trans ht.isInfix
  · rintro ⟨pre, post, rfl⟩
    rw [List.append_assoc]
    exact ⟨w ++ post, List.suffix_append pre _, List.prefix_append w post⟩

end Matching
