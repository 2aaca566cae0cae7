import Siproxy.Lib.Pattern
import Siproxy.Match

/-!
# The language of the matcher

`match_language`: `match` finds a text exactly if a suffix of it (the whole text behind a `^`) has a
prefix in the language of the pattern.  A pattern without special characters is found where it
occurs (`match_literal`), as are the patterns of all three tables.
-/

namespace Siproxy

open CString Matching

/-- A character of a pattern: `46` is `.`. -/
def atom (c : Byte) : Atom Byte := if c = 46 then .any else .sym c

/-- A pattern without its leading `^`, read from left to right.  A `*` belongs to the character in
front of it, and stands for itself where there is none; a `$` is special at the end only. -/
def parse : List Byte → Pattern Byte
  | [] => ⟨[], false⟩
  | [c] => if c = 36 then ⟨[], true⟩ else ⟨[.one (atom c)], false⟩
  | c :: d :: re =>
    if d = 42 then (parse re).cons (.star (atom c)) else (parse (d :: re)).cons (.one (atom c))

theorem accepts_atom (c b : Byte) : (atom c).Accepts b ↔ c = 46 ∨ c = b := by
  unfold atom
  split_ifs with hc
  · simp [Atom.Accepts, hc]
  · simp [Atom.Accepts, hc]

/-- `matchstar` is right if `matchhere` on the rest of the pattern is. -/
theorem matchstar_iff {here : List Byte → Bool} {p : Pattern Byte}
    (rest : ∀ txt, here txt = true ↔ p.MatchesAt txt) (c : Byte) (txt : List Byte) :
    matchstar here c txt = true ↔ (p.cons (.star (atom c))).MatchesAt txt := by
  induction txt with
  | nil => simp [matchstar, rest, Pattern.matchesAt_star (atom c) p []]
  | cons b txt ih =>
    rw [Pattern.matchesAt_star, matchstar, Bool.or_eq_true, rest, Bool.and_eq_true, ih]
    have char : (b == c || c == 46) = true ↔ (atom c).Accepts b := by
      rw [accepts_atom, Bool.or_eq_true, beq_iff_eq, beq_iff_eq, or_comm, eq_comm (a := b)]
    rw [char]
    simp

/-- The last case of `matchhere`: one character, and the rest of the pattern behind it. -/
theorem matchone_iff {here : List Byte → Bool} {p : Pattern Byte}
    (rest : ∀ txt, here txt = true ↔ p.MatchesAt txt) (c b : Byte) (txt : List Byte) :
    ((c == 46 || c == b) && here txt) = true ↔
      (p.cons (.one (atom c))).MatchesAt (b :: txt) := by
  rw [Pattern.matchesAt_one, Bool.and_eq_true, rest, Bool.or_eq_true, beq_iff_eq, beq_iff_eq,
    ← accepts_atom]
  simp

theorem not_matchesAt_one_nil (c : Byte) (p : Pattern Byte) :
    ¬ (p.cons (.one (atom c))).MatchesAt [] := by
  simp [Pattern.matchesAt_one]

/-- `matchhere` follows the reading of the pattern, with a case for each way to read its first
item. -/
theorem matchhere_iff : ∀ re txt : List Byte,
    matchhere re txt = true ↔ (parse re).MatchesAt txt
  | [], txt => by simp [matchhere, parse, Pattern.matchesAt_nil]
  | [c], txt => by
    by_cases hc : c = 36
    · simp [matchhere, parse, Pattern.matchesAt_nil, hc]
    · have single : parse [c] = (parse []).cons (.one (atom c)) := by
        simp [parse, hc, Pattern.cons]
      rw [single]
      cases txt with
      | nil => simp [matchhere, hc, not_matchesAt_one_nil]
      | cons b txt =>
        rw [← matchone_iff (matchhere_iff [])]
        simp [matchhere, hc]
  | c :: d :: re, txt => by
    by_cases hd : d = 42
    · simp only [matchhere, parse, hd, if_true]
      exact matchstar_iff (matchhere_iff re) c txt
    · simp only [matchhere, parse, hd, if_false]
      cases txt with
      | nil => simp [not_matchesAt_one_nil]
      | cons b txt => exact matchone_iff (matchhere_iff (d :: re)) c b txt

/-- The loop of `match` tries every suffix. -/
theorem matchany_iff (re txt : List Byte) : matchany re txt = true ↔ (parse re).Found txt := by
  induction txt with
  | nil => rw [matchany, Pattern.found_nil, matchhere_iff]
  | cons b txt ih => rw [matchany, Pattern.found_cons, Bool.or_eq_true, matchhere_iff, ih]

/-- What a pattern says of a text: some suffix of it, or the whole text behind a leading `^`, has a
prefix in the language of the items. -/
def Describes (re txt : List Byte) : Prop :=
  match re with
  | 94 :: re => (parse re).MatchesAt txt
  | re => ∃ s, s <:+ txt ∧ (parse re).MatchesAt s

/-- For every pattern and text: `match` succeeds exactly if the pattern describes the text. -/
theorem match_language (re txt : CStr) :
    match_ re.bytes txt.bytes = true ↔ Describes re.bytes txt.bytes := by
  generalize re.bytes = re
  by_cases anchored : ∃ re', re = 94 :: re'
  · obtain ⟨re', rfl⟩ := anchored
    exact matchhere_iff _ _
  · have anywhere : match_ re txt.bytes = matchany re txt.bytes := by
      unfold match_
      split
      · exact absurd ⟨_, rfl⟩ anchored
      · rfl
    have described :
        Describes re txt.bytes ↔ ∃ s, s <:+ txt.bytes ∧ (parse re).MatchesAt s := by
      unfold Describes
      split
      · exact absurd ⟨_, rfl⟩ anchored
      · exact Iff.rfl
    rw [anywhere, described]
    exact matchany_iff _ _

/-! ### Patterns without special characters -/

/-- The characters that a pattern may hold without being one: `*`, `$`, `.` and `^`. -/
def Literal (re : List Byte) : Prop := 42 ∉ re ∧ 36 ∉ re ∧ 46 ∉ re ∧ 94 ∉ re

instance (re : List Byte) : Decidable (Literal re) :=
  inferInstanceAs (Decidable (42 ∉ re ∧ 36 ∉ re ∧ 46 ∉ re ∧ 94 ∉ re))

theorem parse_literal : ∀ {re : List Byte}, Literal re → parse re = plain re
  | [], _ => rfl
  | [c], h => by
    have hc : c ≠ 36 ∧ c ≠ 46 := by
      simp only [Literal, List.mem_singleton] at h
      exact ⟨fun hc => h.2.1 hc.symm, fun hc => h.2.2.1 hc.symm⟩
    simp [parse, plain, atom, hc]
  | c :: d :: re, h => by
    obtain ⟨star, dollar, dot, caret⟩ := h
    simp only [List.mem_cons, not_or] at star dollar dot caret
    have rest : Literal (d :: re) := by
      simp only [Literal, List.mem_cons, not_or]
      exact ⟨star.2, dollar.2, dot.2, caret.2⟩
    have first : atom c = .sym c := if_neg fun hc => dot.1 hc.symm
    rw [parse, if_neg fun hd => star.2.1 hd.symm, parse_literal rest, first]
    rfl

/-- A literal pattern is found exactly where it occurs. -/
theorem match_literal {re : List Byte} (h : Literal re) (txt : List Byte) :
    match_ re txt = true ↔ re <:+: txt := by
  unfold match_
  split
  · exact absurd List.mem_cons_self h.2.2.2
  · rw [matchany_iff, parse_literal h, found_plain]

example : match_ (text "^a*b$") (text "aab") = true := by decide

example : match_ (text "*$b") (text "a*$b") = true := by decide

end Siproxy
