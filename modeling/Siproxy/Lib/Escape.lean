import Mathlib.Data.List.Basic
import Mathlib.Data.List.TakeWhile
import Mathlib.Tactic.Common

/-!
# Escaped texts

A text in which an escape character, if there is one, takes the meaning from the character behind
it.  `lex` reads such a text as characters that are escaped or not, `unlex` writes them again, and
`segments` cuts a list where a mark stands.
-/

namespace Escape

variable {α τ : Type}

/-- A character, and whether it is escaped. -/
abbrev Tok (α : Type) := α × Bool

/-! ### Reading and writing -/

section Lex

variable [DecidableEq α] (esc : Option α)

/-- The characters of a text. -/
def lex : List α → List (Tok α)
  | [] => []
  | [b] => [(b, false)]
  | b :: x :: s => if some b = esc then (x, true) :: lex s else (b, false) :: lex (x :: s)

/-- The text of a character. -/
def spell : Tok α → List α
  | (b, true) => esc.toList ++ [b]
  | (b, false) => [b]

/-- The text of a list of characters. -/
def unlex (ts : List (Tok α)) : List α := ts.flatMap (spell esc)

/-- The character can be written and read again. -/
def Proper : Tok α → Prop
  | (_, true) => esc.isSome = true
  | (b, false) => some b ≠ esc

variable {esc}

omit [DecidableEq α] in
theorem unlex_cons (t : Tok α) (ts : List (Tok α)) :
    unlex esc (t :: ts) = spell esc t ++ unlex esc ts := List.flatMap_cons

omit [DecidableEq α] in
theorem unlex_append (ts ts' : List (Tok α)) :
    unlex esc (ts ++ ts') = unlex esc ts ++ unlex esc ts' := List.flatMap_append

omit [DecidableEq α] in
theorem length_le_unlex (esc : Option α) (ts : List (Tok α)) :
    ts.length ≤ (unlex esc ts).length := by
  induction ts with
  | nil => exact Nat.zero_le _
  | cons t ts ih =>
    have one : 1 ≤ (spell esc t).length := by
      obtain ⟨b, e⟩ := t
      cases e <;> simp [spell]
    rw [unlex_cons, List.length_append, List.length_cons]
    omega

/-- The escape character of a text does not stand at its end. -/
def Closed (esc : Option α) (s : List α) : Prop := ∀ e ∈ esc, s.getLast? ≠ some e

omit [DecidableEq α] in
theorem Closed.of_cons {b : α} {s : List α} (h : Closed esc (b :: s)) : Closed esc s := by
  intro e he hlast
  apply h e he
  cases s with
  | nil => cases hlast
  | cons x s => rwa [List.getLast?_cons_cons]

omit [DecidableEq α] in
theorem Closed.ne {b : α} (h : Closed esc [b]) : some b ≠ esc := fun heq => h b heq.symm rfl

theorem unlex_lex {s : List α} (h : Closed esc s) : unlex esc (lex esc s) = s := by
  fun_induction lex esc s with
  | case1 => rfl
  | case2 b => rfl
  | case3 x s b hesc ih =>
    rw [unlex_cons, ih h.of_cons.of_cons]
    simp [spell, ← hesc]
  | case4 b x s hesc ih =>
    rw [unlex_cons, ih h.of_cons]
    rfl

theorem proper_of_mem_lex {s : List α} (h : Closed esc s) {t : Tok α} (ht : t ∈ lex esc s) :
    Proper esc t := by
  fun_induction lex esc s with
  | case1 => cases ht
  | case2 b =>
    rw [List.mem_singleton.1 ht]
    exact h.ne
  | case3 x s b hesc ih =>
    rcases List.mem_cons.1 ht with rfl | ht
    · simp [Proper, ← hesc]
    · exact ih h.of_cons.of_cons ht
  | case4 b x s hesc ih =>
    rcases List.mem_cons.1 ht with rfl | ht
    · exact hesc
    · exact ih h.of_cons ht

/-- Reading a text drops at least one half of its escape characters. -/
theorem two_mul_count_lex {e : α} {s : List α} (h : Closed (some e) s) :
    2 * ((lex (some e) s).map Prod.fst).count e ≤ s.count e := by
  fun_induction lex (some e) s with
  | case1 => exact le_rfl
  | case2 b =>
    have hb : b ≠ e := fun hb => h.ne (congrArg some hb)
    simp [hb]
  | case3 b x s hb ih =>
    obtain rfl : b = e := Option.some.inj hb
    have rest := ih h.of_cons.of_cons
    -- an escaped escape character stands twice in the text
    by_cases hx : x = b
    · subst hx
      simp only [List.map_cons, List.count_cons_self]
      omega
    · have hx' : ¬ (x == b) = true := by simpa using hx
      simp only [List.map_cons, List.count_cons_self, List.count_cons, if_neg hx']
      omega
  | case4 b x s hb ih =>
    have rest := ih h.of_cons
    have hne : b ≠ e := fun hbe => hb (congrArg some hbe)
    rw [List.map_cons, List.count_cons_of_ne hne, List.count_cons_of_ne hne]
    exact rest

/-- The characters of a text that are all read as they are. -/
def plain (s : List α) : List (Tok α) := s.map fun b => (b, false)

omit [DecidableEq α] in
theorem unlex_plain (esc : Option α) (s : List α) : unlex esc (plain s) = s := by
  induction s with
  | nil => rfl
  | cons b s ih => exact congrArg (b :: ·) ih

omit [DecidableEq α] in
theorem map_fst_plain (s : List α) : (plain s).map Prod.fst = s := by
  rw [plain, List.map_map]
  exact List.map_id s

theorem lex_plain {s : List α} (h : ∀ b ∈ s, some b ≠ esc) : lex esc s = plain s := by
  fun_induction lex esc s with
  | case1 => rfl
  | case2 b => rfl
  | case3 x s b hesc ih => exact absurd hesc (h _ List.mem_cons_self)
  | case4 b x s hesc ih =>
    rw [ih fun c hc => h c (List.mem_cons_of_mem _ hc)]
    rfl

end Lex

/-! ### Segments -/

section Segments

variable (mark : τ → Bool)

/-- The pieces that begin at the marks of a list, if it begins with one. -/
def segments : List τ → List (τ × List τ)
  | [] => []
  | t :: ts => (t, ts.takeWhile (!mark ·)) :: segments (ts.dropWhile (!mark ·))
termination_by ts => ts.length
decreasing_by exact Nat.lt_succ_of_le (List.dropWhile_sublist _).length_le

/-- The list of a list of pieces. -/
def join (segs : List (τ × List τ)) : List τ := segs.flatMap fun seg => seg.1 :: seg.2

variable {mark}

theorem join_segments (ts : List τ) : join (segments mark ts) = ts := by
  fun_induction segments mark ts with
  | case1 => rfl
  | case2 t ts ih =>
    rw [join, List.flatMap_cons]
    exact congrArg (t :: ·) ((congrArg _ ih).trans List.takeWhile_append_dropWhile)

theorem not_mark_of_mem_segments {ts : List τ} {seg : τ × List τ} (h : seg ∈ segments mark ts) :
    ∀ t ∈ seg.2, mark t = false := by
  fun_induction segments mark ts with
  | case1 => cases h
  | case2 t ts ih =>
    rcases List.mem_cons.1 h with rfl | h
    · intro t' ht'
      simpa using List.mem_takeWhile_imp ht'
    · exact ih h

/-- A list is empty or begins with a mark. -/
def AtMark (mark : τ → Bool) (ts : List τ) : Prop := ∀ t ∈ ts.head?, mark t = true

theorem atMark_dropWhile (ts : List τ) : AtMark mark (ts.dropWhile (!mark ·)) := by
  intro t ht
  have head := List.head?_dropWhile_not (fun t => !mark t) ts
  rw [ht] at head
  simpa using head

theorem atMark_join {segs : List (τ × List τ)} (hmark : ∀ seg ∈ segs, mark seg.1 = true) :
    AtMark mark (join segs) := by
  cases segs with
  | nil => exact fun t ht => by cases ht
  | cons seg segs =>
    intro t ht
    cases ht
    exact hmark seg List.mem_cons_self

theorem mark_of_mem_segments {ts : List τ} (hts : AtMark mark ts) {seg : τ × List τ}
    (h : seg ∈ segments mark ts) : mark seg.1 = true := by
  fun_induction segments mark ts with
  | case1 => cases h
  | case2 t ts ih =>
    rcases List.mem_cons.1 h with rfl | h
    · exact hts t rfl
    · exact ih (atMark_dropWhile ts) h

theorem length_segments {ts : List τ} (hts : AtMark mark ts) :
    (segments mark ts).length = ts.countP mark := by
  fun_induction segments mark ts with
  | case1 => rfl
  | case2 t ts ih =>
    have none : (ts.takeWhile (!mark ·)).countP mark = 0 := by
      rw [List.countP_eq_zero]
      intro t' ht'
      simpa using List.mem_takeWhile_imp ht'
    have split := congrArg (List.countP mark) (@List.takeWhile_append_dropWhile _ (!mark ·) ts)
    rw [List.countP_append, none, Nat.zero_add] at split
    rw [List.length_cons, ih (atMark_dropWhile ts), split, List.countP_cons_of_pos (hts t rfl)]

/-- The pieces of pieces that are put together. -/
theorem segments_join {segs : List (τ × List τ)} (hmark : ∀ seg ∈ segs, mark seg.1 = true)
    (hbody : ∀ seg ∈ segs, ∀ t ∈ seg.2, mark t = false) : segments mark (join segs) = segs := by
  induction segs with
  | nil => simp [join, segments]
  | cons seg segs ih =>
    rw [List.forall_mem_cons] at hmark hbody
    have body : ∀ t ∈ seg.2, (!mark t) = true := fun t ht => by simp [hbody.1 t ht]
    have rest : (join segs).takeWhile (!mark ·) = [] ∧
        (join segs).dropWhile (!mark ·) = join segs := by
      cases segs with
      | nil => exact ⟨rfl, rfl⟩
      | cons next segs =>
        have hnext := hmark.2 next List.mem_cons_self
        simp [join, hnext]
    have cut : join (seg :: segs) = seg.1 :: (seg.2 ++ join segs) := by simp [join]
    rw [cut, segments, List.takeWhile_append_of_pos body, List.dropWhile_append_of_pos body,
      rest.1, rest.2, ih hmark.2 hbody.2, List.append_nil]

end Segments

end Escape
