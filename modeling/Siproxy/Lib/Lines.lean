import Mathlib.Data.List.Basic
import Mathlib.Tactic.Common
import Siproxy.Lib.Allot

/-!
# Lines of a text and their results

`scan d acc s` cuts a text at the delimiter `d` into the lines that are complete and the one that
is still open; `acc` is what the open line held before.  A classifier `f` gives a result for some
lines, and `results f d s` are the results of the lines of `s`, in order.

The questions of the file are when more text leaves the results as they are (`Quiet`), when the
results of a text are those of its two parts (`Joins`), and when a text for whose results memory is
needed has the results of another one (`Unheard`).
-/

namespace Lines

open Allot

variable {α β : Type}

/-! ### A line that goes on -/

section OpenLine

variable {f : List α → Option β}

/-- The tokens of one line. -/
def token (l : List α) : List (List α) := if l = [] then [] else [l]

theorem token_of_ne_nil {l : List α} (h : l ≠ []) : token l = [l] := if_neg h

theorem filter_lines (ls : List (List α)) (l : List α) :
    (ls ++ [l]).filter (· ≠ []) = ls.filter (· ≠ []) ++ token l := by
  by_cases hl : l = [] <;> simp [token, hl]

theorem reduceOption_token (empty : f [] = none) (l : List α) :
    ((token l).map f).reduceOption = (f l).toList := by
  by_cases hl : l = []
  · simp [token, hl, empty]
  · rw [token_of_ne_nil hl]
    exact List.reduceOption_singleton (f l)

theorem token_map_none {l : List α} (h : f l = none) : ∀ r ∈ (token l).map f, r = none := by
  unfold token
  split_ifs
  · simp
  · simpa using h

/-- The open line goes on, and more results may follow. -/
theorem aligned_open_iff (empty : f [] = none) {o t : List α}
    (grows : f o ≠ none → f (o ++ t) ≠ none) {heap : List Bool} {more : List (Option β)} :
    Aligned (allot heap ((token (o ++ t)).map f ++ more)) ((token o).map f) ↔
      Granted heap (f o).toList.length ∧ (f o ≠ none → f (o ++ t) = f o) ∧
        Denied (heap.drop (f o).toList.length)
          ((f (o ++ t)).toList.length + more.reduceOption.length - (f o).toList.length) := by
  cases ho : f o with
  | none =>
    rw [aligned_none_right (token_map_none ho), allot_none_iff, List.reduceOption_append,
      reduceOption_token empty, List.length_append]
    simp
  | some a =>
    have hne : o ≠ [] := fun h => by simp [h, empty] at ho
    have hne' : o ++ t ≠ [] := by simp [hne]
    obtain ⟨a', ha'⟩ := Option.ne_none_iff_exists'.1 (grows (by simp [ho]))
    rw [token_of_ne_nil hne, token_of_ne_nil hne']
    simp only [List.map_cons, List.map_nil, List.cons_append, List.nil_append, ha', ho, allot,
      aligned_cons, aligned_nil_right, allot_none_iff, Option.toList_some, List.length_singleton,
      granted_succ heap 0, granted_zero, and_true, List.drop_one, Nat.add_sub_cancel_left]
    cases heap.headD true <;> simp

/-- The open line ends too early, and no result that follows is there. -/
theorem aligned_front_open_iff (empty : f [] = none) {o t : List α}
    (grows : f o ≠ none → f (o ++ t) ≠ none) {heap : List Bool} {more : List (Option β)} :
    Aligned (allot heap ((token o).map f)) ((token (o ++ t)).map f ++ more) ↔
      Granted heap (f o).toList.length ∧ f (o ++ t) = f o ∧ more.reduceOption = [] := by
  cases ho : f o with
  | none =>
    have lost : ∀ r ∈ allot heap ((token o).map f), r = none :=
      allot_none_iff.2 (by simp [reduceOption_token empty, ho])
    rw [aligned_comm, aligned_none_right lost, ← reduceOption_eq_nil_iff, List.reduceOption_append,
      reduceOption_token empty, List.append_eq_nil_iff, Option.toList_eq_nil_iff]
    simp
  | some a =>
    have hne : o ≠ [] := fun h => by simp [h, empty] at ho
    have hne' : o ++ t ≠ [] := by simp [hne]
    obtain ⟨a', ha'⟩ := Option.ne_none_iff_exists'.1 (grows (by simp [ho]))
    rw [token_of_ne_nil hne, token_of_ne_nil hne', reduceOption_eq_nil_iff]
    simp only [List.map_cons, List.map_nil, List.cons_append, List.nil_append, ha', ho, allot,
      aligned_cons, aligned_nil_left, Option.toList_some, List.length_singleton,
      granted_succ heap 0, granted_zero, and_true]
    cases heap.headD true <;> simp [eq_comm]

end OpenLine

/-! ### Lines -/

variable [DecidableEq α]

/-- The complete lines of a text and its open line, where the first line continues `acc`. -/
def scan (d : α) : List α → List α → List (List α) × List α
  | acc, [] => ([], acc)
  | acc, b :: s =>
    if b = d then (acc :: (scan d [] s).1, (scan d [] s).2) else scan d (acc ++ [b]) s

/-- The tokens of a text: its lines, without the empty ones. -/
def tokens (d : α) (s : List α) : List (List α) :=
  ((scan d [] s).1 ++ [(scan d [] s).2]).filter (· ≠ [])

/-- The text up to the first delimiter. -/
def firstLine (d : α) (s : List α) : List α := s.takeWhile (· ≠ d)

/-- The text behind the first delimiter. -/
def nextLines (d : α) (s : List α) : List α := (s.dropWhile (· ≠ d)).drop 1

theorem scan_append (d : α) (acc x y : List α) :
    scan d acc (x ++ y) = ((scan d acc x).1 ++ (scan d (scan d acc x).2 y).1,
      (scan d (scan d acc x).2 y).2) := by
  induction x generalizing acc with
  | nil => rfl
  | cons b x ih =>
    by_cases hb : b = d
    · simp [scan, hb, ih]
    · simp [scan, hb, ih]

theorem scan_subset (d : α) (acc s : List α) :
    ∀ b ∈ (scan d acc s).2, b ∈ acc ∨ b ∈ s := by
  induction s generalizing acc with
  | nil => exact fun b hb => .inl hb
  | cons c s ih =>
    intro b hb
    by_cases hc : c = d
    · simp only [scan, hc, if_true] at hb
      rcases ih [] b hb with h | h
      · simp at h
      · exact .inr (List.mem_cons_of_mem _ h)
    · simp only [scan, hc, if_false] at hb
      rcases ih (acc ++ [c]) b hb with h | h
      · rcases List.mem_append.1 h with h | h
        · exact .inl h
        · exact .inr (by simp [List.mem_singleton.1 h])
      · exact .inr (List.mem_cons_of_mem _ h)

/-- A text is its complete lines, with their delimiters, and its open line. -/
theorem scan_join (d : α) (acc s : List α) :
    acc ++ s = ((scan d acc s).1.map (· ++ [d])).flatten ++ (scan d acc s).2 := by
  induction s generalizing acc with
  | nil => simp [scan]
  | cons b s ih =>
    by_cases hb : b = d
    · simpa [scan, hb] using ih []
    · simpa [scan, hb] using ih (acc ++ [b])

theorem scan_free {d : α} {acc : List α} (h : d ∉ acc) (s : List α) :
    (∀ l ∈ (scan d acc s).1, d ∉ l) ∧ d ∉ (scan d acc s).2 := by
  induction s generalizing acc with
  | nil => simpa [scan] using h
  | cons b s ih =>
    by_cases hb : b = d
    · simpa [scan, hb, h] using ih List.not_mem_nil
    · have hacc : d ∉ acc ++ [b] := by simp [h, Ne.symm hb]
      simpa [scan, hb] using ih hacc

/-- The lines of lines that are put together. -/
theorem scan_lines {d : α} {ls : List (List α)} (h : ∀ l ∈ ls, d ∉ l) :
    scan d [] (ls.flatMap (· ++ [d])) = (ls, []) := by
  have line (acc l s : List α) (hl : d ∉ l) :
      scan d acc (l ++ d :: s) = ((acc ++ l) :: (scan d [] s).1, (scan d [] s).2) := by
    induction l generalizing acc with
    | nil => simp [scan]
    | cons b l ih =>
      rw [List.mem_cons, not_or] at hl
      rw [List.cons_append, scan, if_neg (Ne.symm hl.1), ih _ hl.2, List.append_assoc]
      rfl
  induction ls with
  | nil => rfl
  | cons l ls ih =>
    rw [List.forall_mem_cons] at h
    rw [List.flatMap_cons, List.append_assoc, List.singleton_append, line [] l _ h.1, ih h.2]
    rfl

section Results

variable (f : List α → Option β) (d : α)

/-- The results of the lines of a text whose first line continues `acc`. -/
def resultsFrom (acc s : List α) : List β :=
  ((scan d acc s).1 ++ [(scan d acc s).2]).filterMap f

/-- The results of the tokens of a text. -/
def results (s : List α) : List β := (tokens d s).filterMap f

variable {f d}

/-- An empty line has no result, so that tokens and lines give the same. -/
theorem results_eq (empty : f [] = none) (s : List α) : results f d s = resultsFrom f d [] s := by
  rw [results, tokens, resultsFrom, List.filterMap_filter]
  congr 1
  funext l
  by_cases hl : l = []
  · simp [hl, empty]
  · simp [hl]

theorem resultsFrom_append (acc x y : List α) :
    resultsFrom f d acc (x ++ y) =
      (scan d acc x).1.filterMap f ++ resultsFrom f d (scan d acc x).2 y := by
  simp [resultsFrom, scan_append, List.filterMap_append]

/-- The first line of a text completes the open line; the others are on their own. -/
theorem resultsFrom_eq (empty : f [] = none) (acc s : List α) :
    resultsFrom f d acc s =
      (f (acc ++ firstLine d s)).toList ++ resultsFrom f d [] (nextLines d s) := by
  induction s generalizing acc with
  | nil => cases h : f acc <;> simp [resultsFrom, scan, firstLine, nextLines, empty, h]
  | cons b s ih =>
    by_cases hb : b = d
    · cases h : f acc <;> simp [resultsFrom, scan, firstLine, nextLines, hb, h]
    · have := ih (acc ++ [b])
      simpa [resultsFrom, scan, firstLine, nextLines, hb] using this

/-! ### More text without a new result -/

/-- Behind the text `x`, the text `y` adds no result: the line that is open at the end of `x` keeps
its result, and no further line has one. -/
def Quiet (f : List α → Option β) (d : α) (x y : List α) : Prop :=
  f ((scan d [] x).2 ++ firstLine d y) = f (scan d [] x).2 ∧ results f d (nextLines d y) = []

instance [DecidableEq β] (f : List α → Option β) (d : α) (x y : List α) :
    Decidable (Quiet f d x y) :=
  inferInstanceAs (Decidable (_ ∧ _))

/-! ### A text in two parts -/

/-- A cut inside a line that does no harm: the line has the results of its two parts. -/
def Joins (f : List α → Option β) (d : α) (x y : List α) : Prop :=
  (f ((scan d [] x).2 ++ firstLine d y)).toList =
    (f (scan d [] x).2).toList ++ (f (firstLine d y)).toList

instance [DecidableEq β] (f : List α → Option β) (d : α) (x y : List α) :
    Decidable (Joins f d x y) :=
  inferInstanceAs (Decidable (_ = _))

theorem results_append (empty : f [] = none) {x y : List α} (h : Joins f d x y) :
    results f d (x ++ y) = results f d x ++ results f d y := by
  have hx := resultsFrom_append (f := f) (d := d) [] x []
  have hy := resultsFrom_eq (d := d) empty [] y
  rw [List.append_nil] at hx
  rw [List.nil_append] at hy
  have open_ : resultsFrom f d (scan d [] x).2 [] = (f (scan d [] x).2).toList := by
    cases h : f (scan d [] x).2 <;> simp [resultsFrom, scan, h]
  rw [results_eq empty, results_eq empty, results_eq empty, resultsFrom_append,
    resultsFrom_eq empty, h, hx, hy, open_, List.append_assoc, List.append_assoc]

/-! ### Tokens that need memory -/

/-- The tokens of a text whose first line continues `acc`. -/
theorem tokensFrom_eq (acc y : List α) :
    ((scan d acc y).1 ++ [(scan d acc y).2]).filter (· ≠ []) =
      token (acc ++ firstLine d y) ++ tokens d (nextLines d y) := by
  induction y generalizing acc with
  | nil => by_cases hacc : acc = [] <;> simp [scan, firstLine, nextLines, tokens, token, hacc]
  | cons b y ih =>
    by_cases hb : b = d
    · by_cases hacc : acc = [] <;> simp [scan, firstLine, nextLines, tokens, token, hb, hacc]
    · have := ih (acc ++ [b])
      simpa [scan, firstLine, nextLines, hb] using this

/-- The tokens of the complete lines of a text. -/
def closed (d : α) (x : List α) : List (List α) := (scan d [] x).1.filter (· ≠ [])

theorem tokens_eq_closed (x : List α) : tokens d x = closed d x ++ token (scan d [] x).2 :=
  filter_lines _ _

theorem tokens_append (x y : List α) :
    tokens d (x ++ y) =
      closed d x ++ (token ((scan d [] x).2 ++ firstLine d y) ++ tokens d (nextLines d y)) := by
  rw [← tokensFrom_eq, tokens, scan_append, List.append_assoc, List.filter_append]
  rfl

theorem reduceOption_map_tokens (s : List α) :
    ((tokens d s).map f).reduceOption = results f d s := by
  rw [List.reduceOption, List.filterMap_map]
  rfl

/-- Memory is left for the results of the text `x`, whose open line keeps its result, if it has one,
in front of the text `y`, and memory is left for no result that `y` adds. -/
def Unheard (f : List α → Option β) (d : α) (heap : List Bool) (x y : List α) : Prop :=
  Granted heap (results f d x).length ∧
    (f (scan d [] x).2 ≠ none → f ((scan d [] x).2 ++ firstLine d y) = f (scan d [] x).2) ∧
    Denied (heap.drop (results f d x).length)
      ((results f d (x ++ y)).length - (results f d x).length)

instance [DecidableEq β] (f : List α → Option β) (d : α) (heap : List Bool) (x y : List α) :
    Decidable (Unheard f d heap x y) :=
  inferInstanceAs (Decidable (_ ∧ (_ → _) ∧ _))

/-- A text goes on: its results are those of its first part exactly if the rest is unheard. -/
theorem aligned_append_iff (empty : f [] = none) {x y : List α}
    (grows : ∀ t, f (scan d [] x).2 ≠ none → f ((scan d [] x).2 ++ t) ≠ none) {heap : List Bool} :
    Aligned (allot heap ((tokens d (x ++ y)).map f)) ((tokens d x).map f) ↔
      Unheard f d heap x y := by
  rw [Unheard]
  simp only [← reduceOption_map_tokens, tokens_append, tokens_eq_closed x, List.map_append,
    List.reduceOption_append, reduceOption_token empty, List.length_append]
  rw [allot_append, aligned_append (length_allot _ _), allot_eq_self_iff, granted_add, and_assoc,
    aligned_open_iff empty (grows _), List.drop_drop, Nat.add_sub_add_left]

/-- A text ends too early: its results are those of the whole text exactly if memory is left for
them and the rest is quiet. -/
theorem aligned_front_iff (empty : f [] = none) {x y : List α}
    (grows : ∀ t, f (scan d [] x).2 ≠ none → f ((scan d [] x).2 ++ t) ≠ none) {heap : List Bool} :
    Aligned (allot heap ((tokens d x).map f)) ((tokens d (x ++ y)).map f) ↔
      Granted heap (results f d x).length ∧ Quiet f d x y := by
  simp only [← reduceOption_map_tokens, tokens_append, tokens_eq_closed x, List.map_append,
    List.reduceOption_append, reduceOption_token empty, List.length_append]
  rw [allot_append, aligned_append (length_allot _ _), allot_eq_self_iff, granted_add, and_assoc,
    aligned_front_open_iff empty (grows _), reduceOption_map_tokens, Quiet]

end Results

end Lines
