import Mathlib.Data.List.Forall2
import Mathlib.Tactic.Ring
import Siproxy.Lib.CString

/-!
# UTF-8

`utf-8.c`: topics, client identifiers, user names and passwords are checked to be UTF-8 before
anything is queued.  A character is compared with the rows of `valid_ranges`, as `char`s, which the
compiler makes signed or not.  Reading outside the memory has no result.

* `utf8ValidateString_iff`: a C string is accepted exactly if it is the encoding of characters, and
  nothing behind its terminator is read.
* `utf8Validate_iff`: a string with a length is accepted also where the last character goes on
  behind the end.
-/

namespace Siproxy.Mqtt

open CString

/-! ### The functions of `utf-8.c` -/

/-- A row of `valid_ranges`, the lower and the upper limit of each byte; `len` is its length. -/
abbrev Row := List (Byte × Byte)

def validRanges : List Row :=
  [[(0x00, 0x7F)],
   [(0xC2, 0xDF), (0x80, 0xBF)],
   [(0xE0, 0xE0), (0xA0, 0xBF), (0x80, 0xBF)],
   [(0xE1, 0xEC), (0x80, 0xBF), (0x80, 0xBF)],
   [(0xED, 0xED), (0x80, 0x9F), (0x80, 0xBF)],
   [(0xEE, 0xEF), (0x80, 0xBF), (0x80, 0xBF)],
   [(0xF0, 0xF0), (0x90, 0xBF), (0x80, 0xBF), (0x80, 0xBF)],
   [(0xF1, 0xF3), (0x80, 0xBF), (0x80, 0xBF), (0x80, 0xBF)],
   [(0xF4, 0xF4), (0x80, 0x8F), (0x80, 0xBF), (0x80, 0xBF)]]

/-- The value of a `char`, which is signed or not. -/
def charVal (signed : Bool) (b : Byte) : ℤ :=
  if signed ∧ 128 ≤ b.toNat then b.toNat - 256 else b.toNat

/-- How many bytes a character takes, by its first one. -/
def charlen (b : Byte) : ℕ :=
  if b &&& 128 = 0 then 1
  else if b &&& 0xF0 = 0xF0 then 4
  else if b &&& 0xE0 = 0xE0 then 3
  else 2

/-- The inner loop of `UTF8_char_validate`, over the bytes of a row. -/
def rowGood (signed : Bool) : Row → List Byte → Option Bool
  | [], _ => some true
  | _ :: _, [] => none
  | (lower, upper) :: row, b :: data =>
    if charVal signed b < charVal signed lower ∨ charVal signed upper < charVal signed b then
      some false
    else rowGood signed row data

/-- The outer loop of `UTF8_char_validate`, over the rows. -/
def anyGood (signed : Bool) (charlen : ℕ) : List Row → List Byte → Option Bool
  | [], _ => some false
  | row :: rows, data =>
    if row.length = charlen then
      match rowGood signed row data with
      | none => none
      | some true => some true
      | some false => anyGood signed charlen rows data
    else anyGood signed charlen rows data

/-- `UTF8_char_validate`; the pointer that it returns is what is behind the character. -/
def utf8CharValidate (signed : Bool) (len : ℤ) (data : List Byte) : Option (Option (List Byte)) :=
  match data with
  | [] => none
  | b :: _ =>
    if len < charlen b then some none
    else
      match anyGood signed (charlen b) validRanges data with
      | none => none
      | some true => some (some (data.drop (charlen b)))
      | some false => some none

/-- What `UTF8_char_validate` accepts, and what it returns. -/
theorem utf8CharValidate_eq_some {signed : Bool} {len : ℤ} {data rest : List Byte} :
    utf8CharValidate signed len data = some (some rest) ↔
      ∃ b ∈ data.head?, charlen b ≤ len ∧ anyGood signed (charlen b) validRanges data = some true ∧
        data.drop (charlen b) = rest := by
  cases data with
  | nil => simp [utf8CharValidate]
  | cons b data =>
    simp only [utf8CharValidate, List.head?_cons, Option.mem_some_iff, exists_eq_left']
    split_ifs with short
    · simp [Int.not_le.2 short]
    · rcases anyGood signed (charlen b) validRanges (b :: data) with _ | _ | _ <;>
        simp [Int.not_lt.1 short]

theorem charlen_pos (b : Byte) : 0 < charlen b := by
  unfold charlen
  split_ifs <;> decide

theorem utf8CharValidate_lt {signed : Bool} {len : ℤ} {data rest : List Byte}
    (h : utf8CharValidate signed len data = some (some rest)) : rest.length < data.length := by
  obtain ⟨b, first, -, -, rfl⟩ := utf8CharValidate_eq_some.1 h
  cases data with
  | nil => cases first
  | cons b' data =>
    rw [List.length_drop]
    exact Nat.sub_lt (Nat.succ_pos _) (charlen_pos b)

/-- The loop of `UTF8_validate`; `left` is how far `curdata` is in front of the end. -/
def validateLoop (signed : Bool) (len left : ℤ) (curdata : List Byte) : Option Bool :=
  if 0 < left then
    match _h : utf8CharValidate signed len curdata with
    | none => none
    | some none => some false
    | some (some rest) =>
      validateLoop signed len (left - (curdata.length - rest.length : ℕ)) rest
  else some true
termination_by curdata.length
decreasing_by exact utf8CharValidate_lt _h

/-- `UTF8_validate`; `data` is what is in memory from the string on. -/
def utf8Validate (signed : Bool) (len : ℤ) (data : List Byte) : Option Bool :=
  if len = 0 then some true
  else
    match utf8CharValidate signed len data with
    | none => none
    | some none => some false
    | some (some rest) => validateLoop signed len (len - (data.length - rest.length : ℕ)) rest

/-- `UTF8_validateString`, with what is in memory behind the string; `UTF8_validate` takes the
length as an `int`. -/
def utf8ValidateString (signed : Bool) (string : CStr) (behind : List Byte) : Option Bool :=
  utf8Validate signed ((string.strlen : ℤ).bmod (2 ^ 32)) (string.bytes ++ 0 :: behind)

/-! ### The rows are the characters -/

section Rows

variable {signed : Bool} {row : Row} {data rest : List Byte}

/-- The bytes lie in the ranges of a row. -/
def InRow (row : Row) (bytes : List Byte) : Prop :=
  List.Forall₂ (fun range b => range.1.toNat ≤ b.toNat ∧ b.toNat ≤ range.2.toNat) row bytes

theorem InRow.length (h : InRow row data) : row.length = data.length := List.Forall₂.length_eq h

theorem charVal_range {lower upper : Byte} (half : lower.toNat < 128 ↔ upper.toNat < 128)
    (b : Byte) :
    ¬ (charVal signed b < charVal signed lower ∨ charVal signed upper < charVal signed b) ↔
      lower.toNat ≤ b.toNat ∧ b.toNat ≤ upper.toNat := by
  have bound : b.toNat < 256 := b.toNat_lt
  have upperBound : upper.toNat < 256 := upper.toNat_lt
  unfold charVal
  cases signed with
  | false => simp
  | true =>
    simp only [true_and]
    split_ifs <;> omega

/-- Both limits of each range are ASCII, or none is. -/
def Halves (row : Row) : Prop := ∀ range ∈ row, (range.1.toNat < 128 ↔ range.2.toNat < 128)

theorem rowGood_iff (halves : Halves row) :
    rowGood signed row data = some true ↔ ∃ bytes rest, data = bytes ++ rest ∧ InRow row bytes := by
  induction row generalizing data with
  | nil => exact ⟨fun _ => ⟨[], data, rfl, .nil⟩, fun _ => rfl⟩
  | cons range row ih =>
    obtain ⟨lower, upper⟩ := range
    have half := halves _ List.mem_cons_self
    have tails : rowGood signed row data.tail = some true ↔
        ∃ bytes rest, data.tail = bytes ++ rest ∧ InRow row bytes :=
      ih fun range mem => halves range (List.mem_cons_of_mem _ mem)
    cases data with
    | nil =>
      constructor
      · intro h
        cases h
      · rintro ⟨bytes, rest, split, inRow⟩
        cases inRow
        cases split
    | cons b data =>
      rw [rowGood]
      split_ifs with outside
      · constructor
        · intro h
          cases h
        · rintro ⟨bytes, rest, split, inRow⟩
          cases inRow with
          | cons first others =>
            injection split with same
            subst same
            exact absurd outside ((charVal_range half b).2 first)
      · have first := (charVal_range half b).1 outside
        rw [List.tail_cons] at tails
        rw [tails]
        constructor
        · rintro ⟨bytes, rest, rfl, inRow⟩
          exact ⟨b :: bytes, rest, rfl, .cons first inRow⟩
        · rintro ⟨bytes, rest, split, inRow⟩
          cases inRow with
          | cons first others =>
            injection split with same split
            exact ⟨_, rest, split, others⟩

theorem rowGood_ne_none (enough : row.length ≤ data.length) : rowGood signed row data ≠ none := by
  induction row generalizing data with
  | nil => simp [rowGood]
  | cons range row ih =>
    cases data with
    | nil => simp at enough
    | cons b data =>
      rw [rowGood]
      split_ifs
      · simp
      · exact ih (Nat.le_of_succ_le_succ enough)

/-- A row is only read up to the first byte outside it, so a NUL stops it where no limit is `0`. -/
theorem zero_notMem_of_none (halves : Halves row) (nonzero : ∀ range ∈ row, 0 < range.1.toNat)
    (h : rowGood signed row data = none) : 0 ∉ data := by
  induction row generalizing data with
  | nil => cases h
  | cons range row ih =>
    obtain ⟨lower, upper⟩ := range
    cases data with
    | nil => simp
    | cons b data =>
      rw [rowGood] at h
      split_ifs at h with outside
      have first := (charVal_range (halves _ List.mem_cons_self) b).1 outside
      have positive := nonzero _ List.mem_cons_self
      have others := ih (fun range mem => halves range (List.mem_cons_of_mem _ mem))
        (fun range mem => nonzero range (List.mem_cons_of_mem _ mem)) h
      rw [List.mem_cons, not_or]
      refine ⟨?_, others⟩
      rintro rfl
      exact absurd first.1 (Nat.not_le.2 positive)

theorem validRanges_halves : ∀ row ∈ validRanges, Halves row := by
  simp only [validRanges, Halves, List.forall_mem_cons]
  simp

theorem anyGood_iff {n : ℕ} {rows : List Row} (halves : ∀ row ∈ rows, Halves row) :
    anyGood signed n rows data = some true ↔
      ∃ row ∈ rows, row.length = n ∧ ∃ bytes rest, data = bytes ++ rest ∧ InRow row bytes := by
  induction rows with
  | nil => simp [anyGood]
  | cons row rows ih =>
    have others := ih fun row mem => halves row (List.mem_cons_of_mem _ mem)
    have this : rowGood signed row data = some true ↔
        ∃ bytes rest, data = bytes ++ rest ∧ InRow row bytes :=
      rowGood_iff (halves row List.mem_cons_self)
    rw [anyGood]
    split_ifs with size
    · rw [List.exists_mem_cons_iff, ← this, ← others]
      cases good : rowGood signed row data with
      | none =>
        -- the data is too short for all rows of this length
        have short : data.length < n := by
          by_contra enough
          exact rowGood_ne_none (size ▸ Nat.not_lt.1 enough) good
        simp only [reduceCtorEq, and_false, false_or, false_iff]
        rw [others]
        rintro ⟨row', -, size', bytes, rest, rfl, inRow⟩
        rw [List.length_append, ← inRow.length, size'] at short
        omega
      | some ok => cases ok <;> simp [size]
    · rw [List.exists_mem_cons_iff, ← others]
      simp [size]

theorem exists_rowGood_of_none {n : ℕ} {rows : List Row} (h : anyGood signed n rows data = none) :
    ∃ row ∈ rows, row.length = n ∧ rowGood signed row data = none := by
  induction rows with
  | nil => cases h
  | cons row rows ih =>
    rw [anyGood] at h
    split_ifs at h with size
    · split at h
      · exact ⟨row, List.mem_cons_self, size, ‹_›⟩
      · cases h
      · obtain ⟨row', mem, found⟩ := ih h
        exact ⟨row', List.mem_cons_of_mem _ mem, found⟩
    · obtain ⟨row', mem, found⟩ := ih h
      exact ⟨row', List.mem_cons_of_mem _ mem, found⟩

end Rows

/-! The bytes of a character as numbers. -/

/-- The bytes of a character. -/
def Encodes (bytes : List Byte) : Prop := ∃ c : Char, bytes = String.utf8EncodeChar c

/-- The bytes of the character with a number. -/
def codeBytes (v : ℕ) : List ℕ :=
  if v ≤ 0x7F then [v]
  else if v ≤ 0x7FF then [v / 64 + 0xC0, v % 64 + 0x80]
  else if v ≤ 0xFFFF then [v / 4096 + 0xE0, v / 64 % 64 + 0x80, v % 64 + 0x80]
  else [v / 262144 + 0xF0, v / 4096 % 64 + 0x80, v / 64 % 64 + 0x80, v % 64 + 0x80]

theorem utf8EncodeChar_toNat (c : Char) :
    (String.utf8EncodeChar c).map UInt8.toNat = codeBytes c.toNat := by
  have valid : c.toNat.isValidChar := c.valid
  unfold Nat.isValidChar at valid
  unfold String.utf8EncodeChar codeBytes
  rw [show c.val.toNat = c.toNat from rfl]
  dsimp only
  split_ifs <;> simp <;> omega

theorem toNat_injective : Function.Injective (List.map UInt8.toNat) :=
  List.map_injective_iff.2 fun _ _ h => UInt8.toNat_inj.1 h

theorem encodes_iff {bytes : List Byte} :
    Encodes bytes ↔ ∃ v : ℕ, v.isValidChar ∧ bytes.map UInt8.toNat = codeBytes v := by
  constructor
  · rintro ⟨c, rfl⟩
    exact ⟨c.toNat, c.valid, utf8EncodeChar_toNat c⟩
  · rintro ⟨v, valid, same⟩
    refine ⟨Char.ofNatAux v valid, ?_⟩
    apply toNat_injective
    rw [same, utf8EncodeChar_toNat]
    rfl

/-- The bytes with these numbers encode a character. -/
def Codes (ns : List ℕ) : Prop := ∃ v : ℕ, v.isValidChar ∧ ns = codeBytes v

theorem codes_two {a b : ℕ} (ha : 0xC2 ≤ a ∧ a ≤ 0xDF) (hb : 0x80 ≤ b ∧ b ≤ 0xBF) :
    Codes [a, b] := by
  refine ⟨(a - 0xC0) * 64 + (b - 0x80), .inl (by omega), ?_⟩
  unfold codeBytes
  rw [if_neg (by omega), if_pos (by omega)]
  simp only [List.cons.injEq, and_true]
  omega

/-- The first rows of three bytes leave out what is shorter, and the surrogates. -/
theorem codes_three {a b c : ℕ} (ha : 0xE0 ≤ a ∧ a ≤ 0xEF) (hb : 0x80 ≤ b ∧ b ≤ 0xBF)
    (hc : 0x80 ≤ c ∧ c ≤ 0xBF) (low : a = 0xE0 → 0xA0 ≤ b) (surrogate : a = 0xED → b ≤ 0x9F) :
    Codes [a, b, c] := by
  refine ⟨(a - 0xE0) * 4096 + (b - 0x80) * 64 + (c - 0x80), ?_, ?_⟩
  · unfold Nat.isValidChar
    omega
  · unfold codeBytes
    rw [if_neg (by omega), if_neg (by omega), if_pos (by omega)]
    simp only [List.cons.injEq, and_true]
    omega

theorem codes_four {a b c d : ℕ} (ha : 0xF0 ≤ a ∧ a ≤ 0xF4) (hb : 0x80 ≤ b ∧ b ≤ 0xBF)
    (hc : 0x80 ≤ c ∧ c ≤ 0xBF) (hd : 0x80 ≤ d ∧ d ≤ 0xBF) (low : a = 0xF0 → 0x90 ≤ b)
    (high : a = 0xF4 → b ≤ 0x8F) : Codes [a, b, c, d] := by
  refine ⟨(a - 0xF0) * 262144 + (b - 0x80) * 4096 + (c - 0x80) * 64 + (d - 0x80), ?_, ?_⟩
  · unfold Nat.isValidChar
    omega
  · unfold codeBytes
    rw [if_neg (by omega), if_neg (by omega), if_neg (by omega)]
    simp only [List.cons.injEq, and_true]
    omega

/-- The ranges of a row as numbers. -/
def NumRow (row : Row) (ns : List ℕ) : Prop :=
  List.Forall₂ (fun range n => range.1.toNat ≤ n ∧ n ≤ range.2.toNat) row ns

theorem codes_of_row {row : Row} (mem : row ∈ validRanges) {ns : List ℕ} (h : NumRow row ns) :
    Codes ns := by
  unfold NumRow at h
  simp only [validRanges, List.mem_cons, List.not_mem_nil, or_false] at mem
  rcases mem with rfl | rfl | rfl | rfl | rfl | rfl | rfl | rfl | rfl <;>
    simp only [List.forall₂_cons_left_iff, List.forall₂_nil_left_iff, UInt8.reduceToNat] at h
  · obtain ⟨a, _, ha, rfl, rfl⟩ := h
    exact ⟨a, .inl (by omega), (if_pos ha.2).symm⟩
  · obtain ⟨a, _, ha, ⟨b, _, hb, rfl, rfl⟩, rfl⟩ := h
    exact codes_two ha hb
  iterate 4
    · obtain ⟨a, _, ha, ⟨b, _, hb, ⟨c, _, hc, rfl, rfl⟩, rfl⟩, rfl⟩ := h
      apply codes_three <;> omega
  iterate 3
    · obtain ⟨a, _, ha, ⟨b, _, hb, ⟨c, _, hc, ⟨d, _, hd, rfl, rfl⟩, rfl⟩, rfl⟩, rfl⟩ := h
      apply codes_four <;> omega

theorem exists_row_of_codes {v : ℕ} (valid : v.isValidChar) :
    ∃ row ∈ validRanges, NumRow row (codeBytes v) := by
  unfold Nat.isValidChar at valid
  unfold codeBytes NumRow
  simp only [validRanges, List.exists_mem_cons_iff, List.not_mem_nil]
  split_ifs <;>
    simp only [List.forall₂_cons, List.forall₂_nil_left_iff, List.forall₂_nil_right_iff,
      UInt8.reduceToNat, reduceCtorEq, and_true, false_and, and_false, exists_false, or_false,
      false_or] <;>
    omega

theorem inRow_iff_encodes {bytes : List Byte} :
    (∃ row ∈ validRanges, InRow row bytes) ↔ Encodes bytes := by
  rw [encodes_iff]
  have numbers (row : Row) : InRow row bytes ↔ NumRow row (bytes.map UInt8.toNat) := by
    rw [InRow, NumRow, List.forall₂_map_right_iff]
  constructor
  · rintro ⟨row, mem, inRow⟩
    exact codes_of_row mem ((numbers row).1 inRow)
  · rintro ⟨v, valid, same⟩
    obtain ⟨row, mem, inRow⟩ := exists_row_of_codes valid
    exact ⟨row, mem, (numbers row).2 (same ▸ inRow)⟩

/-! ### One character -/

theorem charlen_eq (b : Byte) :
    charlen b =
      if b.toNat < 0x80 then 1 else if 0xF0 ≤ b.toNat then 4 else if 0xE0 ≤ b.toNat then 3
      else 2 := by
  have all : ∀ n : Fin 256, charlen (UInt8.ofNat n) =
      if (n : ℕ) < 0x80 then 1 else if 0xF0 ≤ (n : ℕ) then 4 else if 0xE0 ≤ (n : ℕ) then 3
      else 2 := by
    decide +kernel
  simpa using all ⟨b.toNat, b.toNat_lt⟩

/-- The first byte tells how long a row is. -/
theorem charlen_of_inRow {row : Row} (mem : row ∈ validRanges) {b : Byte} {bytes : List Byte}
    (h : InRow row (b :: bytes)) : charlen b = row.length := by
  rw [charlen_eq]
  simp only [validRanges, List.mem_cons, List.not_mem_nil, or_false] at mem
  rcases mem with rfl | rfl | rfl | rfl | rfl | rfl | rfl | rfl | rfl <;>
    simp only [InRow, List.forall₂_cons, UInt8.reduceToNat] at h <;>
    simp only [List.length_cons, List.length_nil] <;>
    split_ifs <;> omega

theorem utf8CharValidate_iff {signed : Bool} {len : ℤ} {data rest : List Byte} :
    utf8CharValidate signed len data = some (some rest) ↔
      ∃ c : Char, c.utf8Size ≤ len ∧ data = String.utf8EncodeChar c ++ rest := by
  rw [utf8CharValidate_eq_some]
  constructor
  · rintro ⟨b, -, fits, good, rfl⟩
    obtain ⟨row, mem, size, bytes, rest, rfl, inRow⟩ := (anyGood_iff validRanges_halves).1 good
    obtain ⟨c, rfl⟩ := inRow_iff_encodes.1 ⟨row, mem, inRow⟩
    have length : (String.utf8EncodeChar c).length = charlen b := inRow.length.symm.trans size
    refine ⟨c, ?_, ?_⟩
    · rw [← String.length_utf8EncodeChar, length]
      exact fits
    · rw [← length, List.drop_left]
  · rintro ⟨c, fits, rfl⟩
    obtain ⟨row, mem, inRow⟩ := inRow_iff_encodes.2 ⟨c, rfl⟩
    have length : (String.utf8EncodeChar c).length = c.utf8Size := String.length_utf8EncodeChar c
    cases encoded : String.utf8EncodeChar c with
    | nil =>
      have := c.utf8Size_pos
      rw [← length, encoded] at this
      exact absurd this (lt_irrefl 0)
    | cons b bytes =>
      rw [encoded] at inRow length
      have size : charlen b = row.length := charlen_of_inRow mem inRow
      have len : charlen b = c.utf8Size := by rw [size, inRow.length, length]
      refine ⟨b, rfl, by rwa [len], ?_, ?_⟩
      · exact (anyGood_iff validRanges_halves).2 ⟨row, mem, size.symm, _, rest, rfl, inRow⟩
      · rw [len, ← length, List.drop_left]

theorem zero_notMem_of_validate_none {signed : Bool} {len : ℤ} {data : List Byte}
    (h : utf8CharValidate signed len data = none) : 0 ∉ data := by
  cases data with
  | nil => exact List.not_mem_nil
  | cons b data =>
    rw [utf8CharValidate] at h
    split_ifs at h
    have none : anyGood signed (charlen b) validRanges (b :: data) = none := by
      split at h
      · assumption
      · cases h
      · cases h
    obtain ⟨row, mem, -, outside⟩ := exists_rowGood_of_none none
    have rows : ∀ row ∈ validRanges, row.length = 1 ∨ ∀ range ∈ row, 0 < range.1.toNat := by
      simp only [validRanges, List.forall_mem_cons]
      simp
    rcases rows row mem with one | nonzero
    · have enough : row.length ≤ (b :: data).length := by
        rw [one, List.length_cons]
        omega
      exact absurd outside (rowGood_ne_none enough)
    · exact zero_notMem_of_none (validRanges_halves row mem) nonzero outside

/-! ### Strings -/

/-- The bytes of a text. -/
def utf8 (cs : List Char) : List Byte := cs.flatMap String.utf8EncodeChar

@[simp]
theorem utf8_cons (c : Char) (cs : List Char) :
    utf8 (c :: cs) = String.utf8EncodeChar c ++ utf8 cs :=
  List.flatMap_cons

/-- Characters, and maybe the beginning of one that what is behind the data goes on with. -/
def Continued (len : ℤ) (data behind : List Byte) : Prop :=
  ∃ (cs : List Char) (begun : List Byte), data = utf8 cs ++ begun ∧
    (begun = [] ∨ ∃ (c : Char) (more rest : List Byte), begun ≠ [] ∧ more ≠ [] ∧
      String.utf8EncodeChar c = begun ++ more ∧ behind = more ++ rest ∧ c.utf8Size ≤ len)

section Loop

variable {signed : Bool} {len : ℤ} {data data' behind : List Byte} {c : Char}

/-- No character is the beginning of another one. -/
theorem encode_append_inj {c' : Char} {rest rest' : List Byte}
    (h : String.utf8EncodeChar c ++ rest = String.utf8EncodeChar c' ++ rest') : rest = rest' := by
  have first : utf8CharValidate false 4 (String.utf8EncodeChar c ++ rest) = some (some rest) :=
    utf8CharValidate_iff.2 ⟨c, by exact_mod_cast c.utf8Size_le_four, rfl⟩
  have second : utf8CharValidate false 4 (String.utf8EncodeChar c ++ rest) = some (some rest') :=
    utf8CharValidate_iff.2 ⟨c', by exact_mod_cast c'.utf8Size_le_four, h⟩
  simpa using first.symm.trans second

theorem Continued.exists_char (h : Continued len data behind) (nonempty : data ≠ [])
    (fits : data.length ≤ len) :
    ∃ (c : Char) (rest : List Byte), c.utf8Size ≤ len ∧
      data ++ behind = String.utf8EncodeChar c ++ rest := by
  obtain ⟨cs, begun, rfl, tail⟩ := h
  cases cs with
  | nil =>
    rcases tail with rfl | ⟨c, more, rest, -, -, encoded, rfl, size⟩
    · exact absurd rfl nonempty
    · refine ⟨c, rest, size, ?_⟩
      rw [encoded]
      simp [utf8]
  | cons c cs =>
    refine ⟨c, utf8 cs ++ begun ++ behind, ?_, by simp⟩
    have length := String.length_utf8EncodeChar c
    simp only [utf8_cons, List.length_append] at fits
    omega

theorem continued_cons :
    Continued len (String.utf8EncodeChar c ++ data') behind ↔ Continued len data' behind := by
  constructor
  · rintro ⟨cs, begun, same, tail⟩
    cases cs with
    | nil =>
      change _ = begun at same
      rcases tail with rfl | ⟨c', more, rest, -, proper, encoded, -, -⟩
      · exact absurd (List.append_eq_nil_iff.1 same).1 String.utf8EncodeChar_ne_nil
      · have whole : String.utf8EncodeChar c' ++ [] =
            String.utf8EncodeChar c ++ (data' ++ more) := by
          rw [List.append_nil, encoded, ← same, List.append_assoc]
        exact absurd (List.append_eq_nil_iff.1 (encode_append_inj whole).symm).2 proper
    | cons c' cs =>
      rw [utf8_cons, List.append_assoc] at same
      exact ⟨cs, begun, encode_append_inj same, tail⟩
  · rintro ⟨cs, begun, rfl, tail⟩
    exact ⟨c :: cs, begun, by simp, tail⟩

/-- The loop goes on behind a character that is inside the data. -/
theorem validateLoop_rest (behind : List Byte) :
    validateLoop signed len (((String.utf8EncodeChar c ++ data').length : ℕ) -
      ((String.utf8EncodeChar c ++ data' ++ behind).length - (data' ++ behind).length : ℕ))
        (data' ++ behind) = validateLoop signed len data'.length (data' ++ behind) := by
  have left : (((String.utf8EncodeChar c ++ data').length : ℕ) : ℤ) -
      ((String.utf8EncodeChar c ++ data' ++ behind).length - (data' ++ behind).length : ℕ) =
        data'.length := by
    simp only [List.length_append]
    omega
  rw [left]

theorem length_lt_encode_append : data'.length < (String.utf8EncodeChar c ++ data').length := by
  have size := List.length_pos_of_ne_nil (String.utf8EncodeChar_ne_nil (c := c))
  rw [List.length_append]
  omega

/-- A character that begins in the data and ends behind them. -/
theorem continued_of_crossing {rest : List Byte} (nonempty : data ≠ []) (size : c.utf8Size ≤ len)
    (same : data ++ behind = String.utf8EncodeChar c ++ rest)
    (crossing : data.length < (String.utf8EncodeChar c).length) : Continued len data behind := by
  obtain ⟨more, encoded⟩ : data <+: String.utf8EncodeChar c :=
    List.prefix_of_prefix_length_le ⟨behind, rfl⟩ ⟨rest, same.symm⟩ crossing.le
  refine ⟨[], data, rfl, .inr ⟨c, more, rest, nonempty, ?_, encoded.symm, ?_, size⟩⟩
  · rintro rfl
    rw [← encoded, List.append_nil] at crossing
    exact lt_irrefl _ crossing
  · rw [← encoded, List.append_assoc] at same
    exact List.append_cancel_left same

theorem validateLoop_iff (fits : data.length ≤ len) :
    validateLoop signed len data.length (data ++ behind) = some true ↔
      Continued len data behind := by
  induction h : data.length using Nat.strongRecOn generalizing data with
  | ind n ih =>
    subst h
    rw [validateLoop]
    split_ifs with more
    · have nonempty : data ≠ [] := by
        rintro rfl
        simp at more
      have accepted (h : Continued len data behind) :
          ∃ rest, utf8CharValidate signed len (data ++ behind) = some (some rest) := by
        obtain ⟨c, rest, size, same⟩ := h.exists_char nonempty fits
        exact ⟨rest, utf8CharValidate_iff.2 ⟨c, size, same⟩⟩
      split
      · rename_i outside
        simpa [outside] using accepted
      · rename_i refused
        simpa [refused] using accepted
      · rename_i rest checked
        obtain ⟨c, size, same⟩ := utf8CharValidate_iff.1 checked
        rcases le_or_gt (String.utf8EncodeChar c).length data.length with whole | crossing
        · obtain ⟨data', rfl⟩ : String.utf8EncodeChar c <+: data :=
            List.prefix_of_prefix_length_le ⟨rest, same.symm⟩ ⟨behind, rfl⟩ whole
          have next : rest = data' ++ behind := by
            rw [List.append_assoc] at same
            exact (List.append_cancel_left same).symm
          have shorter : data'.length < (String.utf8EncodeChar c ++ data').length :=
            length_lt_encode_append
          rw [next, validateLoop_rest, continued_cons]
          exact ih _ shorter (by omega) rfl
        · -- the loop stops behind the end
          have stops : ¬ 0 < (data.length : ℤ) - ((data ++ behind).length - rest.length : ℕ) := by
            have length := congrArg List.length same
            rw [List.length_append, List.length_append] at length
            rw [List.length_append]
            omega
          rw [validateLoop, if_neg stops]
          simp only [true_iff]
          exact continued_of_crossing nonempty size same crossing
    · have empty : data = [] := by
        rw [← List.length_eq_zero_iff]
        omega
      simp only [true_iff]
      exact ⟨[], [], empty, .inl rfl⟩

end Loop

theorem utf8Validate_eq (signed : Bool) (len : ℕ) (data : List Byte) :
    utf8Validate signed len data = validateLoop signed len len data := by
  rw [utf8Validate, validateLoop]
  rcases Nat.eq_zero_or_pos len with rfl | positive
  · simp
  · rw [if_neg (by omega), if_pos (by omega)]
    split <;> split <;> simp_all

/-- A string with a length is accepted exactly if it is characters, or characters and the beginning
of one that the memory behind it goes on with and that is not longer than the whole string:
`UTF8_char_validate` gets the length of the string for every character. -/
theorem utf8Validate_iff (signed : Bool) (data behind : List Byte) :
    utf8Validate signed data.length (data ++ behind) = some true ↔
      Continued data.length data behind := by
  rw [utf8Validate_eq]
  exact validateLoop_iff (Int.le_refl _)

/-! ### C strings -/

theorem encode_of_zero_mem {c : Char} (h : 0 ∈ String.utf8EncodeChar c) :
    String.utf8EncodeChar c = [0] := by
  have mem : 0 ∈ codeBytes c.toNat := by
    rw [← utf8EncodeChar_toNat]
    exact List.mem_map_of_mem h
  have zero : c.toNat = 0 := by
    unfold codeBytes at mem
    split_ifs at mem <;> simp at mem
    exact mem.symm
  apply toNat_injective
  rw [utf8EncodeChar_toNat, zero]
  rfl

/-- A character that begins in a string ends in it. -/
theorem exists_of_string {s behind rest : List Byte} {c : Char} (nonempty : s ≠ [])
    (h : s ++ 0 :: behind = String.utf8EncodeChar c ++ rest) :
    ∃ s', s = String.utf8EncodeChar c ++ s' ∧ rest = s' ++ 0 :: behind := by
  rcases List.append_eq_append_iff.1 h with ⟨more, encoded, next⟩ | ⟨s', inside, next⟩
  · cases more with
    | nil =>
      rw [List.append_nil] at encoded
      exact ⟨[], by rw [encoded, List.append_nil], next.symm⟩
    | cons b more =>
      injection next with nul next
      subst nul
      have only : [0] = s ++ 0 :: more := by
        rw [← encoded, encode_of_zero_mem]
        rw [encoded]
        exact List.mem_append_right _ List.mem_cons_self
      have length := congrArg List.length only
      simp only [List.length_append, List.length_cons, List.length_nil] at length
      have := List.length_pos_of_ne_nil nonempty
      omega
  · exact ⟨s', inside, next⟩

/-- What a string goes on with is never its terminator. -/
theorem continued_string {len : ℤ} {s behind : List Byte} :
    Continued len s (0 :: behind) ↔ ∃ cs, s = utf8 cs := by
  constructor
  · rintro ⟨cs, begun, rfl, rfl | ⟨c, more, rest, nonempty, proper, encoded, same, -⟩⟩
    · exact ⟨cs, List.append_nil _⟩
    · have crossing : begun ++ 0 :: behind = String.utf8EncodeChar c ++ rest := by
        rw [same, encoded, List.append_assoc]
      obtain ⟨s', inside, -⟩ := exists_of_string nonempty crossing
      have length := congrArg List.length inside
      rw [encoded, List.length_append, List.length_append] at length
      have := List.length_pos_of_ne_nil proper
      omega
  · rintro ⟨cs, rfl⟩
    exact ⟨cs, [], (List.append_nil _).symm, .inl rfl⟩

/-- Nothing behind the terminator is read. -/
theorem validateLoop_ne_none {signed : Bool} {len : ℤ} {s behind : List Byte} :
    validateLoop signed len s.length (s ++ 0 :: behind) ≠ none := by
  induction h : s.length using Nat.strongRecOn generalizing s with
  | ind n ih =>
    subst h
    rw [validateLoop]
    split_ifs with more
    · have nonempty : s ≠ [] := by
        rintro rfl
        simp at more
      split
      · rename_i outside
        exact absurd (List.mem_append_right _ List.mem_cons_self)
          (zero_notMem_of_validate_none outside)
      · simp
      · rename_i rest checked
        obtain ⟨c, -, same⟩ := utf8CharValidate_iff.1 checked
        obtain ⟨s', rfl, rfl⟩ := exists_of_string nonempty same
        rw [validateLoop_rest]
        exact ih _ length_lt_encode_append rfl
    · simp

/-- A C string is accepted exactly if it is the encoding of characters, whatever is in memory behind
it, which is not read; `char` may be signed or not. -/
theorem utf8ValidateString_iff (signed : Bool) (string : CStr) (behind : List Byte)
    (fits : string.strlen < 2 ^ 31) :
    utf8ValidateString signed string behind ≠ none ∧
      (utf8ValidateString signed string behind = some true ↔ ∃ cs, string.bytes = utf8 cs) := by
  have int : (string.strlen : ℤ).bmod (2 ^ 32) = string.bytes.length := by
    change (string.bytes.length : ℤ).bmod _ = _
    change string.bytes.length < _ at fits
    rw [Int.bmod_def]
    omega
  rw [utf8ValidateString, int, utf8Validate_iff, continued_string, utf8Validate_eq]
  exact ⟨validateLoop_ne_none, Iff.rfl⟩

/-- The euro sign is accepted. -/
theorem utf8ValidateString_iff_sample :
    utf8ValidateString true ⟨[0xE2, 0x82, 0xAC], by decide⟩ [7] ≠ none ∧
      (utf8ValidateString true ⟨[0xE2, 0x82, 0xAC], by decide⟩ [7] = some true ↔
        ∃ cs, [0xE2, 0x82, 0xAC] = utf8 cs) :=
  utf8ValidateString_iff true ⟨[0xE2, 0x82, 0xAC], by decide⟩ [7] (by decide)

/-- A string with a length, whose last character is only begun. -/
example : utf8Validate true 4 ([0x61, 0x61, 0xE2, 0x82] ++ [0xAC]) = some true ∧
    utf8Validate true 4 ([0x61, 0x61, 0xE2, 0x82] ++ [0]) = some false := by
  decide +kernel

end Siproxy.Mqtt
