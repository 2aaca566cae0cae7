import Mathlib.Data.List.TakeWhile
import Mathlib.Tactic.Common

/-!
# Bytes, C strings and character arrays

A `char` is a byte, a C string is the list of the bytes in front of its terminator (`CStr`), and a
`char a[n]` is a list of exactly `n` bytes (`CharArray n`).  The operations of `string.h` and
`stdio.h` that copy into an array return `none` where they would leave it.
-/

namespace CString

/-- A `char`, read as an `unsigned char`. -/
abbrev Byte := UInt8

/-- The bytes of a string literal. -/
def text (s : String) : List Byte := s.toList.map fun c => UInt8.ofNat c.toNat

/-- A property of each byte of a list, from the test of the list. -/
theorem forall_mem_of_all {p : Byte → Prop} [DecidablePred p] {s : List Byte}
    (h : s.all (fun b => p b) = true) : ∀ b ∈ s, p b := by
  simpa using h

/-- The C string that starts where `mem` does: the bytes in front of the first NUL. -/
def cstr (mem : List Byte) : List Byte := mem.takeWhile (· ≠ 0)

theorem cstr_noNul (mem : List Byte) : 0 ∉ cstr mem := fun h => by
  simpa using List.mem_takeWhile_imp h

theorem cstr_of_noNul {mem : List Byte} (h : 0 ∉ mem) : cstr mem = mem := by
  rw [cstr, List.takeWhile_eq_self_iff]
  intro b hb
  simpa using ne_of_mem_of_not_mem hb h

theorem cstr_append {s : List Byte} (h : 0 ∉ s) (rest : List Byte) :
    cstr (s ++ rest) = s ++ cstr rest := by
  rw [cstr, List.takeWhile_append_of_pos]
  · rfl
  · intro b hb
    simpa using ne_of_mem_of_not_mem hb h

theorem cstr_append_nul {s : List Byte} (h : 0 ∉ s) (rest : List Byte) :
    cstr (s ++ 0 :: rest) = s := by
  rw [cstr_append h]
  simp [cstr]

/-- An array whose first bytes have been written. -/
def overlay (s buf : List Byte) : List Byte := s ++ buf.drop s.length

@[simp]
theorem overlay_nil (buf : List Byte) : overlay [] buf = buf := rfl

theorem length_overlay {s buf : List Byte} (h : s.length ≤ buf.length) :
    (overlay s buf).length = buf.length := by
  simp only [overlay, List.length_append, List.length_drop]
  omega

theorem set_overlay {s buf : List Byte} (h : s.length < buf.length) (b : Byte) :
    (overlay s buf).set s.length b = overlay (s ++ [b]) buf := by
  have next : buf.drop s.length = buf[s.length] :: buf.drop (s.length + 1) :=
    List.drop_eq_getElem_cons h
  rw [overlay, overlay, List.set_append_right _ _ le_rfl, Nat.sub_self, next, List.set_cons_zero,
    List.length_append, List.length_singleton, List.append_assoc]
  rfl

theorem cstr_overlay {s : List Byte} (h : 0 ∉ s) (buf : List Byte) :
    cstr (overlay (s ++ [0]) buf) = s := by
  rw [overlay, List.append_assoc]
  exact cstr_append_nul h _

/-- A C string without its terminator. -/
structure CStr where
  bytes : List Byte
  noNul : 0 ∉ bytes
  deriving DecidableEq

namespace CStr

@[ext]
theorem ext {s t : CStr} (h : s.bytes = t.bytes) : s = t := by
  cases s
  cases t
  simpa using h

/-- `strlen`. -/
def strlen (s : CStr) : ℕ := s.bytes.length

/-- A string literal of the program text. -/
def lit (s : String) (h : 0 ∉ text s) : CStr := ⟨text s, h⟩

/-- `n` bytes of a string from offset `i` on. -/
def slice (s : CStr) (i n : ℕ) : CStr :=
  ⟨(s.bytes.drop i).take n, fun h => s.noNul (List.mem_of_mem_drop (List.mem_of_mem_take h))⟩

end CStr

/-- `strstr`: the offset of the first occurrence of `needle`. -/
def strstr (needle : List Byte) : List Byte → Option ℕ
  | [] => if needle = [] then some 0 else none
  | b :: hay =>
    if needle.isPrefixOf (b :: hay) then some 0 else (strstr needle hay).map (· + 1)

theorem strstr_singleton {q : Byte} {pre : List Byte} (h : q ∉ pre) (rest : List Byte) :
    strstr [q] (pre ++ q :: rest) = some pre.length := by
  induction pre with
  | nil => simp [strstr]
  | cons b pre ih =>
    rw [List.mem_cons, not_or] at h
    simp [strstr, h.1, ih h.2]

theorem strstr_singleton_eq_none {q : Byte} {s : List Byte} : strstr [q] s = none ↔ q ∉ s := by
  induction s with
  | nil => simp [strstr]
  | cons b s ih =>
    by_cases hq : q = b
    · simp [strstr, hq]
    · simp [strstr, hq, ih]

theorem strstr_singleton_iff {q : Byte} {s : List Byte} {i : ℕ} :
    strstr [q] s = some i ↔ ∃ pre post, s = pre ++ q :: post ∧ q ∉ pre ∧ pre.length = i := by
  constructor
  · intro h
    have hq : q ∈ s := by
      by_contra hq
      rw [strstr_singleton_eq_none.2 hq] at h
      cases h
    obtain ⟨pre, post, rfl, hpre⟩ := List.eq_append_cons_of_mem hq
    rw [strstr_singleton hpre, Option.some.injEq] at h
    exact ⟨pre, post, rfl, hpre, h⟩
  · rintro ⟨pre, post, rfl, hpre, rfl⟩
    exact strstr_singleton hpre post

/-- The bytes between the first `l` of a text and the first `r` behind it. -/
def Between (l r : Byte) (s t : List Byte) : Prop :=
  ∃ pre post, s = pre ++ l :: (t ++ r :: post) ∧ l ∉ pre ∧ r ∉ t

/-- What `snprintf (dst, size, "%s", s)` stores in front of its terminator, for `size ≠ 0`. -/
def snprintf (size : ℕ) (s : CStr) : CStr := s.slice 0 (size - 1)

theorem strlen_snprintf (size : ℕ) (s : CStr) :
    (snprintf size s).strlen = min (size - 1) s.strlen := by
  simp [snprintf, CStr.slice, CStr.strlen]

theorem strlen_snprintf_lt {size : ℕ} (h : size ≠ 0) (s : CStr) :
    (snprintf size s).strlen < size := by
  rw [strlen_snprintf]
  omega

/-- A `char a[n]`. -/
structure CharArray (n : ℕ) where
  bytes : List Byte
  size : bytes.length = n
  deriving DecidableEq

namespace CharArray

variable {n : ℕ}

@[ext]
theorem ext {a b : CharArray n} (h : a.bytes = b.bytes) : a = b := by
  cases a
  cases b
  simpa using h

/-- `memset (a, 0, sizeof (a))`. -/
def zero (n : ℕ) : CharArray n := ⟨List.replicate n 0, List.length_replicate⟩

/-- `strncpy (a, s, len)`: the first `len` bytes of `s`, filled up with NULs, and no terminator. -/
def strncpy (a : CharArray n) (s : CStr) (len : ℕ) : Option (CharArray n) :=
  if h : len ≤ n then
    some ⟨s.bytes.take len ++ List.replicate (len - s.strlen) 0 ++ a.bytes.drop len, by
      simp only [List.length_append, List.length_take, List.length_replicate, List.length_drop,
        a.size, CStr.strlen]
      omega⟩
  else none

/-- The C string stored in an array, if it is terminated inside the array. -/
def str? (a : CharArray n) : Option CStr :=
  if 0 ∈ a.bytes then some ⟨cstr a.bytes, cstr_noNul a.bytes⟩ else none

theorem strncpy_strlen {a : CharArray n} {s : CStr} (h : s.strlen ≤ n) :
    ∃ b, a.strncpy s s.strlen = some b ∧ b.bytes = s.bytes ++ a.bytes.drop s.strlen := by
  refine ⟨_, dif_pos h, ?_⟩
  simp [CStr.strlen]

theorem strncpy_eq_some {a b : CharArray n} {s : CStr} (h : a.strncpy s s.strlen = some b) :
    s.strlen ≤ n ∧ b.bytes = s.bytes ++ a.bytes.drop s.strlen := by
  unfold strncpy at h
  split_ifs at h with hle
  · obtain rfl := Option.some.inj h
    exact ⟨hle, by simp [CStr.strlen]⟩

/-- A string copied over a zeroed array is read back as it was, when there is room for a NUL. -/
theorem str?_of_zero {b : CharArray n} {s : CStr} (room : s.strlen < n)
    (h : b.bytes = s.bytes ++ (zero n).bytes.drop s.strlen) : b.str? = some s := by
  have hz : (zero n).bytes.drop s.strlen = 0 :: List.replicate (n - s.strlen - 1) 0 := by
    rw [zero, List.drop_replicate, ← List.replicate_succ]
    congr 1
    omega
  rw [hz] at h
  rw [str?, if_pos (by simp [h])]
  congr 1
  ext1
  simpa only [h] using cstr_append_nul s.noNul _

end CharArray

/-- A `char a[n]` in memory that has not been written completely: a cell without a value is
indeterminate. -/
structure Cells (n : ℕ) where
  cells : List (Option Byte)
  size : cells.length = n
  deriving DecidableEq

namespace Cells

variable {n : ℕ}

/-- The array as `malloc` returns it. -/
def fresh (n : ℕ) : Cells n := ⟨List.replicate n none, List.length_replicate⟩

/-- `snprintf (a, size, "%s", s)`: nothing is stored for `size = 0`, and nothing is known after a
write that leaves the array. -/
def snprintf (a : Cells n) (size : ℕ) (s : CStr) : Option (Cells n) :=
  if size = 0 then some a
  else if h : (CString.snprintf size s).strlen < n then
    some ⟨((CString.snprintf size s).bytes ++ [0]).map some ++
        a.cells.drop ((CString.snprintf size s).strlen + 1), by
      simp only [List.length_append, List.length_map, List.length_drop, List.length_singleton,
        a.size, CStr.strlen] at h ⊢
      omega⟩
  else none

/-- The array starts with the string and its terminator. -/
def Holds (a : Cells n) (s : CStr) : Prop := (s.bytes ++ [0]).map some <+: a.cells

instance (a : Cells n) (s : CStr) : Decidable (a.Holds s) :=
  inferInstanceAs (Decidable (_ <+: _))

theorem Holds.strlen_lt {a : Cells n} {s : CStr} (h : a.Holds s) : s.strlen < n := by
  have := h.length_le
  simp only [List.length_map, List.length_append, List.length_singleton, a.size] at this
  exact this

theorem not_holds_fresh (s : CStr) : ¬ (fresh n).Holds s := by
  intro h
  have hmem : some 0 ∈ (fresh n).cells := h.subset (by simp)
  simp [fresh, List.mem_replicate] at hmem

theorem snprintf_zero (a : Cells n) (s : CStr) : a.snprintf 0 s = some a := rfl

theorem snprintf_eq_none_iff {a : Cells n} {size : ℕ} {s : CStr} :
    a.snprintf size s = none ↔ size ≠ 0 ∧ n ≤ (CString.snprintf size s).strlen := by
  unfold snprintf
  split_ifs with hz h
  · simp [hz]
  · simpa [hz] using h
  · simpa [hz] using h

theorem Holds.of_snprintf {a b : Cells n} {size : ℕ} {s : CStr} (hz : size ≠ 0)
    (h : a.snprintf size s = some b) : b.Holds (CString.snprintf size s) := by
  unfold snprintf at h
  rw [if_neg hz] at h
  split_ifs at h
  cases h
  exact List.prefix_append _ _

end Cells

end CString
