import Siproxy.ModemLines

/-!
# Successive lines

`read_line` called again and again on one descriptor.  An interrupted `read` is restarted and leaves
no trace (`readLine_uninterrupted`), and each call consumes one line of the stream, of which it
stores as much as its buffer has room for (`readLines_eq`).
-/

namespace Siproxy

open CString

/-! ### Interruptions -/

/-- What the reads return apart from `EINTR`. -/
def uninterrupted (rs : List Read) : List Read := rs.filter (· ≠ .eintr)

theorem uninterrupted_cons {r : Read} (h : r ≠ .eintr) (rs : List Read) :
    uninterrupted (r :: rs) = r :: uninterrupted rs := by
  simp [uninterrupted, h]

/-- The result of `read_line`, without the interruptions of the reads to come. -/
def forget (r : ℤ × List Byte × List Read) : ℤ × List Byte × List Read :=
  (r.1, r.2.1, uninterrupted r.2.2)

theorem readLoop_uninterrupted (n tot : ℕ) (buf : List Byte) (rs : List Read) :
    (readLoop n tot buf rs).map forget = readLoop n tot buf (uninterrupted rs) := by
  induction rs generalizing tot buf with
  | nil => rfl
  | cons r rs ih =>
    cases r with
    | eintr => exact ih tot buf
    | error => rfl
    | eof =>
      rw [uninterrupted_cons (by decide)]
      simp only [readLoop]
      split_ifs <;> rfl
    | byte ch =>
      rw [uninterrupted_cons (by simp)]
      by_cases hch : ch = 10
      · simp only [readLoop, hch, if_true]
        rfl
      · simp only [readLoop, hch, if_false]
        exact ih _ _

/-- Interruptions neither change what `read_line` returns nor which reads it leaves. -/
theorem readLine_uninterrupted {n : ℕ} (hn : n ≠ 0) (buf : List Byte) (rs : List Read) :
    (readLine n buf rs).map forget = readLine n buf (uninterrupted rs) := by
  rw [readLine, readLine, if_neg hn, if_neg hn]
  exact readLoop_uninterrupted n 0 buf rs

/-! ### Successive calls -/

/-- Calls of `read_line`, one for each buffer: what they return and store, and what is left to
read.  There is no value if one of them waits for a byte that does not come. -/
def readLines (n : ℕ) :
    List (List Byte) → List Read → Option (List (ℤ × List Byte) × List Read)
  | [], rs => some ([], rs)
  | buf :: bufs, rs =>
    match readLine n buf rs with
    | none => none
    | some (k, buf', rs') => (readLines n bufs rs').map fun r => ((k, buf') :: r.1, r.2)

theorem readLines_of_some {n : ℕ} {buf buf' : List Byte} {bufs : List (List Byte)}
    {rs rs' : List Read} {k : ℤ} (h : readLine n buf rs = some (k, buf', rs')) :
    readLines n (buf :: bufs) rs =
      (readLines n bufs rs').map fun r => ((k, buf') :: r.1, r.2) := by
  rw [readLines, h]

theorem readLines_uninterrupted {n : ℕ} (hn : n ≠ 0) (bufs : List (List Byte)) (rs : List Read) :
    (readLines n bufs rs).map (fun r => (r.1, uninterrupted r.2)) =
      readLines n bufs (uninterrupted rs) := by
  induction bufs generalizing rs with
  | nil => rfl
  | cons buf bufs ih =>
    have clean := readLine_uninterrupted hn buf rs
    rcases hread : readLine n buf rs with _ | ⟨k, buf', rs'⟩
    · rw [hread] at clean
      rw [readLines, hread, readLines, ← clean]
      rfl
    · rw [hread] at clean
      rw [readLines_of_some hread, readLines_of_some clean.symm, ← ih rs', Option.map_map,
        Option.map_map]
      rfl

/-- What calls have to return for the lines of a stream: the first `n - 1` bytes of each line with a
NUL behind them, and `0` when there are no more lines. -/
def linesRead (n : ℕ) : List (List Byte) → List (List Byte) → List (ℤ × List Byte)
  | _, [] => []
  | [], buf :: bufs => (0, buf) :: linesRead n [] bufs
  | line :: lines, buf :: bufs =>
    ((min (n - 1) line.length : ℕ), overlay (line.take (n - 1) ++ [0]) buf) ::
      linesRead n lines bufs

/-- At the end of the file, every call returns `0`. -/
theorem readLines_eof {n : ℕ} (hn : n ≠ 0) (bufs : List (List Byte)) (k : ℕ) :
    readLines n bufs (List.replicate (bufs.length + k) .eof) =
      some (linesRead n [] bufs, List.replicate k .eof) := by
  induction bufs with
  | nil => simp [readLines, linesRead]
  | cons buf bufs ih =>
    have read : readLine n buf (.eof :: List.replicate (bufs.length + k) .eof) =
        some (0, buf, List.replicate (bufs.length + k) .eof) := by
      rw [readLine, if_neg hn]
      rfl
    have count : (buf :: bufs).length + k = bufs.length + k + 1 := by
      rw [List.length_cons]
      omega
    rw [count, List.replicate_succ, readLines_of_some read, ih]
    rfl

/-- The lines of a stream that ends: `ls` end in a newline, and `rest` does not. -/
theorem readLines_lines {n : ℕ} (hn : 2 ≤ n) {ls : List (List Byte)} {rest : List Byte}
    (hls : ∀ l ∈ ls, 10 ∉ l) (hrest : 10 ∉ rest) {k : ℕ} {bufs : List (List Byte)}
    (size : ∀ buf ∈ bufs, n ≤ buf.length) (enough : bufs.length ≤ ls.length + k) :
    let lines := ls.map (· ++ [10]) ++ if rest ≠ [] then [rest] else []
    readLines n bufs (lines.flatten.map .byte ++ List.replicate k .eof) =
      some (linesRead n lines bufs, (lines.drop bufs.length).flatten.map .byte ++
        List.replicate (k - (bufs.length - ls.length)) .eof) := by
  intro lines
  induction ls generalizing bufs with
  | nil =>
    -- the line that is open at the end of the file, if there is one
    cases bufs with
    | nil => simp [readLines, linesRead]
    | cons buf bufs =>
      rw [List.forall_mem_cons] at size
      rw [List.length_cons, List.length_nil, Nat.zero_add] at enough
      obtain ⟨k, rfl⟩ := Nat.exists_eq_add_of_le enough
      by_cases hopen : rest = []
      · have none : lines = [] := by simp [lines, hopen]
        have count : bufs.length + 1 + k = (buf :: bufs).length + k := rfl
        simp only [none, count, List.flatten_nil, List.map_nil, List.nil_append, List.drop_nil,
          readLines_eof (show n ≠ 0 by omega)]
        simp
      · have one : lines = [rest] := by simp [lines, hopen]
        have read := @readLine_eof n rest buf (List.replicate (bufs.length + k) .eof) (by omega)
          size.1 hrest
        rw [if_neg hopen, List.length_take] at read
        have count : bufs.length + 1 + k = bufs.length + k + 1 := by omega
        rw [one, List.flatten_singleton, count, List.replicate_succ, readLines_of_some read,
          readLines_eof (by omega)]
        simp [linesRead]
  | cons s ls ih =>
    cases bufs with
    | nil => simp [readLines, linesRead]
    | cons buf bufs =>
      rw [List.forall_mem_cons] at hls size
      rw [List.length_cons, List.length_cons] at enough
      have next := ih hls.2 size.2 (by omega)
      have read := @readLine_line n s buf
        ((ls.map (· ++ [10]) ++ if rest ≠ [] then [rest] else []).flatten.map .byte ++
          List.replicate k .eof) (by omega) size.1 hls.1
      rw [List.length_take] at read
      have shape : lines.flatten.map Read.byte ++ List.replicate k .eof =
          s.map .byte ++ .byte 10 ::
            ((ls.map (· ++ [10]) ++ if rest ≠ [] then [rest] else []).flatten.map .byte ++
              List.replicate k .eof) := by
        simp [lines]
      rw [shape, readLines_of_some read, next]
      simp [lines, linesRead]

/-- For every stream, every pattern of interruptions and every buffer size from 2 on: as long as the
calls do not wait for bytes that have not come, they return the lines of the stream in order, each
cut to its buffer, and then `0`; they consume exactly these lines; no line is returned as `0`, and
the lines are all of the stream. -/
theorem readLines_eq (n : ℕ) (hn : 2 ≤ n) (bs : List Byte) (k : ℕ) (rs : List Read)
    (stream : uninterrupted rs = bs.map .byte ++ List.replicate k .eof)
    (bufs : List (List Byte)) (size : ∀ buf ∈ bufs, n ≤ buf.length) :
    (bufs.length ≤ (Lines.scan 10 [] bs).1.length + k →
      ∃ rs', readLines n bufs rs = some (linesRead n (received .eof bs) bufs, rs') ∧
        uninterrupted rs' = ((received .eof bs).drop bufs.length).flatten.map .byte ++
          List.replicate (k - (bufs.length - (Lines.scan 10 [] bs).1.length)) .eof) ∧
      (∀ line ∈ received .eof bs, 0 < min (n - 1) line.length) ∧
      (received .eof bs).flatten = bs := by
  have join := Lines.scan_join 10 [] bs
  obtain ⟨hls, hrest⟩ := @Lines.scan_free _ _ 10 [] List.not_mem_nil bs
  have lines : received .eof bs = (Lines.scan 10 [] bs).1.map (· ++ [10]) ++
      if (Lines.scan 10 [] bs).2 ≠ [] then [(Lines.scan 10 [] bs).2] else [] := by
    simp [received]
  have whole : (received .eof bs).flatten = bs := by
    rw [lines]
    conv_rhs => rw [← List.nil_append bs, join]
    by_cases hopen : (Lines.scan 10 [] bs).2 = [] <;> simp [hopen]
  refine ⟨fun enough => ?_, fun line hline => ?_, whole⟩
  · have read := @readLines_lines n hn _ _ hls hrest k bufs size enough
    dsimp only at read
    rw [← lines, whole, ← stream, ← readLines_uninterrupted (by omega)] at read
    obtain ⟨⟨outs, rs'⟩, hread, hrs'⟩ := Option.map_eq_some_iff.1 read
    rw [Prod.mk.injEq] at hrs'
    obtain ⟨rfl, hleft⟩ := hrs'
    exact ⟨rs', hread, hleft⟩
  · have some : line ≠ [] := by
      rw [lines, List.mem_append] at hline
      rcases hline with hline | hline
      · obtain ⟨s, -, rfl⟩ := List.mem_map.1 hline
        simp
      · split_ifs at hline with hopen
        · rwa [List.mem_singleton.1 hline]
        · simp at hline
    have := List.length_pos_iff.2 some
    omega

/-- A short line, one that is cut and one without a newline, with interruptions in front of, between
and behind the first two bytes. -/
def sampleReads : List Read :=
  [.eintr, .byte 65, .eintr, .byte 10, .eintr, .eintr, .byte 66, .byte 67, .byte 68, .byte 69,
    .byte 10, .byte 70, .eof, .eof]

theorem readLines_eq_sample :
    ∃ rs', readLines 4 (List.replicate 4 [0, 0, 0, 0]) sampleReads =
      some ([(2, [65, 10, 0, 0]), (3, [66, 67, 68, 0]), (1, [70, 0, 0, 0]), (0, [0, 0, 0, 0])],
        rs') := by
  obtain ⟨rs', read, -⟩ := (readLines_eq 4 (by decide) [65, 10, 66, 67, 68, 69, 10, 70] 2
    sampleReads (by decide) (List.replicate 4 [0, 0, 0, 0]) (by decide)).1 (by decide)
  exact ⟨rs', read⟩

end Siproxy
