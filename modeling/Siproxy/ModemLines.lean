import Siproxy.Lib.Lines
import Siproxy.Producers

/-!
# Lines from the modem

What `read_line` returns for the bytes of the serial port, and the two loops that wait for one
particular line: `modem_cmd_wait` and the loop of `modem_event_sms_queue`.

`loops_return_iff`: on an input that ends, each loop returns exactly if the line that it waits for
is among the lines received.
-/

namespace Siproxy

open CString

/-! ### `read_line` -/

section ReadLine

variable {n : ℕ} {kept s buf : List Byte} {rs : List Read}

/-- One byte, behind the bytes kept so far. -/
theorem readLoop_byte (room : kept.length < n) (hn : n ≤ buf.length) (ch : Byte) :
    readLoop n kept.length (overlay kept buf) (.byte ch :: rs) =
      if ch = 10 then some ((((kept ++ [ch]).take (n - 1)).length : ℤ),
        overlay ((kept ++ [ch]).take (n - 1) ++ [0]) buf, rs)
      else readLoop n ((kept ++ [ch]).take (n - 1)).length
        (overlay ((kept ++ [ch]).take (n - 1)) buf) rs := by
  have full (h : ¬ kept.length < n - 1) : (kept ++ [ch]).take (n - 1) = kept := by
    have len : n - 1 = kept.length := by omega
    rw [len, List.take_left]
  have more (h : kept.length < n - 1) : (kept ++ [ch]).take (n - 1) = kept ++ [ch] := by
    apply List.take_of_length_le
    simp only [List.length_append, List.length_singleton]
    omega
  simp only [readLoop]
  by_cases h : kept.length < n - 1
  · have len : (kept ++ [ch]).length = kept.length + 1 := by simp
    rw [more h, if_pos h, if_pos h, set_overlay (by omega), len]
    split_ifs
    · rw [← len, set_overlay (by omega)]
    · rfl
  · rw [full h, if_neg h, if_neg h]
    split_ifs
    · rw [set_overlay (by omega)]
    · rfl

theorem take_append_take (m : ℕ) (x y : List Byte) :
    (x.take m ++ y).take m = (x ++ y).take m := by
  rcases le_total x.length m with h | h
  · rw [List.take_of_length_le h]
  · have len : (x.take m).length = m := by simp [h]
    rw [List.take_append_of_le_length h, List.take_append_of_le_length len.ge, List.take_take,
      Nat.min_self]

/-- Bytes without a newline: the first `n - 1` are kept. -/
theorem readLoop_bytes (room : kept.length < n) (hn : n ≤ buf.length) (hs : 10 ∉ s) :
    readLoop n kept.length (overlay kept buf) (s.map .byte ++ rs) =
      readLoop n ((kept ++ s).take (n - 1)).length (overlay ((kept ++ s).take (n - 1)) buf) rs := by
  induction s generalizing kept with
  | nil =>
    have all : kept.take (n - 1) = kept := List.take_of_length_le (by omega)
    simp [all]
  | cons ch s ih =>
    rw [List.mem_cons, not_or] at hs
    have short : ((kept ++ [ch]).take (n - 1)).length < n := by
      have := List.length_take_le (n - 1) (kept ++ [ch])
      omega
    have cut : ((kept ++ [ch]).take (n - 1) ++ s).take (n - 1) =
        (kept ++ ch :: s).take (n - 1) := by
      rw [take_append_take, List.append_assoc, List.singleton_append]
    rw [List.map_cons, List.cons_append, readLoop_byte room hn, if_neg (Ne.symm hs.1),
      ih short hs.2, cut]

/-- A line that ends in a newline: it is cut to `n - 1` bytes. -/
theorem readLine_line (hpos : 0 < n) (hn : n ≤ buf.length) (hs : 10 ∉ s) :
    readLine n buf (s.map .byte ++ .byte 10 :: rs) =
      some ((((s ++ [10]).take (n - 1)).length : ℤ), overlay ((s ++ [10]).take (n - 1) ++ [0]) buf,
        rs) := by
  have short : (s.take (n - 1)).length < n := by
    have := List.length_take_le (n - 1) s
    omega
  have first := @readLoop_bytes n [] s buf (.byte 10 :: rs) hpos hn hs
  rw [List.length_nil, overlay_nil, List.nil_append] at first
  rw [readLine, if_neg hpos.ne', first, readLoop_byte short hn, if_pos rfl, take_append_take]

theorem readLine_eof (hpos : 1 < n) (hn : n ≤ buf.length) (hs : 10 ∉ s) :
    readLine n buf (s.map .byte ++ .eof :: rs) =
      some (((s.take (n - 1)).length : ℤ), if s = [] then buf else
        overlay (s.take (n - 1) ++ [0]) buf, rs) := by
  have short : (s.take (n - 1)).length < n := by
    have := List.length_take_le (n - 1) s
    omega
  have first := @readLoop_bytes n [] s buf (.eof :: rs) (Nat.zero_lt_of_lt hpos) hn hs
  rw [List.length_nil, overlay_nil, List.nil_append] at first
  rw [readLine, if_neg (by omega), first, readLoop]
  by_cases h : s = []
  · simp [h]
  · have some : (s.take (n - 1)).length ≠ 0 := by
      have := List.length_pos_iff.2 h
      rw [List.length_take]
      omega
    rw [if_neg some, if_neg h, set_overlay (by omega)]

theorem readLine_error (hpos : 0 < n) (hn : n ≤ buf.length) (hs : 10 ∉ s) :
    readLine n buf (s.map .byte ++ .error :: rs) =
      some (-1, overlay (s.take (n - 1)) buf, rs) := by
  have first := @readLoop_bytes n [] s buf (.error :: rs) hpos hn hs
  rw [List.length_nil, overlay_nil, List.nil_append] at first
  rw [readLine, if_neg hpos.ne', first, readLoop]

end ReadLine

/-! ### What the loops see of a line -/

/-- A line in the buffer of a loop: the first 4094 bytes, their control codes replaced by dots. -/
def seen (charSigned : Bool) (line : List Byte) : CStr :=
  ⟨dots (controlChar charSigned) (line.take 4094), dots_noNul rfl _⟩

/-- The tests of the loop of `modem_event_sms_queue` on a line that was read. -/
def replyOf (line : CStr) : Reply :=
  if match_ (text "AT+CMGR") line.bytes then .skip
  else if match_ (text "+CMGR:") line.bytes then .skip
  else if line.bytes.head? = some 46 then .skip
  else if match_ (text "OK") line.bytes then .ok
  else .store

/-- The size given to `snprintf` for a line that was read. -/
def lenOf (line : CStr) : ℕ :=
  if 2 < line.strlen ∧ line.bytes[line.strlen - 2]? = some 46 then line.strlen - 1 else line.strlen

/-- The buffer of a loop holds this line. -/
structure Shows (line : CStr) (l : SmsLine) : Prop where
  read : 0 < l.n
  str : l.str = line
  reply : l.reply = replyOf line
  len : l.len = lenOf line
  size : l.buffer.length = 4096

theorem length_dots (control : Byte → Bool) (s : List Byte) : (dots control s).length = s.length :=
  List.length_map _

/-- The buffer after the line has been terminated and its control codes have been replaced. -/
theorem smsLine_overlay {charSigned : Bool} {k buf : List Byte} (hk : k ≠ []) :
    smsLine charSigned k.length (overlay (k ++ [0]) buf) =
      ⟨k.length, overlay (dots (controlChar charSigned) k ++ [0]) buf⟩ := by
  have pos : (0 : ℤ) < k.length := by
    have := List.length_pos_iff.2 hk
    omega
  have cells : overlay (k ++ [0]) buf = k ++ 0 :: buf.drop (k.length + 1) := by
    simp [overlay]
  have dotted : overlay (dots (controlChar charSigned) k ++ [0]) buf =
      dots (controlChar charSigned) k ++ 0 :: buf.drop (k.length + 1) := by
    simp [overlay, length_dots]
  have same : (k ++ 0 :: buf.drop (k.length + 1)).set k.length 0 =
      k ++ 0 :: buf.drop (k.length + 1) := by
    simp
  rw [smsLine, if_pos pos, cells, dotted]
  dsimp only
  rw [Int.toNat_natCast, same, List.take_left, List.drop_left]

theorem shows_overlay {t : CStr} {buf : List Byte} (ht : t.bytes ≠ []) (short : t.strlen < 4096)
    (hbuf : buf.length = 4096) : Shows t ⟨t.strlen, overlay (t.bytes ++ [0]) buf⟩ := by
  have pos : (0 : ℤ) < t.strlen := by
    have : 0 < t.strlen := List.length_pos_iff.2 ht
    omega
  have str : SmsLine.str ⟨t.strlen, overlay (t.bytes ++ [0]) buf⟩ = t :=
    CStr.ext (cstr_overlay t.noNul buf)
  constructor
  · exact pos
  · exact str
  · have head : (overlay (t.bytes ++ [0]) buf).head? = t.bytes.head? := by
      rw [overlay, List.append_assoc, List.head?_append_of_ne_nil _ ht]
    unfold SmsLine.reply replyOf
    rw [str, head]
    simp only [pos, true_and]
  · unfold SmsLine.len lenOf
    rw [str]
    by_cases h : 2 < t.strlen
    · have cell : (overlay (t.bytes ++ [0]) buf)[t.strlen - 2]? = t.bytes[t.strlen - 2]? := by
        rw [overlay, List.append_assoc]
        apply List.getElem?_append_left
        simp only [CStr.strlen] at h ⊢
        omega
      rw [cell]
    · simp only [h, false_and, if_false]
  · rw [← hbuf]
    apply length_overlay
    simp only [List.length_append, List.length_singleton, hbuf]
    simp only [CStr.strlen] at short
    omega

/-- What `read_line` has stored is shown with dots. -/
theorem shows_smsLine {charSigned : Bool} {line buf : List Byte} (hline : line ≠ [])
    (hbuf : buf.length = 4096) :
    Shows (seen charSigned line) (smsLine charSigned (line.take 4094).length
      (overlay (line.take 4094 ++ [0]) buf)) := by
  have len : (seen charSigned line).strlen = (line.take 4094).length := length_dots _ _
  have short := List.length_take_le 4094 line
  have hseen : (seen charSigned line).bytes ≠ [] := by simpa [seen, dots] using hline
  have hk : line.take 4094 ≠ [] := by simpa using hline
  rw [smsLine_overlay hk, ← len]
  exact shows_overlay hseen (by omega) hbuf

/-! ### The lines of an input that ends -/

/-- The lines of a finite input, with their newlines.  At the end of the file the open line counts
as well, after an error it does not. -/
def received (fin : Read) (bs : List Byte) : List (List Byte) :=
  (Lines.scan 10 [] bs).1.map (· ++ [10]) ++
    if fin = .eof ∧ (Lines.scan 10 [] bs).2 ≠ [] then [(Lines.scan 10 [] bs).2] else []

section Input

variable {charSigned : Bool} {s buf : List Byte} {rs : List Read}

theorem smsLines_line (hs : 10 ∉ s) (hbuf : buf.length = 4096) :
    ∃ l, Shows (seen charSigned (s ++ [10])) l ∧
      smsLines charSigned buf (s.map .byte ++ .byte 10 :: rs) =
        l :: smsLines charSigned l.buffer rs :=
  ⟨_, shows_smsLine (by simp) hbuf,
    smsLines_of_some (readLine_line (by decide) (by omega) hs)⟩

theorem smsLines_idle {fin : Read} (hfin : fin = .eof ∨ fin = .error) (k : ℕ) :
    ∀ l ∈ smsLines charSigned buf (List.replicate k fin), l.n ≤ 0 := by
  induction k with
  | zero =>
    have none : readLine 4095 buf [] = none := rfl
    rw [List.replicate_zero, smsLines_of_none none]
    exact List.forall_mem_nil _
  | succ k ih =>
    have read : ∃ n : ℤ, n ≤ 0 ∧
        readLine 4095 buf (fin :: List.replicate k fin) = some (n, buf, List.replicate k fin) := by
      rcases hfin with rfl | rfl
      · exact ⟨0, Int.le_refl 0, rfl⟩
      · exact ⟨-1, by decide, rfl⟩
    obtain ⟨n, hn, read⟩ := read
    have same : smsLine charSigned n buf = ⟨n, buf⟩ := if_neg (Int.not_lt.2 hn)
    rw [List.replicate_succ, smsLines_of_some read, same]
    exact List.forall_mem_cons.2 ⟨hn, ih⟩

/-- The lines that a loop gets from an input that ends: the lines received, and then failed reads
only. -/
theorem smsLines_input {fin : Read} (hfin : fin = .eof ∨ fin = .error) (bs : List Byte) (k : ℕ)
    (hbuf : buf.length = 4096) :
    ∃ shown idle, smsLines charSigned buf (bs.map .byte ++ fin :: List.replicate k fin) =
        shown ++ idle ∧
      List.Forall₂ (fun line l => Shows (seen charSigned line) l) (received fin bs) shown ∧
      ∀ l ∈ idle, l.n ≤ 0 := by
  have join := Lines.scan_join 10 [] bs
  have free := @Lines.scan_free _ _ 10 [] List.not_mem_nil bs
  unfold received
  generalize Lines.scan 10 [] bs = lines at join free ⊢
  obtain ⟨ls, rest⟩ := lines
  dsimp only at join free ⊢
  rw [List.nil_append] at join
  subst join
  obtain ⟨hls, hrest⟩ := free
  induction ls generalizing buf with
  | nil =>
    simp only [List.map_nil, List.flatten_nil, List.nil_append]
    rcases hfin with rfl | rfl
    · by_cases hopen : rest = []
      · refine ⟨[], _, rfl, ?_, ?_⟩
        · simp [hopen]
        · rw [hopen, List.map_nil, List.nil_append, ← List.replicate_succ]
          exact smsLines_idle (.inl rfl) (k + 1)
      · have read := @readLine_eof 4095 rest buf (List.replicate k .eof) (by decide) (by omega)
          hrest
        rw [if_neg hopen] at read
        have shown := @shows_smsLine charSigned rest buf hopen hbuf
        refine ⟨[_], _, smsLines_of_some read, ?_, smsLines_idle (.inl rfl) k⟩
        simpa [hopen] using shown
    · have read := @readLine_error 4095 rest buf (List.replicate k .error) (by decide) (by omega)
        hrest
      have same (b : List Byte) : smsLine charSigned (-1) b = ⟨-1, b⟩ := rfl
      refine ⟨[], _, smsLines_of_some read, by simp, ?_⟩
      rw [same]
      exact List.forall_mem_cons.2 ⟨(by decide : (-1 : ℤ) ≤ 0), smsLines_idle (.inr rfl) k⟩
  | cons s ls ih =>
    rw [List.forall_mem_cons] at hls
    obtain ⟨l, shown, first⟩ := @smsLines_line charSigned s buf
      (((ls.map (· ++ [10])).flatten ++ rest).map .byte ++ fin :: List.replicate k fin) hls.1 hbuf
    obtain ⟨shown', idle, next, forall₂, hidle⟩ := ih shown.size hls.2
    refine ⟨l :: shown', idle, ?_, .cons shown forall₂, hidle⟩
    rw [List.cons_append, ← next, ← first]
    simp

end Input

/-! ### The two loops -/

/-- The loop of `modem_cmd_wait`: what is left to read when the answer has come.  Its buffer is an
`unsigned char` array. -/
def cmdWait (respond : CStr) (buf : List Byte) (rs : List Read) : Option (List Read) :=
  match h : readLine 4095 buf rs with
  | none => none
  | some (n, buf', rs') =>
    have : rs'.length < rs.length := readLine_shorter (by decide) h
    let l := smsLine false n buf'
    if 0 < l.n ∧ match_ respond.bytes l.str.bytes then some rs' else cmdWait respond l.buffer rs'
termination_by rs.length

theorem cmdWait_isSome_iff (respond : CStr) (buf : List Byte) (rs : List Read) :
    (cmdWait respond buf rs).isSome = true ↔
      ∃ l ∈ smsLines false buf rs, 0 < l.n ∧ match_ respond.bytes l.str.bytes = true := by
  fun_induction cmdWait respond buf rs with
  | case1 buf rs h =>
    rw [smsLines_of_none h]
    simp
  | case2 buf rs n buf' rs' h hlt l hl =>
    have lines : smsLines false buf rs = l :: smsLines false l.buffer rs' := smsLines_of_some h
    rw [lines]
    exact iff_of_true rfl ⟨l, List.mem_cons_self, hl⟩
  | case3 buf rs n buf' rs' h hlt l hl ih =>
    have lines : smsLines false buf rs = l :: smsLines false l.buffer rs' := smsLines_of_some h
    rw [ih, lines]
    simp [hl]

/-- The loop of `modem_event_sms_queue` ends at the first `OK`, if no line that is stored before it
is too long. -/
theorem smsLoop_broke_iff (charSigned : Bool) (evt : RawEvt) (buffer : List Byte)
    (rs : List Read) :
    (∃ evt', smsLoop charSigned evt buffer rs = .broke evt') ↔
      (∃ l ∈ smsLines charSigned buffer rs, l.reply = .ok) ∧
        ∀ l ∈ bodyLines (smsLines charSigned buffer rs), l.reply = .store →
          l.len ≤ evtValSize := by
  rw [smsLoop_eq_smsOver]
  generalize smsLines charSigned buffer rs = ls
  induction ls generalizing evt with
  | nil => simp [smsOver]
  | cons l ls ih =>
    unfold smsOver
    cases hreply : l.reply with
    | skip =>
      rw [bodyLines_cons (by simp [hreply])]
      simp [ih, hreply]
    | ok => simp [bodyLines, hreply]
    | store =>
      rw [bodyLines_cons (by simp [hreply])]
      rcases hstore : storeSms evt l with _ | evt'
      · have long := storeSms_eq_none_iff.1 hstore
        simp only [reduceCtorEq, exists_false, false_iff, not_and]
        intro _ fits
        exact absurd (fits l List.mem_cons_self hreply) (Nat.not_le.2 long)
      · have short : l.len ≤ evtValSize := storeSms_short hstore
        simp [ih, hreply, short]

/-- A line that the loop of `modem_event_sms_queue` breaks at, with no line in front of it that is
stored and too long. -/
def EndsInOk (charSigned : Bool) (lines : List (List Byte)) : Prop :=
  (∃ line ∈ lines, replyOf (seen charSigned line) = .ok) ∧
    ∀ line ∈ lines.takeWhile (fun line => replyOf (seen charSigned line) ≠ .ok),
      replyOf (seen charSigned line) = .store → lenOf (seen charSigned line) ≤ evtValSize

theorem reply_of_not_read {l : SmsLine} (h : l.n ≤ 0) : l.reply = .store := by
  have pos : ¬ 0 < l.n := Int.not_lt.2 h
  simp [SmsLine.reply, pos]

theorem endsInOk_iff {charSigned : Bool} {lines : List (List Byte)} {shown idle : List SmsLine}
    (h : List.Forall₂ (fun line l => Shows (seen charSigned line) l) lines shown)
    (hidle : ∀ l ∈ idle, l.n ≤ 0) :
    ((∃ l ∈ shown ++ idle, l.reply = .ok) ∧
        ∀ l ∈ bodyLines (shown ++ idle), l.reply = .store → l.len ≤ evtValSize) ↔
      EndsInOk charSigned lines := by
  unfold EndsInOk
  induction h with
  | nil =>
    have none : ¬ ∃ l ∈ idle, l.reply = .ok := by
      rintro ⟨l, hl, hok⟩
      rw [reply_of_not_read (hidle l hl)] at hok
      cases hok
    simp [none]
  | @cons line l lines shown first _ ih =>
    cases hreply : replyOf (seen charSigned line) with
    | ok =>
      have hok : l.reply = .ok := first.reply.trans hreply
      simp [bodyLines, hok, hreply]
    | skip =>
      have hskip : l.reply = .skip := first.reply.trans hreply
      rw [List.cons_append, bodyLines_cons (by simp [hskip])]
      simpa [hskip, hreply] using ih
    | store =>
      have hstore : l.reply = .store := first.reply.trans hreply
      rw [List.cons_append, bodyLines_cons (by simp [hstore])]
      simp only [List.mem_cons, exists_eq_or_imp, hstore, reduceCtorEq, false_or,
        List.takeWhile_cons, hreply, ne_eq, not_false_eq_true, decide_true, if_true,
        forall_eq_or_imp, forall_const, first.len]
      constructor
      · rintro ⟨hok, hlen, rest⟩
        have := ih.1 ⟨hok, rest⟩
        exact ⟨this.1, hlen, this.2⟩
      · rintro ⟨hok, hlen, rest⟩
        have := ih.2 ⟨hok, rest⟩
        exact ⟨this.1, hlen, this.2⟩

theorem exists_match_iff {charSigned : Bool} {lines : List (List Byte)}
    {shown idle : List SmsLine}
    (h : List.Forall₂ (fun line l => Shows (seen charSigned line) l) lines shown)
    (hidle : ∀ l ∈ idle, l.n ≤ 0) (respond : CStr) :
    (∃ l ∈ shown ++ idle, 0 < l.n ∧ match_ respond.bytes l.str.bytes = true) ↔
      ∃ line ∈ lines, match_ respond.bytes (seen charSigned line).bytes = true := by
  induction h with
  | nil =>
    have none : ¬ ∃ l ∈ idle, 0 < l.n ∧ match_ respond.bytes l.str.bytes = true := by
      rintro ⟨l, hl, pos, -⟩
      exact absurd pos (Int.not_lt.2 (hidle l hl))
    simp [none]
  | cons first _ ih =>
    rw [List.cons_append]
    simp only [List.mem_cons, exists_eq_or_imp, ih, first.read, first.str, true_and]

/-- The bytes of an input, and then the end of the file or an error for ever. -/
def ending (fin : Read) (bs : List Byte) (k : ℕ) : List Read :=
  bs.map .byte ++ fin :: List.replicate k fin

theorem cmdWait_returns_iff {fin : Read} (hfin : fin = .eof ∨ fin = .error) (bs : List Byte)
    (respond : CStr) :
    (∃ k, (cmdWait respond smsBuffer (ending fin bs k)).isSome = true) ↔
      ∃ line ∈ received fin bs, match_ respond.bytes (seen false line).bytes = true := by
  have each (k : ℕ) : (cmdWait respond smsBuffer (ending fin bs k)).isSome = true ↔
      ∃ line ∈ received fin bs, match_ respond.bytes (seen false line).bytes = true := by
    obtain ⟨shown, idle, lines, forall₂, hidle⟩ :=
      @smsLines_input false smsBuffer fin hfin bs k List.length_replicate
    rw [cmdWait_isSome_iff, ending, lines]
    exact exists_match_iff forall₂ hidle respond
  exact ⟨fun ⟨k, h⟩ => (each k).1 h, fun h => ⟨0, (each 0).2 h⟩⟩

theorem smsLoop_returns_iff {fin : Read} (hfin : fin = .eof ∨ fin = .error) (bs : List Byte)
    (charSigned : Bool) :
    (∃ k evt, smsLoop charSigned .fresh smsBuffer (ending fin bs k) = .broke evt) ↔
      EndsInOk charSigned (received fin bs) := by
  have each (k : ℕ) : (∃ evt, smsLoop charSigned .fresh smsBuffer (ending fin bs k) =
      .broke evt) ↔ EndsInOk charSigned (received fin bs) := by
    obtain ⟨shown, idle, lines, forall₂, hidle⟩ :=
      @smsLines_input charSigned smsBuffer fin hfin bs k List.length_replicate
    rw [smsLoop_broke_iff, ending, lines]
    exact endsInOk_iff forall₂ hidle
  exact ⟨fun ⟨k, h⟩ => (each k).1 h, fun h => ⟨0, (each 0).2 h⟩⟩

/-- For every input that ends with the file or with errors: `modem_cmd_wait` returns exactly if one
of the lines received contains the answer it waits for, and the loop of `modem_event_sms_queue`
returns exactly if it receives an `OK` and does not store a line that is too long before. -/
theorem loops_return_iff (fin : Read) (hfin : fin = .eof ∨ fin = .error) (bs : List Byte)
    (respond : CStr) (charSigned : Bool) :
    ((∃ k, (cmdWait respond smsBuffer (ending fin bs k)).isSome = true) ↔
      ∃ line ∈ received fin bs, match_ respond.bytes (seen false line).bytes = true) ∧
    ((∃ k evt, smsLoop charSigned .fresh smsBuffer (ending fin bs k) = .broke evt) ↔
      EndsInOk charSigned (received fin bs)) :=
  ⟨cmdWait_returns_iff hfin bs respond, smsLoop_returns_iff hfin bs charSigned⟩

def sampleOk : CStr := .lit "OK" (by decide)

/-- The modem answers `OK`, and is unplugged then. -/
theorem loops_return_sample :
    (∃ k, (cmdWait sampleOk smsBuffer (ending .error (text "OK\r\n") k)).isSome = true) ∧
      ∃ k evt, smsLoop true .fresh smsBuffer (ending .error (text "OK\r\n") k) = .broke evt :=
  have loops := loops_return_iff .error (.inr rfl) (text "OK\r\n") sampleOk true
  ⟨loops.1.2 ⟨text "OK\r\n", by decide, by decide⟩,
    loops.2.2 ⟨⟨text "OK\r\n", by decide, by decide⟩, by decide⟩⟩

/-- The modem answers `ERROR`, and is unplugged then: both loops go on for ever. -/
theorem not_loops_return_sample :
    (¬ ∃ k, (cmdWait sampleOk smsBuffer (ending .eof (text "ERROR\r\n") k)).isSome = true) ∧
      ¬ ∃ k evt, smsLoop true .fresh smsBuffer (ending .eof (text "ERROR\r\n") k) =
        .broke evt := by
  have lines : received .eof (text "ERROR\r\n") = [text "ERROR\r\n"] := rfl
  rw [cmdWait_returns_iff (.inl rfl), smsLoop_returns_iff (.inl rfl), lines]
  constructor
  · decide
  · rintro ⟨ok, -⟩
    revert ok
    decide

end Siproxy
