import Siproxy.Fields
import Siproxy.ModemLines

/-!
# Fetching an SMS

When the modem announces an SMS, `modem_event_sms_queue` reads the serial port itself until the
answer to `AT+CMGR` ends with `OK`.

* `sms_fetched`: an answer of the expected form gives one event with the PDU, both commands carry
  the index, and exactly the answer is read.
-/

namespace Siproxy

open CString

/-! ### The loop, line by line -/

/-- The loop of `modem_event_sms_queue`, with what is left to read when it ends. -/
def smsRun (charSigned : Bool) (evt : RawEvt) (buffer : List Byte) (rs : List Read) :
    SmsRead × List Read :=
  match h : readLine 4095 buffer rs with
  | none => (.blocked, [])
  | some (n, buffer', rs') =>
    have : rs'.length < rs.length := readLine_shorter (by decide) h
    let l := smsLine charSigned n buffer'
    match l.reply with
    | .skip => smsRun charSigned evt l.buffer rs'
    | .ok => (.broke evt, rs')
    | .store =>
      match storeSms evt l with
      | none => (.fault, rs')
      | some evt' => smsRun charSigned evt' l.buffer rs'
termination_by rs.length

theorem smsRun_of_none {charSigned : Bool} {evt : RawEvt} {buffer : List Byte} {rs : List Read}
    (h : readLine 4095 buffer rs = none) : smsRun charSigned evt buffer rs = (.blocked, []) := by
  rw [smsRun]
  split <;> simp_all

theorem smsRun_of_some {charSigned : Bool} {evt : RawEvt} {buffer buffer' : List Byte}
    {rs rs' : List Read} {n : ℤ} (h : readLine 4095 buffer rs = some (n, buffer', rs')) :
    smsRun charSigned evt buffer rs =
      match (smsLine charSigned n buffer').reply with
      | .skip => smsRun charSigned evt (smsLine charSigned n buffer').buffer rs'
      | .ok => (.broke evt, rs')
      | .store =>
        match storeSms evt (smsLine charSigned n buffer') with
        | none => (.fault, rs')
        | some evt' => smsRun charSigned evt' (smsLine charSigned n buffer').buffer rs' := by
  rw [smsRun]
  split
  next hnone => simp_all
  next hsome =>
    rw [h] at hsome
    cases hsome
    rfl

/-- The loop is the one of `modem_event_sms_queue`. -/
theorem smsRun_fst (charSigned : Bool) (evt : RawEvt) (buffer : List Byte) (rs : List Read) :
    (smsRun charSigned evt buffer rs).1 = smsLoop charSigned evt buffer rs := by
  fun_induction smsLoop charSigned evt buffer rs with
  | case1 evt buffer rs h => rw [smsRun_of_none h]
  | case2 evt buffer rs n buffer' rs' h hlt l hl ih => rw [smsRun_of_some h, hl, ih]
  | case3 evt buffer rs n buffer' rs' h hlt l hl => rw [smsRun_of_some h, hl]
  | case4 evt buffer rs n buffer' rs' h hlt l hl hstore => rw [smsRun_of_some h, hl, hstore]
  | case5 evt buffer rs n buffer' rs' h hlt l hl evt' hstore ih =>
    rw [smsRun_of_some h, hl, hstore, ih]

/-- The bytes of a line, which ends in its only newline. -/
def IsLine (line : List Byte) : Prop := ∃ s, line = s ++ [10] ∧ 10 ∉ s

theorem isLine_iff {line : List Byte} :
    IsLine line ↔ line.getLast? = some 10 ∧ 10 ∉ line.dropLast := by
  constructor
  · rintro ⟨s, rfl, hs⟩
    simpa using hs
  · rintro ⟨hlast, free⟩
    exact ⟨line.dropLast, (List.dropLast_append_getLast? 10 hlast).symm, free⟩

instance (line : List Byte) : Decidable (IsLine line) := decidable_of_iff _ isLine_iff.symm

/-- What the modem sends. -/
def wire (lines : List (List Byte)) : List Read := lines.flatten.map .byte

/-- What is in the event after a line: the text of a line that is stored replaces what was there. -/
def stored (charSigned : Bool) (t : Option CStr) (line : List Byte) : Option CStr :=
  if replyOf (seen charSigned line) = .store then
    some (snprintf (lenOf (seen charSigned line)) (seen charSigned line))
  else t

/-- The event holds this text, or is as `malloc` has returned it. -/
def Carries (evt : RawEvt) : Option CStr → Prop
  | none => evt = .fresh
  | some t => evt.event = some .modemSms ∧ evt.val.Holds t

theorem lenOf_pos {line : CStr} (h : line.bytes ≠ []) : 0 < lenOf line := by
  have pos : 0 < line.strlen := List.length_pos_iff.2 h
  unfold lenOf
  split_ifs <;> omega

section Loop

variable {charSigned : Bool} {evt : RawEvt} {buffer line : List Byte} {t : Option CStr}

theorem smsRun_first (hline : IsLine line) (hbuf : buffer.length = 4096) (rs : List Read) :
    ∃ l, Shows (seen charSigned line) l ∧
      smsRun charSigned evt buffer (line.map .byte ++ rs) =
        match l.reply with
        | .skip => smsRun charSigned evt l.buffer rs
        | .ok => (.broke evt, rs)
        | .store =>
          match storeSms evt l with
          | none => (.fault, rs)
          | some evt' => smsRun charSigned evt' l.buffer rs := by
  obtain ⟨s, rfl, hs⟩ := hline
  have read := @readLine_line 4095 s buffer rs (by decide) (by omega) hs
  refine ⟨_, shows_smsLine (by simp) hbuf, ?_⟩
  rw [List.map_append, List.map_singleton, List.append_assoc, List.singleton_append,
    smsRun_of_some read]

theorem smsRun_ok (hline : IsLine line) (hbuf : buffer.length = 4096)
    (hok : replyOf (seen charSigned line) = .ok) (rs : List Read) :
    smsRun charSigned evt buffer (line.map .byte ++ rs) = (.broke evt, rs) := by
  obtain ⟨l, shows, first⟩ := @smsRun_first charSigned evt buffer line hline hbuf rs
  rw [first, shows.reply, hok]

theorem smsRun_line (hline : IsLine line) (hbuf : buffer.length = 4096)
    (hok : replyOf (seen charSigned line) ≠ .ok)
    (fits : replyOf (seen charSigned line) = .store → lenOf (seen charSigned line) ≤ evtValSize)
    (carries : Carries evt t) (rs : List Read) :
    ∃ evt' buffer', Carries evt' (stored charSigned t line) ∧ buffer'.length = 4096 ∧
      smsRun charSigned evt buffer (line.map .byte ++ rs) = smsRun charSigned evt' buffer' rs := by
  obtain ⟨l, shows, first⟩ := @smsRun_first charSigned evt buffer line hline hbuf rs
  rw [first, shows.reply]
  unfold stored
  cases hreply : replyOf (seen charSigned line) with
  | ok => exact absurd hreply hok
  | skip => exact ⟨evt, l.buffer, carries, shows.size, rfl⟩
  | store =>
    have some : (seen charSigned line).bytes ≠ [] := by
      obtain ⟨s, rfl, -⟩ := hline
      simp [seen, dots]
    have pos : l.len ≠ 0 := by
      rw [shows.len]
      exact (lenOf_pos some).ne'
    rcases hstore : storeSms evt l with _ | evt'
    · have long := storeSms_eq_none_iff.1 hstore
      rw [shows.len] at long
      exact absurd (fits hreply) (Nat.not_le.2 long)
    · refine ⟨evt', l.buffer, ?_, shows.size, rfl⟩
      obtain ⟨val, hval, rfl⟩ := Option.map_eq_some_iff.1 hstore
      have holds := Cells.Holds.of_snprintf pos hval
      rw [shows.str, shows.len] at holds
      exact ⟨rfl, holds⟩

end Loop

theorem smsRun_lines {charSigned : Bool} {window : List (List Byte)}
    (lines : ∀ line ∈ window, IsLine line)
    (hok : ∀ line ∈ window, replyOf (seen charSigned line) ≠ .ok)
    (fits : ∀ line ∈ window, replyOf (seen charSigned line) = .store →
      lenOf (seen charSigned line) ≤ evtValSize)
    {evt : RawEvt} {buffer : List Byte} {t : Option CStr} (hbuf : buffer.length = 4096)
    (carries : Carries evt t) (rs : List Read) :
    ∃ evt' buffer', Carries evt' (window.foldl (stored charSigned) t) ∧ buffer'.length = 4096 ∧
      smsRun charSigned evt buffer (wire window ++ rs) = smsRun charSigned evt' buffer' rs := by
  induction window generalizing evt buffer t with
  | nil => exact ⟨evt, buffer, carries, hbuf, rfl⟩
  | cons line window ih =>
    rw [List.forall_mem_cons] at lines hok fits
    obtain ⟨evt', buffer', carries', hbuf', first⟩ :=
      smsRun_line lines.1 hbuf hok.1 fits.1 carries (wire window ++ rs)
    obtain ⟨evt'', buffer'', carries'', hbuf'', next⟩ :=
      ih lines.2 hok.2 fits.2 hbuf' carries'
    refine ⟨evt'', buffer'', carries'', hbuf'', ?_⟩
    rw [← next, ← first]
    simp [wire]

/-- A whole answer: the lines in front of the first `OK`, and this line. -/
theorem smsRun_answer {charSigned : Bool} {window : List (List Byte)} {ok : List Byte}
    (lines : ∀ line ∈ window ++ [ok], IsLine line)
    (hwindow : ∀ line ∈ window, replyOf (seen charSigned line) ≠ .ok)
    (hok : replyOf (seen charSigned ok) = .ok)
    (fits : ∀ line ∈ window, replyOf (seen charSigned line) = .store →
      lenOf (seen charSigned line) ≤ evtValSize) (rs : List Read) :
    ∃ evt, Carries evt (window.foldl (stored charSigned) none) ∧
      smsRun charSigned .fresh smsBuffer (wire (window ++ [ok]) ++ rs) = (.broke evt, rs) := by
  rw [List.forall_mem_append, List.forall_mem_singleton] at lines
  obtain ⟨evt, buffer, carries, hbuf, run⟩ := @smsRun_lines charSigned window lines.1 hwindow fits
    .fresh smsBuffer none List.length_replicate rfl (ok.map .byte ++ rs)
  refine ⟨evt, carries, ?_⟩
  rw [smsRun_ok lines.2 hbuf hok] at run
  rw [← run]
  simp [wire]

/-! ### The expected answer -/

/-- How the modem ends its lines. -/
inductive Ending where
  | crlf
  | lf
  deriving DecidableEq

def Ending.bytes : Ending → List Byte
  | .crlf => [13, 10]
  | .lf => [10]

/-- An ending in which the control codes have been replaced by dots. -/
def Ending.dotted : Ending → List Byte
  | .crlf => [46, 46]
  | .lf => [46]

/-- A hexadecimal digit. -/
def IsHex (b : Byte) : Prop := (48 ≤ b ∧ b ≤ 57) ∨ (65 ≤ b ∧ b ≤ 70) ∨ (97 ≤ b ∧ b ≤ 102)

instance (b : Byte) : Decidable (IsHex b) := inferInstanceAs (Decidable (_ ∨ _ ∨ _))

/-- A line in front of the PDU: blank, the echo of the command or the header. -/
def Preamble (line : List Byte) : Prop :=
  line.length < 4000 ∧ (line = Ending.crlf.bytes ∨ line = Ending.lf.bytes ∨
    text "AT+CMGR" <:+: line ∨ text "+CMGR:" <:+: line)

instance (line : List Byte) : Decidable (Preamble line) := inferInstanceAs (Decidable (_ ∧ _))

/-- The answer to `AT+CMGR`. -/
structure Transcript where
  preamble : List (List Byte)
  pdu : List Byte
  pduEnd : Ending
  blanks : List Ending
  okEnd : Ending
  lines : ∀ line ∈ preamble, IsLine line ∧ Preamble line
  hex : ∀ b ∈ pdu, IsHex b
  short : 0 < pdu.length ∧ pdu.length ≤ 1023

/-- The lines in front of `OK`. -/
def Transcript.window (t : Transcript) : List (List Byte) :=
  t.preamble ++ (t.pdu ++ t.pduEnd.bytes) :: t.blanks.map Ending.bytes

def Transcript.ok (t : Transcript) : List Byte := text "OK" ++ t.okEnd.bytes

/-- A `+CMTI` line as `modem_event` hands it on. -/
structure Notice where
  index : List Byte
  fin : Ending
  digits : ∀ b ∈ index, 48 ≤ b ∧ b ≤ 57
  short : 0 < index.length ∧ index.length ≤ 7

def Notice.bytes (m : Notice) : List Byte := text "+CMTI: \"SM\"," ++ m.index ++ m.fin.dotted

theorem IsHex.ne {b : Byte} (h : IsHex b) :
    b ≠ 0 ∧ b ≠ 10 ∧ b ≠ 43 ∧ b ≠ 46 ∧ b ≠ 79 ∧ b ≠ 84 := by
  refine ⟨?_, ?_, ?_, ?_, ?_, ?_⟩ <;>
    · rintro rfl
      revert h
      decide

theorem IsHex.not_control {b : Byte} (h : IsHex b) (charSigned : Bool) :
    controlChar charSigned b = false := by
  have range : ¬ b < 32 ∧ ¬ 128 ≤ b := by
    simp only [IsHex, UInt8.le_iff_toNat_le, UInt8.lt_iff_toNat_lt, UInt8.reduceToNat] at h ⊢
    omega
  simp [controlChar, range]

theorem dots_hex {s : List Byte} (h : ∀ b ∈ s, IsHex b) (charSigned : Bool) :
    dots (controlChar charSigned) s = s := by
  unfold dots
  conv_rhs => rw [← List.map_id s]
  apply List.map_congr_left
  intro b hb
  rw [(h b hb).not_control charSigned]
  rfl

theorem dots_append (control : Byte → Bool) (s t : List Byte) :
    dots control (s ++ t) = dots control s ++ dots control t := List.map_append

theorem dots_ending (e : Ending) (charSigned : Bool) :
    dots (controlChar charSigned) e.bytes = e.dotted := by
  cases e <;> cases charSigned <;> decide

/-- A text without control codes is found where it was. -/
theorem infix_dots {control : Byte → Bool} {w s : List Byte} (hw : dots control w = w)
    (h : w <:+: s) : w <:+: dots control s := by
  obtain ⟨pre, post, rfl⟩ := h
  rw [dots_append, dots_append, hw]
  exact ⟨dots control pre, dots control post, rfl⟩

theorem seen_of_short {line : List Byte} (h : line.length < 4000) (charSigned : Bool) :
    (seen charSigned line).bytes = dots (controlChar charSigned) line := by
  have all : line.take 4094 = line := List.take_of_length_le (by omega)
  show dots (controlChar charSigned) (line.take 4094) = _
  rw [all]

theorem replyOf_preamble {line : List Byte} (h : Preamble line) (charSigned : Bool) :
    replyOf (seen charSigned line) = .skip := by
  obtain ⟨short, hline⟩ := h
  have echo : Literal (text "AT+CMGR") := by decide
  have header : Literal (text "+CMGR:") := by decide
  have plain : dots (controlChar charSigned) (text "AT+CMGR") = text "AT+CMGR" ∧
      dots (controlChar charSigned) (text "+CMGR:") = text "+CMGR:" := by
    cases charSigned <;> decide
  rcases hline with rfl | rfl | hin | hin
  · cases charSigned <;> decide
  · cases charSigned <;> decide
  · have found := infix_dots plain.1 hin
    rw [replyOf, seen_of_short short, if_pos ((match_literal echo _).2 found)]
  · have found := infix_dots plain.2 hin
    rw [replyOf, seen_of_short short, if_pos ((match_literal header _).2 found)]
    split_ifs <;> rfl

section Pdu

variable {pdu : List Byte} (hex : ∀ b ∈ pdu, IsHex b) (short : 0 < pdu.length ∧ pdu.length ≤ 1023)
  (charSigned : Bool) (e : Ending)

include hex short

theorem seen_pdu : (seen charSigned (pdu ++ e.bytes)).bytes = pdu ++ e.dotted := by
  have len : (pdu ++ e.bytes).length < 4000 := by
    have : e.bytes.length ≤ 2 := by cases e <;> decide
    rw [List.length_append]
    omega
  rw [seen_of_short len, dots_append, dots_hex hex, dots_ending]

theorem replyOf_pdu : replyOf (seen charSigned (pdu ++ e.bytes)) = .store := by
  have dotted : ∀ b ∈ e.dotted, b = 46 := by cases e <;> exact forall_mem_of_all rfl
  -- a text with a character that is neither a digit nor a dot is not in the line
  have foreign {w : List Byte} (hw : Literal w) {c : Byte} (hc : c ∈ w) (hhex : ¬ IsHex c)
      (hdot : c ≠ 46) : match_ w (seen charSigned (pdu ++ e.bytes)).bytes = false := by
    rw [← Bool.not_eq_true, match_literal hw, seen_pdu hex short]
    intro hin
    rcases List.mem_append.1 (hin.subset hc) with h | h
    · exact hhex (hex c h)
    · exact hdot (dotted c h)
  have echo := @foreign (text "AT+CMGR") (by decide) 84 (by decide) (by decide) (by decide)
  have header := @foreign (text "+CMGR:") (by decide) 43 (by decide) (by decide) (by decide)
  have ok := @foreign (text "OK") (by decide) 79 (by decide) (by decide) (by decide)
  have head : (seen charSigned (pdu ++ e.bytes)).bytes.head? ≠ some 46 := by
    rw [seen_pdu hex short]
    obtain ⟨b, rest, rfl⟩ := List.exists_cons_of_length_pos short.1
    have hb := (hex b List.mem_cons_self).ne.2.2.2.1
    simpa using hb
  simp [replyOf, echo, header, ok, head]

theorem lenOf_pdu : lenOf (seen charSigned (pdu ++ e.bytes)) = pdu.length + 1 := by
  have bytes := seen_pdu hex short charSigned e
  cases e with
  | crlf =>
    have len : (seen charSigned (pdu ++ Ending.crlf.bytes)).strlen = pdu.length + 2 := by
      rw [CStr.strlen, bytes]
      simp [Ending.dotted]
    have cell : (pdu ++ Ending.crlf.dotted)[pdu.length + 2 - 2]? = some 46 := by
      simp [Ending.dotted]
    rw [lenOf, len, bytes, if_pos ⟨by omega, cell⟩]
    omega
  | lf =>
    have len : (seen charSigned (pdu ++ Ending.lf.bytes)).strlen = pdu.length + 1 := by
      rw [CStr.strlen, bytes]
      simp [Ending.dotted]
    have cell : (pdu ++ Ending.lf.dotted)[pdu.length + 1 - 2]? ≠ some 46 := by
      have last : pdu.length + 1 - 2 < pdu.length := by omega
      rw [List.getElem?_append_left last, List.getElem?_eq_getElem last]
      intro h
      exact (hex _ (List.getElem_mem last)).ne.2.2.2.1 (Option.some.inj h)
    rw [lenOf, len, bytes, if_neg fun h => cell h.2]

/-- Neither a terminator is left nor a digit cut off. -/
theorem stored_pdu (t : Option CStr) :
    ∃ text, stored charSigned t (pdu ++ e.bytes) = some text ∧ text.bytes = pdu := by
  refine ⟨_, if_pos (replyOf_pdu hex short charSigned e), ?_⟩
  rw [lenOf_pdu hex short]
  show ((seen charSigned (pdu ++ e.bytes)).bytes.drop 0).take (pdu.length + 1 - 1) = pdu
  rw [seen_pdu hex short, List.drop_zero, Nat.add_sub_cancel, List.take_left]

end Pdu

theorem Ending.isLine (e : Ending) : IsLine e.bytes := by
  cases e with
  | crlf => exact ⟨[13], rfl, by decide⟩
  | lf => exact ⟨[], rfl, by decide⟩

theorem isLine_ending {s : List Byte} (h : 10 ∉ s) (e : Ending) : IsLine (s ++ e.bytes) := by
  obtain ⟨r, hr, free⟩ := e.isLine
  rw [hr, ← List.append_assoc]
  exact ⟨s ++ r, rfl, by simp [h, free]⟩

theorem replyOf_ok (e : Ending) (charSigned : Bool) :
    replyOf (seen charSigned (text "OK" ++ e.bytes)) = .ok := by
  cases e <;> cases charSigned <;> decide

theorem preamble_ending (e : Ending) : Preamble e.bytes := by
  cases e with
  | crlf => exact ⟨by decide, .inl rfl⟩
  | lf => exact ⟨by decide, .inr (.inl rfl)⟩

theorem stored_of_skip {charSigned : Bool} {line : List Byte}
    (h : replyOf (seen charSigned line) = .skip) (t : Option CStr) :
    stored charSigned t line = t := if_neg (by simp [h])

theorem foldl_stored_of_skip {charSigned : Bool} {window : List (List Byte)}
    (h : ∀ line ∈ window, replyOf (seen charSigned line) = .skip) (t : Option CStr) :
    window.foldl (stored charSigned) t = t := by
  induction window with
  | nil => rfl
  | cons line window ih =>
    rw [List.forall_mem_cons] at h
    rw [List.foldl_cons, stored_of_skip h.1, ih h.2]

theorem Transcript.foldl_stored (t : Transcript) (charSigned : Bool) :
    ∃ text, t.window.foldl (stored charSigned) none = some text ∧ text.bytes = t.pdu := by
  obtain ⟨text, hstored, bytes⟩ := stored_pdu t.hex t.short charSigned t.pduEnd none
  have pre := foldl_stored_of_skip
    (fun line hline => replyOf_preamble (t.lines line hline).2 charSigned) none
  have blanks : ∀ line ∈ t.blanks.map Ending.bytes, replyOf (seen charSigned line) = .skip := by
    intro line hline
    obtain ⟨e, -, rfl⟩ := List.mem_map.1 hline
    exact replyOf_preamble (preamble_ending e) charSigned
  refine ⟨text, ?_, bytes⟩
  rw [Transcript.window, List.foldl_append, pre, List.foldl_cons, hstored,
    foldl_stored_of_skip blanks]

theorem Transcript.isLine (t : Transcript) : ∀ line ∈ t.window ++ [t.ok], IsLine line := by
  have pdu : 10 ∉ t.pdu := fun h => (t.hex 10 h).ne.2.1 rfl
  have ok : 10 ∉ text "OK" := by decide
  rw [List.forall_mem_append, Transcript.window, List.forall_mem_append, List.forall_mem_cons,
    List.forall_mem_map, List.forall_mem_singleton]
  exact ⟨⟨fun line hline => (t.lines line hline).1, isLine_ending pdu _, fun e _ => e.isLine⟩,
    isLine_ending ok _⟩

theorem Transcript.reply (t : Transcript) (charSigned : Bool) : ∀ line ∈ t.window,
    replyOf (seen charSigned line) = .skip ∨
      replyOf (seen charSigned line) = .store ∧ lenOf (seen charSigned line) ≤ evtValSize := by
  rw [Transcript.window, List.forall_mem_append, List.forall_mem_cons, List.forall_mem_map]
  refine ⟨fun line hline => .inl (replyOf_preamble (t.lines line hline).2 _), .inr ⟨?_, ?_⟩,
    fun e _ => .inl (replyOf_preamble (preamble_ending e) _)⟩
  · exact replyOf_pdu t.hex t.short _ _
  · rw [lenOf_pdu t.hex t.short]
    exact Nat.succ_le_succ t.short.2

/-- The loop on an answer leaves the PDU in the event, and reads exactly the answer. -/
theorem Transcript.smsRun (t : Transcript) (charSigned : Bool) (rs : List Read) :
    ∃ raw evt, raw.Holds evt ∧ evt.event = .modemSms ∧ evt.val.bytes = t.pdu ∧
      Siproxy.smsRun charSigned .fresh smsBuffer (wire (t.window ++ [t.ok]) ++ rs) =
        (.broke raw, rs) := by
  have reply := t.reply charSigned
  have hwindow : ∀ line ∈ t.window, replyOf (seen charSigned line) ≠ .ok := by
    intro line hline
    rcases reply line hline with h | ⟨h, -⟩ <;> simp [h]
  have fits : ∀ line ∈ t.window, replyOf (seen charSigned line) = .store →
      lenOf (seen charSigned line) ≤ evtValSize := by
    intro line hline hstore
    rcases reply line hline with h | ⟨-, h⟩
    · rw [hstore] at h
      cases h
    · exact h
  obtain ⟨raw, carries, run⟩ :=
    smsRun_answer t.isLine hwindow (replyOf_ok t.okEnd charSigned) fits rs
  obtain ⟨text, hstored, bytes⟩ := t.foldl_stored charSigned
  rw [hstored] at carries
  exact ⟨raw, ⟨.modemSms, text, carries.2.strlen_lt⟩, carries, rfl, bytes, run⟩

theorem Notice.noNul (m : Notice) : 0 ∉ m.bytes := by
  have notice : 0 ∉ text "+CMTI: \"SM\"," := by decide
  have dotted : 0 ∉ m.fin.dotted := by cases m.fin <;> decide
  have digits : 0 ∉ m.index := fun h => absurd (m.digits 0 h) (by decide)
  simp [Notice.bytes, notice, dotted, digits]

def Notice.line (m : Notice) : CStr := ⟨m.bytes, m.noNul⟩

/-- The index stands between the first comma and the next dot. -/
theorem Notice.split (m : Notice) : ∃ post,
    m.line.bytes = text "+CMTI: \"SM\"" ++ comma :: (m.index ++ dot :: post) := by
  have notice : text "+CMTI: \"SM\"," = text "+CMTI: \"SM\"" ++ [comma] := rfl
  obtain ⟨index, e, digits, short⟩ := m
  cases e with
  | crlf => exact ⟨[46], by simp [Notice.line, Notice.bytes, notice, Ending.dotted, dot]⟩
  | lf => exact ⟨[], by simp [Notice.line, Notice.bytes, notice, Ending.dotted, dot]⟩

theorem Notice.not_push (m : Notice) : match_ (text "MMS PUSH") m.line.bytes = false := by
  have push : Literal (text "MMS PUSH") := by decide
  have notice : 80 ∉ text "+CMTI: \"SM\"," := by decide
  have dotted : 80 ∉ m.fin.dotted := by cases m.fin <;> decide
  have digits : 80 ∉ m.index := fun h => absurd (m.digits 80 h) (by decide)
  rw [← Bool.not_eq_true, match_literal push]
  intro hin
  have hp : 80 ∈ m.line.bytes := hin.subset (by decide)
  simp [Notice.line, Notice.bytes, notice, dotted, digits] at hp

theorem modemEventSmsQueue_noMemory {charSigned : Bool} {stack : List Byte} {line : CStr}
    {rs : List Read} (push : match_ (text "MMS PUSH") line.bytes = false) :
    modemEventSmsQueue charSigned false stack line rs = .returned [] none := by
  unfold modemEventSmsQueue
  rw [if_neg (by simp [push])]
  rfl

/-- For every announcement and every answer of the expected form, if `malloc` succeeds: one event is
queued, whose text is the PDU; both commands carry the index; and exactly the answer is read.  Without
memory for the event nothing is sent or read. -/
theorem sms_fetched (charSigned : Bool) (stack : List Byte) (m : Notice) (t : Transcript)
    (rs : List Read) :
    (∃ get delete raw evt,
      modemEventSmsQueue charSigned true stack m.line (wire (t.window ++ [t.ok]) ++ rs) =
        .returned [get, delete] (some raw) ∧
      get.bytes = text "AT+CMGR=" ++ m.index ++ text "\r\n" ∧
      delete.bytes = text "AT+CMGD=" ++ m.index ++ text "\r\n" ∧
      raw.Holds evt ∧ evt.event = .modemSms ∧ evt.val.bytes = t.pdu ∧
      (smsRun charSigned .fresh smsBuffer (wire (t.window ++ [t.ok]) ++ rs)).2 = rs) ∧
    modemEventSmsQueue charSigned false stack m.line (wire (t.window ++ [t.ok]) ++ rs) =
      .returned [] none := by
  obtain ⟨raw, evt, holds, hevent, hval, run⟩ := t.smsRun charSigned rs
  obtain ⟨post, hline⟩ := m.split
  have digits : dot ∉ m.index := fun h => absurd (m.digits dot h) (by decide)
  have nul : 0 ∉ m.index := fun h => m.noNul (by simp [Notice.bytes, h])
  let index : CStr := ⟨m.index, nul⟩
  have room : index.strlen < 8 := Nat.lt_succ_of_le m.short.2
  obtain ⟨array, harray, hbytes⟩ :=
    @smsIndex_of_field m.line index _ _ hline (by decide) (by decide) digits room
  have hcomma : comma ∈ m.line.bytes := by simp [hline]
  have loop := smsRun_fst charSigned .fresh smsBuffer (wire (t.window ++ [t.ok]) ++ rs)
  rw [run] at loop
  refine ⟨⟨(SmsCall.get array stack).modemCmd, (SmsCall.delete array stack).modemCmd, raw, evt, ?_,
    ?_, ?_, holds, hevent, hval, by rw [run]⟩, modemEventSmsQueue_noMemory m.not_push⟩
  · rw [modemEventSmsQueue_fetch m.not_push hcomma harray, ← loop]
  · exact smsCmd_bytes (by decide) room hbytes stack
  · exact smsCmd_bytes (by decide) room hbytes stack

def sampleNotice : Notice := ⟨text "3", .crlf, forall_mem_of_all rfl, by decide⟩

def samplePdu : List Byte := text "0791683108200205F0040D91"

def sampleAnswer : Transcript where
  preamble := [text "AT+CMGR=3\r\n", text "\r\n", text "+CMGR: 0,\"\",28\r\n"]
  pdu := samplePdu
  pduEnd := .crlf
  blanks := [.crlf]
  okEnd := .crlf
  lines := by decide
  hex := forall_mem_of_all (by decide)
  short := by decide

theorem not_sms_fetched_sample :
    modemEventSmsQueue true false [] sampleNotice.line
      (wire (sampleAnswer.window ++ [sampleAnswer.ok])) = .returned [] none :=
  modemEventSmsQueue_noMemory sampleNotice.not_push

end Siproxy
