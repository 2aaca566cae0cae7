import Siproxy.OptionMap
import Siproxy.TelnetInput

/-!
# The subnegotiation buffer over a whole stream

`_buffer_byte` lets the buffer grow from size to size of the table `_buffer_sizes`, and only
`buffer_pos` is reset between two subnegotiations.

`sb_buffer`: whatever is received, the buffer has a size of the table, nothing is stored behind its
end, it holds the unescaped bytes since the option byte, and the byte behind the 16384th is the end
of the subnegotiation, which is then never reported.
-/

namespace Siproxy.Telnet

open CString Parts

/-! ### What the decoders leave -/

/-- The decoders write over the buffer, but not over its end. -/
theorem subnegotiate_length (t : Tracker) :
    (subnegotiate t).1.buffer.length = t.buffer.length := by
  unfold subnegotiate
  dsimp only
  split_ifs
  · unfold zmpTelnet
    split_ifs <;> rfl
  · unfold ttypeTelnet
    repeat' split
    all_goals rfl
  · unfold environTelnet
    dsimp only
    repeat' split
    all_goals first | rfl | exact length_environVars _ _ _
  · unfold msspTelnet
    repeat' split
    all_goals first | rfl | exact length_msspLoop (by assumption)
  · rfl

theorem negotiate_buffer (t : Tracker) (telopt : Byte) :
    (negotiate t telopt).1.buffer = t.buffer := by
  obtain ⟨q, heap, frame, -⟩ := negotiate_frame t telopt
  rw [frame]

theorem iacByte_buffer (t : Tracker) (b : Byte) : (iacByte t b).1.buffer = t.buffer := by
  obtain ⟨s, frame⟩ := iacByte_frame t b
  rw [frame]

/-! ### One store -/

theorem lt_of_nextBufferSize {n size : ℕ} (hn : n ∈ bufferSizes)
    (h : nextBufferSize n = some size) : n < size := by
  have larger : ∀ n ∈ bufferSizes, ∀ size ∈ nextBufferSize n, n < size := by decide
  exact larger n hn size h

/-- The index at which `_buffer_byte` stores a byte is below the size that the buffer has then. -/
theorem bufferByte_index {t : Tracker} (size : t.bufferSize ∈ bufferSizes)
    (fits : t.buffer.length ≤ t.bufferSize) {b : Byte} (stored : (bufferByte t b).2.1 = true) :
    t.buffer.length < (bufferByte t b).1.bufferSize := by
  unfold bufferByte at stored ⊢
  by_cases full : t.buffer.length = t.bufferSize
  · rw [if_pos full] at stored ⊢
    cases hnext : nextBufferSize t.bufferSize with
    | none => simp [hnext] at stored
    | some next =>
      by_cases ok : t.allocOk = true
      · simpa [hnext, ok, full] using lt_of_nextBufferSize size hnext
      · simp [hnext, ok] at stored
  · rw [if_neg full]
    exact lt_of_le_of_ne fits full

/-- The warning of a buffer that cannot grow any more. -/
def overflow : TelnetEvent := .warning "subnegotiation buffer size limit reached"

theorem bufferByte_full {t : Tracker} (size : t.bufferSize ∈ bufferSizes)
    (fits : t.buffer.length ≤ t.bufferSize) (full : t.buffer.length = 16384) (b : Byte) :
    bufferByte t b = (t, false, [overflow]) := by
  have largest : ∀ n ∈ bufferSizes, 16384 ≤ n → n = 16384 ∧ nextBufferSize n = none := by decide
  obtain ⟨hsize, hnext⟩ := largest _ size (full ▸ fits)
  rw [bufferByte, if_pos (full.trans hsize.symm), hnext]
  rfl

/-! ### Bytes of the content -/

/-- A byte of the content is seen as what the step raises for it. -/
theorem byteSeen_content {t : Tracker} {b : Byte} (h : Content t b) :
    byteSeen t b = (byteStep t 0 0 b).2.2.map .other := by
  rw [byteSeen, if_neg]
  rcases h with ⟨hs, -, -⟩ | ⟨hs, -⟩ <;> simp [hs]

/-- What happens to a byte for which there is room. -/
structure Stores (t : Tracker) (b : Byte) : Prop where
  state : (advance t b).state = .sbData
  sbTelopt : (advance t b).sbTelopt = t.sbTelopt
  buffer : (advance t b).buffer = t.buffer ++ [b]
  index : t.buffer.length < (advance t b).bufferSize
  quiet : byteSeen t b = []

section Store

variable {t : Tracker} {b : Byte} (size : t.bufferSize ∈ bufferSizes)
  (fits : t.buffer.length ≤ t.bufferSize) (heap : ∀ ok ∈ t.heap, ok = true) (h : Content t b)

include size fits heap h

theorem stores_of_lt (room : t.buffer.length < 16384) : Stores t b := by
  obtain ⟨size', heap', stored, -, -⟩ := bufferByte_stored size heap room b
  have index := bufferByte_index size fits (congrArg (·.2.1) stored)
  have step := byteStep_content h 0 0
  rw [stored] at step index
  simp only [if_true] at step
  have next : advance t b = _ := congrArg Prod.fst step
  exact ⟨by rw [next], by rw [next], by rw [next], by rw [next]; exact index,
    by rw [byteSeen_content h, step]; rfl⟩

omit heap in
theorem byteStep_full (full : t.buffer.length = 16384) (i start : ℕ) :
    byteStep t i start b = ({ t with state := .data }, i + 1, [overflow]) := by
  rw [byteStep_content h, bufferByte_full size fits full]
  rfl

end Store

/-! ### The option byte and what came behind it -/

/-- `SB_DATA` and `SB_DATA_IAC`. -/
def TelnetState.InSb (s : TelnetState) : Prop := s = .sbData ∨ s = .sbDataIac

/-- The stream `h` ends with the option byte `o` and the bytes `raw`, and behind that option byte
the tracker has been inside the subnegotiation and has raised nothing. -/
def Since (t₀ : Tracker) (h : List Byte) (o : Byte) (raw : List Byte) : Prop :=
  ∃ pre, h = pre ++ o :: raw ∧ (pre.foldl advance t₀).state = .sb ∧
    (∀ mid, mid <+: raw → ((pre ++ o :: mid).foldl advance t₀).state.InSb) ∧
    stream ((pre ++ [o]).foldl advance t₀) raw = []

theorem since_start {t₀ : Tracker} {h : List Byte} (hs : (h.foldl advance t₀).state = .sb)
    (o : Byte) : Since t₀ (h ++ [o]) o [] := by
  refine ⟨h, rfl, hs, ?_, rfl⟩
  intro mid hmid
  rw [List.prefix_nil.1 hmid, List.foldl_append]
  left
  simp [advance, byteStep, hs]

theorem Since.concat {t₀ : Tracker} {h : List Byte} {o : Byte} {raw : List Byte}
    (hs : Since t₀ h o raw) {b : Byte} (inside : (advance (h.foldl advance t₀) b).state.InSb)
    (quiet : byteSeen (h.foldl advance t₀) b = []) : Since t₀ (h ++ [b]) o (raw ++ [b]) := by
  obtain ⟨pre, rfl, start, stays, silent⟩ := hs
  refine ⟨pre, by simp, start, ?_, ?_⟩
  · intro mid hmid
    rcases List.prefix_concat_iff.1 hmid with rfl | hmid
    · simpa using inside
    · exact stays mid hmid
  · have last : raw.foldl advance ((pre ++ [o]).foldl advance t₀) =
        (pre ++ o :: raw).foldl advance t₀ := by simp
    rw [stream_append, silent, last, stream, quiet]
    rfl

/-! ### The invariant -/

/-- What holds of the tracker `t` behind the stream `h`. -/
structure Stored (t₀ : Tracker) (h : List Byte) (t : Tracker) : Prop where
  size : t.bufferSize ∈ bufferSizes
  fits : t.buffer.length ≤ t.bufferSize
  sbData : t.state = .sbData → Since t₀ h t.sbTelopt (t.buffer.flatMap escape)
  sbDataIac : t.state = .sbDataIac → Since t₀ h t.sbTelopt (t.buffer.flatMap escape ++ [255])

theorem stored_init (telopts : List Telopt) (proxy : Bool) (heap : List Bool) :
    Stored (telnetInit telopts proxy heap) [] (telnetInit telopts proxy heap) where
  size := List.mem_cons_self
  fits := le_rfl
  sbData := fun hs => by cases hs
  sbDataIac := fun hs => by cases hs

theorem bufferByte_fits {t : Tracker} (size : t.bufferSize ∈ bufferSizes)
    (fits : t.buffer.length ≤ t.bufferSize) (b : Byte) :
    (bufferByte t b).1.buffer.length ≤ (bufferByte t b).1.bufferSize := by
  cases hstored : (bufferByte t b).2.1 with
  | true =>
    have index := bufferByte_index size fits hstored
    have longer : (bufferByte t b).1.buffer.length = t.buffer.length + 1 := by
      unfold bufferByte at hstored ⊢
      repeat' split
      all_goals simp_all
    omega
  | false =>
    have same : (bufferByte t b).1.buffer = t.buffer ∧
        (bufferByte t b).1.bufferSize = t.bufferSize := by
      unfold bufferByte at hstored ⊢
      repeat' split
      all_goals simp_all [Tracker.alloc]
    rw [same.1, same.2]
    exact fits

theorem advance_fits {t : Tracker} (size : t.bufferSize ∈ bufferSizes)
    (fits : t.buffer.length ≤ t.bufferSize) (b : Byte) :
    (advance t b).buffer.length ≤ (advance t b).bufferSize := by
  have act := byteStep_act t 0 0 b
  unfold advance
  generalize (byteStep t 0 0 b).1 = u, (byteStep t 0 0 b).2.2 = evs at act ⊢
  cases act with
  | text | iac | half | oldCompress => exact fits
  | option => exact Nat.zero_le _
  | command => rwa [iacByte_buffer, iacByte_bufferSize]
  | verb =>
    show (negotiate t b).1.buffer.length ≤ (negotiate t b).1.bufferSize
    rwa [negotiate_buffer, negotiate_bufferSize]
  | content => exact bufferByte_fits size fits b
  | finish | skipped => rwa [subnegotiate_length, subnegotiate_bufferSize]
  | unexpected =>
    rwa [iacByte_buffer, iacByte_bufferSize, subnegotiate_length, subnegotiate_bufferSize]

/-- A subnegotiation is entered with its option byte only, and left with every byte that is neither
content nor the first half of an `IAC`. -/
theorem advance_outside {t : Tracker} {b : Byte} (hsb : t.state ≠ .sb) (hb : ¬ Content t b)
    (hiac : ¬ (t.state = .sbData ∧ b = 255)) : ¬ (advance t b).state.InSb := by
  have iac (u : Tracker) (hu : ¬ u.state.InSb) : ¬ (iacByte u b).1.state.InSb := by
    unfold iacByte
    split_ifs <;> simp [TelnetState.InSb]
  have decoded (s : TelnetState) (hs : ¬ s.InSb) :
      ¬ (subnegotiate { t with state := s }).1.state.InSb := by
    obtain ⟨buffer, heap, frame, -⟩ := subnegotiate_frame { t with state := s }
    rw [frame]
    exact hs
  have act := byteStep_act t 0 0 b
  unfold advance
  generalize (byteStep t 0 0 b).1 = u, (byteStep t 0 0 b).2.2 = evs at act ⊢
  cases act with
  | text hs => simp [TelnetState.InSb, hs]
  | iac | verb | oldCompress => simp [TelnetState.InSb]
  | command hs => exact iac t (by simp [TelnetState.InSb, hs])
  | option hs => exact absurd hs hsb
  | half hs h255 => exact absurd ⟨hs, h255⟩ hiac
  | content h => exact absurd h hb
  | finish => exact decoded .data (by simp [TelnetState.InSb])
  | skipped => exact decoded .iac (by simp [TelnetState.InSb])
  | unexpected => exact iac _ (decoded .iac (by simp [TelnetState.InSb]))

theorem Stored.concat {t₀ : Tracker} {h : List Byte} (hs : Stored t₀ h (h.foldl advance t₀))
    (heap : ∀ ok ∈ (h.foldl advance t₀).heap, ok = true) (b : Byte) :
    Stored t₀ (h ++ [b]) (advance (h.foldl advance t₀) b) := by
  have size' := advance_bufferSize hs.size b
  have fits' := advance_fits hs.size hs.fits b
  have outside (hout : ¬ (advance (h.foldl advance t₀) b).state.InSb) :
      Stored t₀ (h ++ [b]) (advance (h.foldl advance t₀) b) :=
    ⟨size', fits', fun hs => absurd (.inl hs) hout, fun hs => absurd (.inr hs) hout⟩
  by_cases hsb : (h.foldl advance t₀).state = .sb
  · -- the option byte
    have next : advance (h.foldl advance t₀) b =
        { h.foldl advance t₀ with sbTelopt := b, buffer := [], state := .sbData } := by
      simp [advance, byteStep, hsb]
    rw [next] at size' fits' ⊢
    exact ⟨size', fits', fun _ => since_start hsb b, fun hs => by cases hs⟩
  by_cases half : (h.foldl advance t₀).state = .sbData ∧ b = 255
  · -- the first half of an `IAC`
    obtain ⟨hdata, rfl⟩ := half
    have step : byteStep (h.foldl advance t₀) 0 0 255 =
        ({ h.foldl advance t₀ with state := .sbDataIac }, 0, []) := by
      simp [byteStep, hdata]
    have next : advance (h.foldl advance t₀) 255 = _ := congrArg Prod.fst step
    have quiet : byteSeen (h.foldl advance t₀) 255 = [] := by
      rw [byteSeen, if_neg (by simp [hdata]), step]
      rfl
    have since := (hs.sbData hdata).concat (by rw [next]; exact .inr rfl) quiet
    rw [next] at size' fits' ⊢
    exact ⟨size', fits', (fun hs => by cases hs), fun _ => since⟩
  by_cases hb : Content (h.foldl advance t₀) b
  · by_cases room : (h.foldl advance t₀).buffer.length < 16384
    · have stores := stores_of_lt hs.size hs.fits heap hb room
      refine ⟨size', fits', fun _ => ?_, fun hstate => ?_⟩
      · rw [stores.sbTelopt, stores.buffer, List.flatMap_append]
        rcases hb with ⟨hdata, h255, -⟩ | ⟨hiac, rfl⟩
        · have since := (hs.sbData hdata).concat (.inl stores.state) stores.quiet
          simpa [escape, h255] using since
        · have since := (hs.sbDataIac hiac).concat (.inl stores.state) stores.quiet
          simpa [escape] using since
      · rw [stores.state] at hstate
        cases hstate
    · have largest : ∀ n ∈ bufferSizes, n ≤ 16384 := by decide
      have full : (h.foldl advance t₀).buffer.length = 16384 :=
        le_antisymm (hs.fits.trans (largest _ hs.size)) (not_lt.1 room)
      apply outside
      rw [advance, byteStep_full hs.size hs.fits hb full]
      simp [TelnetState.InSb]
  · exact outside (advance_outside hsb hb half)

theorem advance_heap {t : Tracker} (heap : ∀ ok ∈ t.heap, ok = true) (h : List Byte) :
    ∀ ok ∈ (h.foldl advance t).heap, ok = true := by
  induction h generalizing t with
  | nil => exact heap
  | cons b h ih => exact ih fun ok hok => heap ok ((apply_q t (.recv b)).2 hok)

/-- The invariant holds behind every stream, from every tracker that is in no subnegotiation. -/
theorem stored_foldl {t₀ : Tracker} (start : Stored t₀ [] t₀)
    (heap : ∀ ok ∈ t₀.heap, ok = true) (h : List Byte) : Stored t₀ h (h.foldl advance t₀) := by
  induction h using List.reverseRecOn with
  | nil => exact start
  | append_singleton h b ih =>
    rw [List.foldl_append]
    exact ih.concat (advance_heap heap h) b

/-! ### What is reported -/

/-- Nothing is lost in the list of the events of a stream. -/
theorem mem_others_stream {t : Tracker} {s : List Byte} {ev : TelnetEvent}
    (h : ev ∈ others (stream t s)) :
    ∃ p b q, s = p ++ b :: q ∧ ev ∈ others (byteSeen (p.foldl advance t) b) := by
  induction s generalizing t with
  | nil => cases h
  | cons b s ih =>
    rw [stream, others_append, List.mem_append] at h
    rcases h with h | h
    · exact ⟨[], b, s, rfl, h⟩
    · obtain ⟨p, b', q, rfl, hev⟩ := ih h
      exact ⟨b :: p, b', q, rfl, hev⟩

theorem mem_others_byteSeen {t : Tracker} {b : Byte} {ev : TelnetEvent}
    (h : ev ∈ others (byteSeen t b)) : ev ∈ (byteStep t 0 0 b).2.2 := by
  unfold byteSeen at h
  split_ifs at h
  · cases h
  · simpa using h

/-- A subnegotiation is reported at its end, with what is in the buffer then. -/
theorem of_subnegotiation {t : Tracker} {b o : Byte} {c : List Byte}
    (h : .subnegotiation o c ∈ (byteStep t 0 0 b).2.2) :
    t.state = .sbDataIac ∧ b ≠ 255 ∧ t.sbTelopt = o ∧ t.buffer = c := by
  have iac (u : Tracker) : .subnegotiation o c ∉ (iacByte u b).2.2 := by
    unfold iacByte
    split_ifs <;> simp
  have store : .subnegotiation o c ∉ (bufferByte t b).2.2 := by
    unfold bufferByte
    repeat' split
    all_goals simp
  have decoded (s : TelnetState)
      (h : .subnegotiation o c ∈ (subnegotiate { t with state := s }).2.2) :
      t.sbTelopt = o ∧ t.buffer = c := by
    obtain ⟨evs, raised, typed⟩ := subnegotiate_events { t with state := s }
    rw [raised, List.mem_cons] at h
    rcases h with h | h
    · cases h
      exact ⟨rfl, rfl⟩
    · cases typed _ h
  have act := byteStep_act t 0 0 b
  generalize (byteStep t 0 0 b).1 = u, (byteStep t 0 0 b).2.2 = evs at act h
  cases act with
  | text | option | half | oldCompress => cases h
  | iac _ _ _ data => cases data _ h
  | command => exact absurd h (iac t)
  | verb => exact (negotiate_negotiates t b _ h).elim
  | content => exact absurd h store
  | finish hs h240 => exact ⟨hs, by simp [h240], decoded _ h⟩
  | skipped _ hs _ h255 =>
    rw [List.mem_cons] at h
    exact ⟨hs, h255, decoded _ (h.resolve_left (by simp))⟩
  | unexpected _ hs _ h255 =>
    rw [List.mem_append, List.mem_cons] at h
    rcases h with (h | h) | h
    · cases h
    · exact ⟨hs, h255, decoded _ h⟩
    · exact absurd h (iac _)

/-! ### The warning of `_buffer_byte` -/

theorem iacByte_overflow (t : Tracker) (b : Byte) : overflow ∉ (iacByte t b).2.2 := by
  unfold iacByte
  split_ifs <;> simp [overflow]

theorem settle_overflow (t : Tracker) (o : Byte) (us him : QState) {evs : List TelnetEvent}
    (h : overflow ∉ evs) : overflow ∉ (settle t o us him evs).2 := by
  unfold settle setRfc1143
  split_ifs <;> simpa [overflow] using h

theorem negotiate_overflow (t : Tracker) (o : Byte) : overflow ∉ (negotiate t o).2 := by
  unfold negotiate
  dsimp only
  repeat' split
  all_goals first
    | exact settle_overflow _ _ _ _ (by simp [overflow, sendNegotiate])
    | simp [overflow, sendNegotiate]

theorem subnegotiate_overflow (t : Tracker) : overflow ∉ (subnegotiate t).2.2 := by
  -- the warnings of `_environ_telnet` are made of several strings
  have telopt (s msg : String) : "subnegotiation buffer size limit reached" ≠
      "telopt " ++ s ++ msg := fun h => by
    simpa using congrArg String.toList h
  unfold subnegotiate
  dsimp only
  rw [List.mem_cons, not_or]
  refine ⟨by simp [overflow], ?_⟩
  split_ifs
  · unfold zmpTelnet
    split_ifs <;> simp [overflow]
  · unfold ttypeTelnet
    repeat' split
    all_goals simp [overflow]
  · unfold environTelnet
    dsimp only
    repeat' split
    all_goals simp [overflow, telopt]
  · unfold msspTelnet
    repeat' split
    all_goals simp [overflow]
  · simp

theorem full_of_overflow {t : Tracker} {b : Byte} (h : overflow ∈ (bufferByte t b).2.2) :
    t.buffer.length = t.bufferSize ∧ nextBufferSize t.bufferSize = none := by
  unfold bufferByte at h
  by_cases full : t.buffer.length = t.bufferSize
  · cases hnext : nextBufferSize t.bufferSize with
    | none => exact ⟨full, rfl⟩
    | some size =>
      rw [if_pos full, hnext] at h
      dsimp only at h
      split_ifs at h <;> simp [overflow] at h
  · rw [if_neg full] at h
    cases h

/-- No other event of the receiver is the warning of `_buffer_byte`. -/
theorem content_of_overflow {t : Tracker} {b : Byte} (h : overflow ∈ (byteStep t 0 0 b).2.2) :
    Content t b ∧ t.buffer.length = t.bufferSize ∧ nextBufferSize t.bufferSize = none := by
  have other (n : ℕ) : overflow ≠
      .warning ("unexpected byte after IAC inside SB: " ++ toString n) := fun h => by
    simpa using congrArg String.toList (TelnetEvent.warning.inj h)
  have act := byteStep_act t 0 0 b
  generalize (byteStep t 0 0 b).1 = u, (byteStep t 0 0 b).2.2 = evs at act h
  cases act with
  | text | option | half | oldCompress => cases h
  | iac _ _ _ data => cases data _ h
  | command => exact absurd h (iacByte_overflow t b)
  | verb => exact absurd h (negotiate_overflow t b)
  | content hb => exact ⟨hb, full_of_overflow h⟩
  | finish => exact absurd h (subnegotiate_overflow _)
  | skipped msg _ _ _ hmsg =>
    subst hmsg
    rcases List.mem_cons.1 h with h | h
    · exact absurd h (other _)
    · exact absurd h (subnegotiate_overflow _)
  | unexpected msg _ _ _ hmsg =>
    subst hmsg
    rcases List.mem_append.1 h with h | h
    · rcases List.mem_cons.1 h with h | h
      · exact absurd h (other _)
      · exact absurd h (subnegotiate_overflow _)
    · exact absurd h (iacByte_overflow _ b)

/-- What happens to a byte for which there is no room: one warning, the tracker waits for data, and
a subnegotiation that is reported for the rest of the stream has its option byte there. -/
structure Overflows (t : Tracker) (b : Byte) (rest : List Byte) : Prop where
  state : (advance t b).state = .data
  warned : byteSeen t b = [.other overflow]
  later : ∀ o c, .subnegotiation o c ∈ others (stream (advance t b) rest) →
    ∃ p x q, rest = p ++ o :: (c.flatMap escape ++ 255 :: x :: q) ∧ x ≠ 255 ∧
      (p.foldl advance (advance t b)).state = .sb

theorem later_of_data {t : Tracker} (state : t.state = .data) (size : t.bufferSize ∈ bufferSizes)
    (fits : t.buffer.length ≤ t.bufferSize) (heap : ∀ ok ∈ t.heap, ok = true)
    {rest : List Byte} {o : Byte} {c : List Byte}
    (h : .subnegotiation o c ∈ others (stream t rest)) :
    ∃ p x q, rest = p ++ o :: (c.flatMap escape ++ 255 :: x :: q) ∧ x ≠ 255 ∧
      (p.foldl advance t).state = .sb := by
  have start : Stored t [] t :=
    ⟨size, fits, fun hs => by simp [state] at hs, fun hs => by simp [state] at hs⟩
  obtain ⟨p, x, q, rfl, hev⟩ := mem_others_stream h
  obtain ⟨hs, hx, rfl, rfl⟩ := of_subnegotiation (mem_others_byteSeen hev)
  obtain ⟨pre, hp, hsb, -, -⟩ := (stored_foldl start heap p).sbDataIac hs
  refine ⟨pre, x, q, ?_, hx, hsb⟩
  conv_lhs => rw [hp]
  simp

/-- In every state of every stream, in any chunks, the buffer has a size of the table and holds the
unescaped bytes since the option byte.  A byte of the content is stored below that size, and nothing
is raised for it, as long as there are fewer than 16384; the next one raises the one warning there
is and ends the subnegotiation, and whatever subnegotiation is reported then has begun later. -/
theorem sb_buffer (telopts : List Telopt) (proxy : Bool) (heap : List Bool)
    (allocs : ∀ ok ∈ heap, ok = true) (chunks : List (List Byte)) :
    Stored (telnetInit telopts proxy heap) chunks.flatten
        (recvAll (telnetInit telopts proxy heap) chunks).1 ∧
      ∀ h b rest, chunks.flatten = h ++ b :: rest →
        ∀ t, t = (recvAll (telnetInit telopts proxy heap) [h]).1 →
          others (recvAll (telnetInit telopts proxy heap) chunks).2 =
            others (recvAll (telnetInit telopts proxy heap) [h]).2 ++ others (byteSeen t b) ++
              others (stream (advance t b) rest) ∧
          (Content t b → if t.buffer.length < 16384 then Stores t b else Overflows t b rest) ∧
          (overflow ∈ others (byteSeen t b) → Content t b ∧ t.buffer.length = 16384) := by
  have start := stored_init telopts proxy heap
  constructor
  · rw [recvAll_fst]
    exact stored_foldl start allocs _
  · intro h b rest cut t ht
    rw [recvAll_fst, List.flatten_singleton] at ht
    have stored : Stored (telnetInit telopts proxy heap) h t := ht ▸ stored_foldl start allocs h
    have heap' : ∀ ok ∈ t.heap, ok = true := ht ▸ advance_heap allocs h
    have largest : ∀ n ∈ bufferSizes, n ≤ 16384 := by decide
    refine ⟨?_, ?_, ?_⟩
    · rw [others_recvAll, others_recvAll, cut, List.flatten_singleton, stream_append, stream, ← ht,
        others_append, others_append, List.append_assoc]
    · intro hb
      split_ifs with room
      · exact stores_of_lt stored.size stored.fits heap' hb room
      · have full : t.buffer.length = 16384 :=
          le_antisymm (stored.fits.trans (largest _ stored.size)) (not_lt.1 room)
        have step := byteStep_full stored.size stored.fits hb full 0 0
        have next : advance t b = { t with state := .data } := congrArg Prod.fst step
        refine ⟨by rw [next], by rw [byteSeen_content hb, step]; rfl, ?_⟩
        intro o c reported
        rw [next] at reported ⊢
        exact @later_of_data { t with state := .data } rfl stored.size stored.fits heap' _ _ _
          reported
    · intro warned
      obtain ⟨hb, full, last⟩ := content_of_overflow (mem_others_byteSeen warned)
      have end_ : ∀ n ∈ bufferSizes, nextBufferSize n = none → n = 16384 := by decide
      exact ⟨hb, full.trans (end_ _ stored.size last)⟩

/-- An escaped `IAC` cut in two. -/
theorem sb_buffer_sample :
    Stored (telnetInit [] false []) [255, 250, 24, 1, 255, 255]
      (recvAll (telnetInit [] false []) [[255, 250, 24, 1, 255], [255]]).1 :=
  (sb_buffer [] false [] (by decide) [[255, 250, 24, 1, 255], [255]]).1

/-- A `WILL` behind any content of option `85` is not content, and nothing is raised for it. -/
theorem oldCompress_quiet {content : List Byte} (room : content.length ≤ 16384)
    (new : 251 ∉ content) {t : Tracker}
    (ht : t = (recvAll (telnetInit [] false []) [[255, 250, 85] ++ content.flatMap escape]).1) :
    t.state = .sbData ∧ t.buffer = content ∧ byteSeen t 251 = [] := by
  obtain ⟨begun, -, -⟩ := collecting_start
    (⟨rfl, List.mem_cons_self, by simp [telnetInit]⟩ : Ready (telnetInit [] false [])) 85
  obtain ⟨full, -, -⟩ := begun.bytes (by simpa using room) fun _ => new
  rw [recvAll_fst, List.flatten_singleton, List.foldl_append] at ht
  rw [← ht] at full
  refine ⟨full.state, full.buffer, ?_⟩
  rw [byteSeen, if_neg (by simp [full.state])]
  simp [byteStep, full.state, full.sbTelopt]

/-- Also where that content fills the largest buffer. -/
theorem not_sb_buffer_sample :
    ∃ t, t = (recvAll (telnetInit [] false [])
        [[255, 250, 85] ++ (List.replicate 16384 0).flatMap escape]).1 ∧
      t.state = .sbData ∧ t.buffer.length = 16384 ∧ others (byteSeen t 251) ≠ [overflow] := by
  obtain ⟨content, zeros⟩ : ∃ content : List Byte, content = List.replicate 16384 0 := ⟨_, rfl⟩
  have full : content.length = 16384 := by rw [zeros, List.length_replicate]
  have new : 251 ∉ content := fun h => by
    rw [zeros] at h
    exact absurd (List.eq_of_mem_replicate h) (by decide)
  obtain ⟨state, buffer, quiet⟩ := oldCompress_quiet full.le new rfl
  rw [← zeros]
  refine ⟨_, rfl, state, by rw [buffer, full], ?_⟩
  rw [quiet]
  exact (List.cons_ne_nil _ _).symm

end Siproxy.Telnet
