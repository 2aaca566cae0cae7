import Siproxy.Lib.Parts
import Siproxy.Telnet

/-!
# Receiving a telnet stream

`telnet_recv` on a whole buffer (`telnetRecv`): the loop of `_process` with the call of
`telnet_recv` on the rest of the buffer where `_subnegotiate` returns a value other than `0`.  The
call goes on where the loop was (`process_eq_loop`).

* `telnetRecv_append`: as long as option `85` is not used in the old way, neither the tracker nor
  the events depend on how the stream is cut into buffers, up to the cuts of the data.
* `data_inside_iff`: every event about data refers to a range of the buffer received, exactly if no
  `IAC` is escaped and no `WILL` in a subnegotiation of option `85` is the last byte of the buffer or
  followed by an `IAC`.
-/

namespace Siproxy.Telnet

open CString Parts

/-! ### `_process` -/

/-- The last statement of `_process`. -/
def pending (t : Tracker) (i start : ℕ) : List TelnetEvent :=
  if t.state = .data ∧ i ≠ start then [.data (.buffer start) (sizeT i start)] else []

/-- The event as it is seen from `k` bytes in front of the buffer. -/
def TelnetEvent.shift (k : ℕ) : TelnetEvent → TelnetEvent
  | .data (.buffer off) size => .data (.buffer (k + off)) size
  | ev => ev

/-- `_subnegotiate` returns a value other than `0`, and the rest of the buffer goes to
`telnet_recv`. -/
def reenters (t : Tracker) (byte : Byte) : Bool :=
  t.state = .sbDataIac ∧
    ((byte = 240 ∧ (subnegotiate { t with state := .data }).2.1) ∨
      (byte ≠ 240 ∧ byte ≠ 255 ∧ (subnegotiate { t with state := .iac }).2.1))

/-- `_process` at position `i` of a buffer that starts at offset `base` of the bytes received; the
list holds the bytes from position `i` on. -/
def process : ℕ → Tracker → ℕ → ℕ → List Byte → Tracker × List TelnetEvent
  | base, t, i, start, [] => (t, (pending t i start).map (·.shift base))
  | base, t, i, start, byte :: rest =>
    let r := byteStep t i start byte
    let s :=
      if reenters t byte then process (base + r.2.1) r.1 0 0 rest
      else process base r.1 (i + 1) r.2.1 rest
    (s.1, r.2.2.map (·.shift base) ++ s.2)

/-- `telnet_recv`. -/
def telnetRecv (t : Tracker) (buffer : List Byte) : Tracker × List TelnetEvent :=
  process 0 t 0 0 buffer

/-- The loop of `_process` without the call of `telnet_recv`. -/
def loop : Tracker → ℕ → ℕ → List Byte → Tracker × List TelnetEvent
  | t, i, start, [] => (t, pending t i start)
  | t, i, start, byte :: rest =>
    let r := byteStep t i start byte
    let s := loop r.1 (i + 1) r.2.1 rest
    (s.1, r.2.2 ++ s.2)

theorem shift_zero (ev : TelnetEvent) : ev.shift 0 = ev := by
  rcases ev with ⟨_ | _, _⟩ | _ <;> simp [TelnetEvent.shift]

theorem shift_shift (k l : ℕ) (ev : TelnetEvent) : (ev.shift l).shift k = ev.shift (k + l) := by
  rcases ev with ⟨_ | _, _⟩ | _ <;> simp [TelnetEvent.shift, Nat.add_assoc]

theorem NoData.shift {evs : List TelnetEvent} (h : NoData evs) (k : ℕ) :
    evs.map (·.shift k) = evs := by
  conv_rhs => rw [← List.map_id evs]
  apply List.map_congr_left
  intro ev hev
  have plain := h ev hev
  cases ev with
  | data ptr size => simp [TelnetEvent.isData] at plain
  | _ => rfl

theorem sizeT_add (k i start : ℕ) : sizeT (k + i) (k + start) = sizeT i start := by
  unfold sizeT
  congr 1
  omega

theorem pending_shift (t : Tracker) (k i start : ℕ) :
    pending t (k + i) (k + start) = (pending t i start).map (·.shift k) := by
  simp only [pending, sizeT_add, ne_eq, Nat.add_left_cancel_iff]
  split_ifs <;> rfl

theorem iacByte_shift (t : Tracker) (byte : Byte) (k : ℕ) :
    (iacByte t byte).2.2.map (·.shift k) = (iacByte t byte).2.2 := by
  by_cases hb : byte = 255
  · subst hb
    rfl
  · exact (iacByte_noData hb).shift k

/-- The events of a byte move with the buffer. -/
theorem byteStep_shift (t : Tracker) (k i start : ℕ) (b : Byte) :
    byteStep t (k + i) (k + start) b = ((byteStep t i start b).1, k + (byteStep t i start b).2.1,
      (byteStep t i start b).2.2.map (·.shift k)) := by
  cases hs : t.state with
  | data =>
    simp only [byteStep, hs, sizeT_add, ne_eq, Nat.add_left_cancel_iff]
    split_ifs <;> rfl
  | iac =>
    simp only [byteStep, hs, iacByte_shift]
    split_ifs <;> rfl
  | sb => simp only [byteStep, hs, List.map_nil]
  | sbData =>
    simp only [byteStep, hs]
    split_ifs
    · rfl
    · rfl
    · rw [(bufferByte_noData t b).shift]
    · rw [(bufferByte_noData t b).shift]
      rfl
  | sbDataIac =>
    simp only [byteStep, hs]
    split_ifs
    · rw [(subnegotiate_noData _).shift]
      rfl
    · rw [(bufferByte_noData t b).shift]
    · rw [(bufferByte_noData t b).shift]
      rfl
    · rw [List.map_cons, (subnegotiate_noData _).shift]
      rfl
    · rw [List.cons_append, List.map_cons, List.map_append, (subnegotiate_noData _).shift,
        iacByte_shift]
      rfl
  | _ =>
    simp only [byteStep, hs]
    rw [(negotiate_noData t b).shift]
    rfl

theorem loop_shift (t : Tracker) (k i start : ℕ) (rest : List Byte) :
    loop t (k + i) (k + start) rest =
      ((loop t i start rest).1, (loop t i start rest).2.map (·.shift k)) := by
  induction rest generalizing t i start with
  | nil => simp only [loop, pending_shift]
  | cons b rest ih =>
    simp only [loop, byteStep_shift, Nat.add_assoc, ih, List.map_append]

/-- Where the rest of the buffer goes to `telnet_recv`, it starts behind the byte. -/
theorem start_of_reenters {t : Tracker} {b : Byte} (h : reenters t b = true) (i start : ℕ) :
    (byteStep t i start b).2.1 = i + 1 := by
  simp only [reenters, decide_eq_true_eq] at h
  obtain ⟨hs, ⟨rfl, -⟩ | ⟨hse, hiac, hret⟩⟩ := h
  · simp [byteStep, hs]
  · simp [byteStep, hs, hse, hiac, hret]

/-- The call of `telnet_recv` on the rest of the buffer goes on with the loop. -/
theorem process_eq_loop (base : ℕ) (t : Tracker) (i start : ℕ) (rest : List Byte) :
    process base t i start rest =
      ((loop t i start rest).1, (loop t i start rest).2.map (·.shift base)) := by
  induction rest generalizing base t i start with
  | nil => rfl
  | cons b rest ih =>
    simp only [process, loop, List.map_append]
    split_ifs with h
    · have hstart := start_of_reenters h i start
      have moved := loop_shift (byteStep t i start b).1 (i + 1) 0 0 rest
      rw [ih, hstart]
      simp only [Nat.add_zero] at moved
      simp only [moved, List.map_map]
      congr 3
      funext ev
      exact (shift_shift base (i + 1) ev).symm
    · rw [ih]

theorem telnetRecv_eq_loop (t : Tracker) (buffer : List Byte) :
    telnetRecv t buffer = loop t 0 0 buffer := by
  rw [telnetRecv, process_eq_loop]
  simp only [shift_zero, List.map_id']

/-! ### The stream, byte by byte -/

/-- An event with its data. -/
abbrev Seen := Item Byte TelnetEvent

/-- What the event handler sees of an event raised for a buffer. -/
def see (buffer : List Byte) : TelnetEvent → Seen
  | .data (.buffer off) size => .part ((buffer.drop off).take size)
  | .data (.byte b) _ => .part [b]
  | ev => .other ev

/-- What a byte contributes, as if it were received alone. -/
def byteSeen (t : Tracker) (b : Byte) : List Seen :=
  if (t.state = .data ∧ b ≠ 255) ∨ (t.state = .iac ∧ b = 255) then [.part [b]]
  else (byteStep t 0 0 b).2.2.map .other

/-- What a stream contributes. -/
def stream : Tracker → List Byte → List Seen
  | _, [] => []
  | t, b :: s => byteSeen t b ++ stream (advance t b) s

theorem stream_append (t : Tracker) (a b : List Byte) :
    stream t (a ++ b) = stream t a ++ stream (a.foldl advance t) b := by
  induction a generalizing t with
  | nil => rfl
  | cons x a ih => simp [stream, ih]

/-- Option `85` is not used in the old way. -/
def Plain : Tracker → List Byte → Prop
  | _, [] => True
  | t, b :: s => ¬ OldCompress t b ∧ Plain (advance t b) s

instance Plain.decidable : (t : Tracker) → (s : List Byte) → Decidable (Plain t s)
  | _, [] => isTrue trivial
  | t, b :: s =>
    have := Plain.decidable (advance t b) s
    inferInstanceAs (Decidable (¬ OldCompress t b ∧ Plain (advance t b) s))

theorem plain_append {t : Tracker} {a b : List Byte} :
    Plain t (a ++ b) ↔ Plain t a ∧ Plain (a.foldl advance t) b := by
  induction a generalizing t with
  | nil => simp [Plain]
  | cons x a ih => simp [Plain, ih, and_assoc]

theorem loop_fst (t : Tracker) (i start : ℕ) (rest : List Byte) :
    (loop t i start rest).1 = rest.foldl advance t := by
  induction rest generalizing t i start with
  | nil => rfl
  | cons b rest ih => rw [loop, ih, byteStep_fst, List.foldl_cons]

/-- The tracker behind a buffer does not depend on the buffer's bounds. -/
theorem telnetRecv_fst (t : Tracker) (buffer : List Byte) :
    (telnetRecv t buffer).1 = buffer.foldl advance t := by
  rw [telnetRecv_eq_loop, loop_fst]

/-- The events of a command do not depend on its position. -/
theorem byteStep_command_events {t : Tracker} {b : Byte} (h : InCommand t b) (i start : ℕ) :
    (byteStep t i start b).2.2 = (byteStep t 0 0 b).2.2 := by
  cases hs : t.state with
  | data => exact absurd hs h.1
  | sbData =>
    simp only [byteStep, hs]
    split_ifs <;> rfl
  | sbDataIac =>
    simp only [byteStep, hs]
    split_ifs <;> rfl
  | _ => simp only [byteStep, hs]

theorem NoData.see {evs : List TelnetEvent} (h : NoData evs) (buffer : List Byte) :
    evs.map (see buffer) = evs.map .other := by
  apply List.map_congr_left
  intro ev hev
  have plain := h ev hev
  cases ev with
  | data ptr size => simp [TelnetEvent.isData] at plain
  | _ => rfl

theorem sizeT_of_le {i start : ℕ} (h : start ≤ i) (hi : i < 2 ^ 64) :
    sizeT i start = i - start := by
  unfold sizeT
  omega

theorem pending_of_state {t : Tracker} (h : t.state ≠ .data) (i start : ℕ) :
    pending t i start = [] := by
  simp [pending, h]

theorem pending_self (t : Tracker) (i : ℕ) : pending t i i = [] := by
  simp [pending]

theorem pending_text {t : Tracker} (hs : t.state = .data) {pre rest : List Byte} {b : Byte}
    (small : (pre ++ b :: rest).length < 2 ^ 64) {start : ℕ} (h : start ≤ pre.length)
    (after : List Seen) :
    merge ((pending t (pre.length + 1) start).map (see (pre ++ b :: rest)) ++ after) =
      merge ((pending t pre.length start).map (see (pre ++ b :: rest)) ++ .part [b] :: after) := by
  have hlen : pre.length + 1 < 2 ^ 64 := by
    simp only [List.length_append, List.length_cons] at small
    omega
  have longer : pending t (pre.length + 1) start =
      [.data (.buffer start) (pre.length + 1 - start)] := by
    rw [pending, if_pos ⟨hs, by omega⟩, sizeT_of_le (by omega) hlen]
  have slice : ((pre ++ b :: rest).drop start).take (pre.length + 1 - start) =
      ((pre ++ b :: rest).drop start).take (pre.length - start) ++ [b] := by
    rw [List.drop_append_of_le_length h, List.take_append, List.take_append]
    simp [Nat.sub_add_comm h]
  rw [longer]
  rcases h.eq_or_lt with heq | hlt
  · subst heq
    simp [pending_self, see]
  · have shorter : pending t pre.length start =
        [.data (.buffer start) (pre.length - start)] := by
      rw [pending, if_pos ⟨hs, by omega⟩, sizeT_of_le h (by omega)]
    rw [shorter]
    simp only [List.map_cons, List.map_nil, List.cons_append, List.nil_append, see, slice]
    rw [merge_part_append]

/-- What a round of the loop raises and leaves pending is what was pending and what the byte
contributes, whatever comes after. -/
structure Accounted (t : Tracker) (pre : List Byte) (b : Byte) (rest : List Byte) (start : ℕ) :
    Prop where
  behind : (byteStep t pre.length start b).1.state = .data →
    (byteStep t pre.length start b).2.1 ≤ pre.length + 1
  events : ∀ after : List Seen,
    merge ((byteStep t pre.length start b).2.2.map (see (pre ++ b :: rest)) ++
      ((pending (byteStep t pre.length start b).1 (pre.length + 1)
        (byteStep t pre.length start b).2.1).map (see (pre ++ b :: rest)) ++ after)) =
    merge ((pending t pre.length start).map (see (pre ++ b :: rest)) ++ (byteSeen t b ++ after))

theorem accounted_text {t : Tracker} (hs : t.state = .data) {b : Byte} (hb : b ≠ 255)
    {pre rest : List Byte} (small : (pre ++ b :: rest).length < 2 ^ 64) {start : ℕ}
    (h : start ≤ pre.length) : Accounted t pre b rest start := by
  have seen : byteSeen t b = [.part [b]] := by simp [byteSeen, hs, hb]
  constructor
  · rw [byteStep_text hs hb]
    exact fun _ => h.trans (Nat.le_succ _)
  · intro after
    rw [byteStep_text hs hb, seen]
    exact pending_text hs small h after

/-- An `IAC` sends what is pending. -/
theorem accounted_iac {t : Tracker} (hs : t.state = .data) (pre rest : List Byte) (start : ℕ) :
    Accounted t pre 255 rest start := by
  have sent : (byteStep t pre.length start 255).2.2 = pending t pre.length start := by
    simp [byteStep_iac hs, pending, hs]
  have state : (byteStep t pre.length start 255).1.state ≠ .data := by
    simp [byteStep_iac hs]
  have seen : byteSeen t 255 = [] := by simp [byteSeen, hs, byteStep_iac hs]
  constructor
  · exact fun hd => absurd hd state
  · intro after
    rw [pending_of_state state, sent, seen]
    rfl

theorem accounted_escape {t : Tracker} (hs : t.state = .iac) (pre rest : List Byte) (start : ℕ) :
    Accounted t pre 255 rest start := by
  have seen : byteSeen t 255 = [.part [255]] := by simp [byteSeen, hs]
  constructor
  · rw [byteStep_escape hs]
    exact fun _ => le_rfl
  · intro after
    have before : pending t pre.length start = [] := pending_of_state (by simp [hs]) _ _
    rw [before, byteStep_escape hs, pending_self, seen]
    rfl

theorem accounted_command {t : Tracker} {b : Byte} (cmd : InCommand t b)
    (plain : ¬ OldCompress t b) (pre rest : List Byte) (start : ℕ) :
    Accounted t pre b rest start := by
  obtain ⟨quiet, behind⟩ := byteStep_command cmd pre.length start
  have fresh : (byteStep t pre.length start b).1.state = .data →
      (byteStep t pre.length start b).2.1 = pre.length + 1 :=
    fun hd => (behind hd).resolve_right fun old => plain old.1
  have none : pending (byteStep t pre.length start b).1 (pre.length + 1)
      (byteStep t pre.length start b).2.1 = [] := by
    by_cases hd : (byteStep t pre.length start b).1.state = .data
    · rw [fresh hd, pending_self]
    · exact pending_of_state hd _ _
  have seen : byteSeen t b = (byteStep t 0 0 b).2.2.map .other := by
    rw [byteSeen, if_neg]
    rintro (hd | hd)
    · exact cmd.1 hd.1
    · exact cmd.2 hd
  constructor
  · exact fun hd => (fresh hd).le
  · intro after
    rw [none, pending_of_state cmd.1, seen, quiet.see, byteStep_command_events cmd]
    rfl

theorem accounted {t : Tracker} {pre rest : List Byte} {b : Byte} {start : ℕ}
    (small : (pre ++ b :: rest).length < 2 ^ 64) (plain : ¬ OldCompress t b)
    (h : t.state = .data → start ≤ pre.length) : Accounted t pre b rest start := by
  by_cases cmd : InCommand t b
  · exact accounted_command cmd plain pre rest start
  by_cases hd : t.state = .data
  · by_cases hb : b = 255
    · subst hb
      exact accounted_iac hd pre rest start
    · exact accounted_text hd hb small (h hd)
  · have esc : t.state = .iac ∧ b = 255 := by
      by_contra no
      exact cmd ⟨hd, no⟩
    obtain ⟨hs, rfl⟩ := esc
    exact accounted_escape hs pre rest start

/-- What the loop raises from a position on is what was pending there and what the rest of the
stream contributes. -/
theorem loop_seen {t : Tracker} {pre rest : List Byte} {start : ℕ}
    (small : (pre ++ rest).length < 2 ^ 64) (plain : Plain t rest)
    (h : t.state = .data → start ≤ pre.length) :
    merge ((loop t pre.length start rest).2.map (see (pre ++ rest))) =
      merge ((pending t pre.length start).map (see (pre ++ rest)) ++ stream t rest) := by
  -- induction on the rest of the buffer; the front grows by the byte that is read
  induction rest generalizing t pre start with
  | nil => simp [loop, stream]
  | cons b rest ih =>
    have shape : (pre ++ [b]) ++ rest = pre ++ b :: rest := by simp
    have step := accounted small plain.1 h
    have tail := @ih (byteStep t pre.length start b).1 (pre ++ [b])
      (byteStep t pre.length start b).2.1 (by rwa [shape]) (byteStep_fst t _ _ b ▸ plain.2)
      (by simpa using step.behind)
    rw [shape, List.length_append, List.length_singleton] at tail
    rw [loop, List.map_append, merge_append_congr rfl tail, step.events, byteStep_fst, stream]

/-- What the event handler sees of a buffer. -/
def seen (t : Tracker) (buffer : List Byte) : List Seen := (telnetRecv t buffer).2.map (see buffer)

theorem merge_seen {t : Tracker} {buffer : List Byte} (small : buffer.length < 2 ^ 64)
    (plain : Plain t buffer) : merge (seen t buffer) = merge (stream t buffer) := by
  have whole := @loop_seen t [] buffer 0 small plain fun _ => le_rfl
  rw [List.length_nil, pending_self] at whole
  rw [seen, telnetRecv_eq_loop]
  exact whole

/-- Several buffers, one after the other. -/
def recvAll : Tracker → List (List Byte) → Tracker × List Seen
  | t, [] => (t, [])
  | t, c :: cs =>
    ((recvAll (telnetRecv t c).1 cs).1, seen t c ++ (recvAll (telnetRecv t c).1 cs).2)

theorem recvAll_fst (t : Tracker) (chunks : List (List Byte)) :
    (recvAll t chunks).1 = chunks.flatten.foldl advance t := by
  induction chunks generalizing t with
  | nil => rfl
  | cons c cs ih => rw [recvAll, ih, telnetRecv_fst, List.flatten_cons, List.foldl_append]

theorem merge_recvAll {t : Tracker} {chunks : List (List Byte)}
    (small : ∀ c ∈ chunks, c.length < 2 ^ 64) (plain : Plain t chunks.flatten) :
    merge (recvAll t chunks).2 = merge (stream t chunks.flatten) := by
  induction chunks generalizing t with
  | nil => rfl
  | cons c cs ih =>
    rw [List.flatten_cons] at plain ⊢
    obtain ⟨first, others⟩ := plain_append.1 plain
    obtain ⟨small, smalls⟩ := List.forall_mem_cons.1 small
    rw [recvAll, stream_append, telnetRecv_fst]
    exact merge_append_congr (merge_seen small first) (ih smalls others)

/-- What a byte raises apart from data, wherever it stands. -/
theorem others_byteStep (t : Tracker) (i start : ℕ) (b : Byte) (buffer : List Byte) :
    others ((byteStep t i start b).2.2.map (see buffer)) = others (byteSeen t b) := by
  unfold byteSeen
  by_cases cmd : InCommand t b
  · have alone : ¬ ((t.state = .data ∧ b ≠ 255) ∨ (t.state = .iac ∧ b = 255)) := by
      rintro (hd | hesc)
      · exact cmd.1 hd.1
      · exact cmd.2 hesc
    rw [if_neg alone, (byteStep_command cmd i start).1.see, byteStep_command_events cmd]
  · by_cases hd : t.state = .data
    · by_cases h255 : b = 255
      · subst h255
        have alone : ¬ ((t.state = .data ∧ (255 : Byte) ≠ 255) ∨ (t.state = .iac ∧
            (255 : Byte) = 255)) := by simp [hd]
        rw [if_neg alone, byteStep_iac hd, byteStep_iac hd]
        by_cases hi : i = start <;> simp [hi, see, others]
      · rw [byteStep_text hd h255, if_pos (.inl ⟨hd, h255⟩)]
        rfl
    · have hesc : t.state = .iac ∧ b = 255 := by
        by_contra hesc
        exact cmd ⟨hd, hesc⟩
      rw [hesc.2, byteStep_escape hesc.1, if_pos (.inr ⟨hesc.1, rfl⟩)]
      rfl

/-- Whatever the stream is and wherever it is cut, the events that are not about data are those of
its bytes, in order. -/
theorem others_recvAll (t : Tracker) (chunks : List (List Byte)) :
    others (recvAll t chunks).2 = others (stream t chunks.flatten) := by
  have whole (t : Tracker) (i start : ℕ) (rest buffer : List Byte) :
      others ((loop t i start rest).2.map (see buffer)) = others (stream t rest) := by
    induction rest generalizing t i start with
    | nil =>
      simp only [loop, pending]
      split_ifs <;> rfl
    | cons b rest ih =>
      rw [loop, List.map_append, others_append, others_byteStep, ih, byteStep_fst, stream,
        others_append]
  induction chunks generalizing t with
  | nil => rfl
  | cons c cs ih =>
    rw [recvAll, others_append, ih, seen, telnetRecv_eq_loop, whole, loop_fst, List.flatten_cons,
      stream_append, others_append]

/-- For every tracker and every stream in which option `85` is not used in the old way, receiving
the stream in two buffers leaves the same tracker and raises the same events as receiving it in
one, up to the cuts of the data; and so does receiving it in any number of buffers. -/
theorem telnetRecv_append (t : Tracker) (a b : List Byte) (small : (a ++ b).length < 2 ^ 64)
    (plain : Plain t (a ++ b)) :
    ((telnetRecv (telnetRecv t a).1 b).1 = (telnetRecv t (a ++ b)).1 ∧
      merge (seen t a ++ seen (telnetRecv t a).1 b) = merge (seen t (a ++ b))) ∧
    ∀ chunks : List (List Byte), chunks.flatten = a ++ b →
      (recvAll t chunks).1 = (telnetRecv t (a ++ b)).1 ∧
        merge (recvAll t chunks).2 = merge (seen t (a ++ b)) := by
  have any (chunks : List (List Byte)) (h : chunks.flatten = a ++ b) :
      (recvAll t chunks).1 = (telnetRecv t (a ++ b)).1 ∧
        merge (recvAll t chunks).2 = merge (seen t (a ++ b)) := by
    have smalls : ∀ c ∈ chunks, c.length < 2 ^ 64 := by
      intro c hc
      have short := (List.sublist_flatten_of_mem hc).length_le
      rw [h] at short
      omega
    rw [recvAll_fst, telnetRecv_fst, merge_seen small plain, h]
    rw [← h] at plain
    exact ⟨rfl, by rw [merge_recvAll smalls plain, h]⟩
  refine ⟨?_, any⟩
  have two := any [a, b] (by simp)
  simpa [recvAll] using two

/-- `A`, an offer of option `1`, and `B`, cut inside the offer. -/
theorem telnetRecv_append_sample :
    merge (seen (telnetInit [⟨1, 252, 253⟩] false []) [65, 255, 251] ++
        seen (telnetRecv (telnetInit [⟨1, 252, 253⟩] false []) [65, 255, 251]).1 [1, 66]) =
      [.part [65], .other (.send [255, 253, 1]), .other (.will 1), .part [66]] := by
  rw [(telnetRecv_append (telnetInit [⟨1, 252, 253⟩] false []) [65, 255, 251] [1, 66] (by decide)
    (by decide)).1.2]
  decide

/-! ### The range of the data -/

/-- An event about data refers to a range of the buffer; an escaped `IAC` is a copy. -/
def TelnetEvent.Inside (buffer : List Byte) : TelnetEvent → Prop
  | .data (.buffer off) size => off + size ≤ buffer.length
  | .data (.byte _) _ => False
  | _ => True

instance (buffer : List Byte) : DecidablePred (TelnetEvent.Inside buffer)
  | .data (.buffer off) size => inferInstanceAs (Decidable (off + size ≤ buffer.length))
  | .data (.byte _) _ => isFalse id
  | .send _ | .iac _ | .will _ | .wont _ | .do_ _ | .dont _ | .subnegotiation _ _ | .zmp _
  | .ttype _ _ | .environ _ _ | .mssp _ | .warning _ => isTrue trivial

/-- The byte is an `IAC` that an `IAC` in front of it escapes. -/
def Escaped (t : Tracker) (b : Byte) : Prop := t.state = .iac ∧ b = 255

instance (t : Tracker) (b : Byte) : Decidable (Escaped t b) := inferInstanceAs (Decidable (_ ∧ _))

/-- No `IAC` is escaped, and behind a `WILL` that ends a subnegotiation of option `85` there is a
byte that is not an `IAC`. -/
def Contained : Tracker → List Byte → Prop
  | _, [] => True
  | t, b :: s => ¬ Escaped t b ∧ (OldCompress t b → ∃ c ∈ s.head?, c ≠ 255) ∧
      Contained (advance t b) s

instance Contained.decidable : (t : Tracker) → (s : List Byte) → Decidable (Contained t s)
  | _, [] => isTrue trivial
  | t, b :: s =>
    have := Contained.decidable (advance t b) s
    inferInstanceAs (Decidable (¬ Escaped t b ∧ (OldCompress t b → ∃ c ∈ s.head?, c ≠ 255) ∧
      Contained (advance t b) s))

theorem NoData.inside {evs : List TelnetEvent} (h : NoData evs) (buffer : List Byte) :
    ∀ ev ∈ evs, ev.Inside buffer := by
  intro ev hev
  have plain := h ev hev
  cases ev with
  | data ptr size => simp [TelnetEvent.isData] at plain
  | _ => trivial

/-- What is pending lies inside the buffer, unless `start` has overtaken the position. -/
theorem pending_inside {t : Tracker} {i start : ℕ} {buffer : List Byte} (h : start ≤ i)
    (hi : i ≤ buffer.length) (small : buffer.length < 2 ^ 64) :
    ∀ ev ∈ pending t i start, ev.Inside buffer := by
  intro ev hev
  rw [pending, sizeT_of_le h (by omega)] at hev
  split_ifs at hev
  · obtain rfl := List.mem_singleton.1 hev
    show start + (i - start) ≤ buffer.length
    omega
  · cases hev

/-- The size of a range whose start has overtaken the position wraps around. -/
theorem overtaken_not_inside {i : ℕ} {buffer : List Byte} (small : buffer.length < 2 ^ 64) :
    ¬ (TelnetEvent.data (.buffer (i + 1)) (sizeT i (i + 1))).Inside buffer := by
  have wraps : sizeT i (i + 1) = 2 ^ 64 - 1 := by
    unfold sizeT
    omega
  show ¬ i + 1 + sizeT i (i + 1) ≤ buffer.length
  rw [wraps]
  omega

/-- While `start` is not ahead, a round of the loop raises nothing outside the buffer, unless it
reads an escaped `IAC`. -/
theorem byteStep_inside_iff {t : Tracker} {b : Byte} {i start : ℕ} {buffer : List Byte}
    (h : t.state = .data → start ≤ i) (hi : i < buffer.length) (small : buffer.length < 2 ^ 64) :
    (∀ ev ∈ (byteStep t i start b).2.2, ev.Inside buffer) ↔ ¬ Escaped t b := by
  by_cases esc : Escaped t b
  · obtain ⟨hs, rfl⟩ := esc
    simp [byteStep_escape hs, TelnetEvent.Inside, Escaped, hs]
  rw [iff_true_right esc]
  by_cases hd : t.state = .data
  · by_cases h255 : b = 255
    · subst h255
      have sent : (byteStep t i start 255).2.2 = pending t i start := by
        simp [byteStep_iac hd, pending, hd]
      rw [sent]
      exact pending_inside (h hd) hi.le small
    · simp [byteStep_text hd h255]
  · exact (byteStep_command ⟨hd, esc⟩ i start).1.inside buffer

/-- Behind a round of the loop, `start` is not ahead, unless the byte was a `WILL` of option
`85`. -/
theorem byteStep_start {t : Tracker} {b : Byte} {i start : ℕ} (h : t.state = .data → start ≤ i)
    (plain : ¬ OldCompress t b) (hd' : (advance t b).state = .data) :
    (byteStep t i start b).2.1 ≤ i + 1 := by
  by_cases cmd : InCommand t b
  · have behind := (byteStep_command cmd i start).2 (by rwa [byteStep_fst])
    exact (behind.resolve_right fun old => plain old.1).le
  by_cases hd : t.state = .data
  · by_cases h255 : b = 255
    · subst h255
      simp [advance, byteStep_iac hd] at hd'
    · rw [byteStep_text hd h255]
      exact (h hd).trans (Nat.le_succ i)
  · have esc : t.state = .iac ∧ b = 255 := by
      by_contra no
      exact cmd ⟨hd, no⟩
    obtain ⟨hs, rfl⟩ := esc
    rw [byteStep_escape hs]

theorem byteStep_oldCompress {t : Tracker} {b : Byte} (h : OldCompress t b) (i start : ℕ) :
    byteStep t i start b = ({ t with state := .data }, i + 2, []) := by
  obtain ⟨hs, hopt, rfl⟩ := h
  simp [byteStep, hs, hopt]

/-- In the loop, all data lies inside the buffer exactly if no `start` is overtaken and no `IAC` is
escaped; the second part is about a `start` that is one byte ahead. -/
theorem loop_inside_iff (buffer : List Byte) (small : buffer.length < 2 ^ 64) (rest : List Byte) :
    (∀ t i start, i + rest.length = buffer.length → (t.state = .data → start ≤ i) →
      ((∀ ev ∈ (loop t i start rest).2, ev.Inside buffer) ↔ Contained t rest)) ∧
    ∀ t i, i + rest.length = buffer.length → t.state = .data →
      ((∀ ev ∈ (loop t i (i + 1) rest).2, ev.Inside buffer) ↔
        (∃ c ∈ rest.head?, c ≠ 255) ∧ Contained t rest) := by
  induction rest with
  | nil =>
    constructor
    · intro t i start hlen h
      by_cases hd : t.state = .data
      · simpa [loop, Contained] using pending_inside (h hd) (by simp_all) small
      · simp [loop, Contained, pending_of_state hd]
    · intro t i _ hd
      have bad := @overtaken_not_inside i buffer small
      simpa [loop, pending, hd] using bad
  | cons b rest ih =>
    obtain ⟨ih, ihAhead⟩ := ih
    constructor
    · intro t i start hlen h
      rw [List.length_cons] at hlen
      have len' : i + 1 + rest.length = buffer.length := by omega
      rw [loop, List.forall_mem_append, byteStep_fst, Contained,
        byteStep_inside_iff h (by omega) small]
      refine and_congr_right fun _ => ?_
      by_cases old : OldCompress t b
      · have step := byteStep_oldCompress old i start
        have hd : (advance t b).state = .data := by
          rw [← byteStep_fst t i start, step]
        simp only [old, true_imp_iff, step]
        exact ihAhead (advance t b) (i + 1) len' hd
      · simp only [old, false_imp_iff, true_and]
        exact ih _ _ _ len' (byteStep_start h old)
    · intro t i hlen hd
      rw [List.length_cons] at hlen
      have len' : i + 1 + rest.length = buffer.length := by omega
      have new : ¬ OldCompress t b := fun old => by simp [old.1] at hd
      have text : ¬ Escaped t b := fun esc => by simp [esc.1] at hd
      by_cases h255 : b = 255
      · have bad := @overtaken_not_inside i buffer small
        subst h255
        simp [loop, byteStep_iac hd, bad]
      · have adv : advance t b = t := by rw [advance, byteStep_text hd h255]
        have go := ih t (i + 1) (i + 1) len' fun _ => le_rfl
        simpa [loop, byteStep_text hd h255, Contained, text, new, adv, h255] using go

/-- For every tracker and every buffer, each event about data refers to a range of the buffer,
exactly if no `IAC` is escaped and no `WILL` that ends a subnegotiation of option `85` is the last
byte of the buffer or followed by an `IAC`. -/
theorem data_inside_iff (t : Tracker) (buffer : List Byte) (small : buffer.length < 2 ^ 64) :
    (∀ ev ∈ (telnetRecv t buffer).2, ev.Inside buffer) ↔ Contained t buffer := by
  rw [telnetRecv_eq_loop]
  exact (loop_inside_iff buffer small buffer).1 t 0 0 (Nat.zero_add _) fun _ => le_rfl

/-- Text behind the old subnegotiation of option `85`. -/
def sampleOldCompress : List Byte := [65, 255, 250, 85, 251, 240, 66]

theorem data_inside_sample :
    (telnetRecv (telnetInit [] false []) sampleOldCompress).2 ≠ [] ∧
      ∀ ev ∈ (telnetRecv (telnetInit [] false []) sampleOldCompress).2,
        ev.Inside sampleOldCompress :=
  ⟨by decide, (data_inside_iff (telnetInit [] false []) sampleOldCompress (by decide)).2
    (by decide)⟩

/-- The buffer ends with the `WILL`: the size of the data behind it is `2 ^ 64 - 1`. -/
theorem not_inside_sample :
    ¬ ∀ ev ∈ (telnetRecv (telnetInit [] false []) [255, 250, 85, 251]).2,
      ev.Inside [255, 250, 85, 251] := by
  decide

end Siproxy.Telnet
