import Siproxy.TelnetRecv

/-!
# Sending a telnet stream

The sending half of `telnet.c`: `telnet_iac`, `telnet_negotiate`, `telnet_send` and
`telnet_subnegotiation`; what they send is handed to the event handler as `TELNET_EV_SEND` events.

`recvAll_sent`: a tracker that receives what was sent, in any chunks, raises the events of the items
sent and nothing else, apart from what the decoders add behind a subnegotiation, as long as its
allocations succeed.
-/

namespace Siproxy.Telnet

open CString Parts

/-! ### The functions -/

/-- `telnet_iac`. -/
def telnetIac (cmd : Byte) : List TelnetEvent := [.send [255, cmd]]

/-- `telnet_negotiate`. -/
def telnetNegotiate (t : Tracker) (cmd telopt : Byte) : Tracker × List TelnetEvent :=
  if t.proxy then (t, [.send [255, cmd, telopt]])
  else
    let q := getRfc1143 t telopt
    if cmd = 251 then
      match q.us with
      | .no => settle t telopt .wantYes q.him [sendNegotiate 251 telopt]
      | .wantNo => settle t telopt .wantNoOp q.him []
      | .wantYesOp => settle t telopt .wantYes q.him []
      | _ => (t, [])
    else if cmd = 252 then
      match q.us with
      | .yes => settle t telopt .wantNo q.him [sendNegotiate 252 telopt]
      | .wantYes => settle t telopt .wantYesOp q.him []
      | .wantNoOp => settle t telopt .wantNo q.him []
      | _ => (t, [])
    else if cmd = 253 then
      match q.him with
      | .no => settle t telopt q.us .wantYes [sendNegotiate 253 telopt]
      | .wantNo => settle t telopt q.us .wantNoOp []
      | .wantYesOp => settle t telopt q.us .wantYes []
      | _ => (t, [])
    else if cmd = 254 then
      match q.him with
      | .yes => settle t telopt q.us .wantNo [sendNegotiate 254 telopt]
      | .wantYes => settle t telopt q.us .wantYesOp []
      | .wantNoOp => settle t telopt q.us .wantNo []
      | _ => (t, [])
    else (t, [])

/-- The loop of `telnet_send` at position `i`, with text to be sent from `l` on; the list holds the
bytes from position `i` on. -/
def sendLoop (buffer : List Byte) : ℕ → ℕ → List Byte → List TelnetEvent
  | i, l, [] => if i ≠ l then [.send ((buffer.drop l).take (i - l))] else []
  | i, l, b :: rest =>
    if b = 255 then
      (if i ≠ l then [.send ((buffer.drop l).take (i - l))] else []) ++ telnetIac 255 ++
        sendLoop buffer (i + 1) (i + 1) rest
    else sendLoop buffer (i + 1) l rest

/-- `telnet_send`. -/
def telnetSend (buffer : List Byte) : List TelnetEvent := sendLoop buffer 0 0 buffer

/-- `telnet_subnegotiation`. -/
def telnetSubnegotiation (telopt : Byte) (buffer : List Byte) : List TelnetEvent :=
  .send [255, 250, telopt] :: telnetSend buffer ++ [.send [255, 240]]

/-! ### The bytes sent -/

def TelnetEvent.sent : TelnetEvent → List Byte
  | .send bytes => bytes
  | _ => []

/-- The bytes that events send. -/
def sentBytes (evs : List TelnetEvent) : List Byte := evs.flatMap TelnetEvent.sent

/-- An `IAC` is sent twice. -/
def escape (b : Byte) : List Byte := if b = 255 then [255, 255] else [b]

theorem sentBytes_append (a b : List TelnetEvent) :
    sentBytes (a ++ b) = sentBytes a ++ sentBytes b := List.flatMap_append

theorem sentBytes_prior {pre : List Byte} {l : ℕ} (h : l ≤ pre.length) (rest : List Byte) :
    sentBytes (if pre.length ≠ l then
      [.send (((pre ++ rest).drop l).take (pre.length - l))] else []) = pre.drop l := by
  split_ifs with hne
  · simp [sentBytes, TelnetEvent.sent, List.drop_append_of_le_length h]
  · have : l = pre.length := by omega
    simp [sentBytes, this]

theorem sentBytes_sendLoop {pre rest : List Byte} {l : ℕ} (h : l ≤ pre.length) :
    sentBytes (sendLoop (pre ++ rest) pre.length l rest) =
      pre.drop l ++ rest.flatMap escape := by
  induction rest generalizing pre l with
  | nil => simpa [sendLoop] using sentBytes_prior h []
  | cons b rest ih =>
    have shape : (pre ++ [b]) ++ rest = pre ++ b :: rest := by simp
    have len : (pre ++ [b]).length = pre.length + 1 := by simp
    have next {l : ℕ} (h : l ≤ pre.length + 1) :
        sentBytes (sendLoop (pre ++ b :: rest) (pre.length + 1) l rest) =
          (pre ++ [b]).drop l ++ rest.flatMap escape := by
      have tail := @ih (pre ++ [b]) l (by rwa [len])
      rwa [shape, len] at tail
    rw [sendLoop, List.flatMap_cons]
    by_cases hb : b = 255
    · have all : (pre ++ [b]).drop (pre.length + 1) = [] := by simp
      have esc : sentBytes (telnetIac 255) = escape b := by
        rw [hb]
        rfl
      rw [if_pos hb, sentBytes_append, sentBytes_append, sentBytes_prior h, next le_rfl, all, esc]
      simp
    · rw [if_neg hb, next (h.trans (Nat.le_succ _)), List.drop_append_of_le_length h]
      simp [escape, hb]

/-- `telnet_send` doubles every `IAC`. -/
theorem sentBytes_telnetSend (buffer : List Byte) :
    sentBytes (telnetSend buffer) = buffer.flatMap escape :=
  @sentBytes_sendLoop [] buffer 0 le_rfl

/-! ### Items -/

/-- What an application sends. -/
inductive SendItem where
  | data (bytes : List Byte)
  | subnegotiation (telopt : Byte) (content : List Byte)
  | iac (cmd : Byte)
  deriving DecidableEq

namespace SendItem

/-- The calls that send an item. -/
def send : SendItem → List TelnetEvent
  | .data bytes => telnetSend bytes
  | .subnegotiation telopt content => telnetSubnegotiation telopt content
  | .iac cmd => telnetIac cmd

/-- What a receiver has to see of an item. -/
def expected : SendItem → List Seen
  | .data [] => []
  | .data (b :: bytes) => [.part (b :: bytes)]
  | .subnegotiation telopt content => [.other (.subnegotiation telopt content)]
  | .iac cmd => [.other (.iac cmd)]

/-- The content of a subnegotiation fits the buffer and does not end it early, and a command is
none of those that have an argument. -/
def Ok : SendItem → Prop
  | .data _ => True
  | .subnegotiation telopt content => content.length ≤ 16384 ∧ (telopt = 85 → 251 ∉ content)
  | .iac cmd => cmd ∉ ([250, 251, 252, 253, 254, 255] : List Byte)

instance : DecidablePred Ok
  | .data _ => isTrue trivial
  | .subnegotiation telopt content =>
    inferInstanceAs (Decidable (content.length ≤ 16384 ∧ (telopt = 85 → 251 ∉ content)))
  | .iac cmd => inferInstanceAs (Decidable (cmd ∉ ([250, 251, 252, 253, 254, 255] : List Byte)))

/-- The bytes of an item. -/
def wire (item : SendItem) : List Byte := sentBytes item.send

theorem wire_data (bytes : List Byte) : (data bytes).wire = bytes.flatMap escape :=
  sentBytes_telnetSend bytes

theorem wire_subnegotiation (telopt : Byte) (content : List Byte) :
    (subnegotiation telopt content).wire =
      255 :: 250 :: telopt :: (content.flatMap escape ++ [255, 240]) := by
  show sentBytes (.send [255, 250, telopt] :: telnetSend content ++ [.send [255, 240]]) = _
  rw [sentBytes_append, ← sentBytes_telnetSend]
  rfl

end SendItem

/-! ### What the decoders add -/

/-- The events that only the decoders of subnegotiations raise, and warnings. -/
def TelnetEvent.isTyped : TelnetEvent → Bool
  | .zmp _ | .ttype _ _ | .environ _ _ | .mssp _ | .warning _ => true
  | _ => false

def TelnetEvent.isSubnegotiation : TelnetEvent → Bool
  | .subnegotiation _ _ => true
  | _ => false

/-- The events without the typed ones that follow a `SUBNEGOTIATION`; the flag tells whether they
come behind one. -/
def untyped : Bool → List Seen → List Seen
  | _, [] => []
  | _, .part xs :: s => .part xs :: untyped false s
  | after, .other ev :: s =>
    if after && ev.isTyped then untyped true s
    else .other ev :: untyped ev.isSubnegotiation s

theorem untyped_push_part (after : Bool) (xs : List Byte) (s : List Seen) :
    untyped after (push (.part xs) s) = push (.part xs) (untyped false s) := by
  rcases s with _ | ⟨_ | _, s⟩
  · rfl
  · rfl
  · simp [push, untyped]

theorem untyped_merge (after : Bool) (s : List Seen) :
    untyped after (merge s) = merge (untyped after s) := by
  induction s generalizing after with
  | nil => rfl
  | cons x s ih =>
    cases x with
    | part xs => rw [merge, untyped_push_part, ih, untyped, merge]
    | other ev =>
      simp only [merge, push, untyped]
      split_ifs
      · exact ih true
      · rw [ih]
        rfl

theorem untyped_typed {evs : List TelnetEvent} (h : ∀ ev ∈ evs, ev.isTyped = true)
    (rest : List Seen) : untyped true (evs.map .other ++ rest) = untyped true rest := by
  induction evs with
  | nil => rfl
  | cons ev evs ih =>
    rw [List.forall_mem_cons] at h
    simpa [untyped, h.1] using ih h.2

/-- Behind the `SUBNEGOTIATION` event come typed events only. -/
theorem subnegotiate_events (t : Tracker) :
    ∃ evs, (subnegotiate t).2.2 = .subnegotiation t.sbTelopt t.buffer :: evs ∧
      ∀ ev ∈ evs, ev.isTyped = true := by
  refine ⟨_, rfl, ?_⟩
  split_ifs
  · unfold zmpTelnet
    split_ifs <;> simp [TelnetEvent.isTyped]
  · unfold ttypeTelnet
    repeat' split
    all_goals simp [TelnetEvent.isTyped]
  · unfold environTelnet
    dsimp only
    repeat' split
    all_goals simp [TelnetEvent.isTyped]
  · unfold msspTelnet
    repeat' split
    all_goals simp [TelnetEvent.isTyped]
  · simp

/-- The events that only a negotiation raises. -/
def TelnetEvent.isOption : TelnetEvent → Bool
  | .send _ | .will _ | .wont _ | .do_ _ | .dont _ => true
  | _ => false

/-- None of the events comes from a negotiation. -/
def Calm (evs : List TelnetEvent) : Prop := ∀ ev ∈ evs, ev.isOption = false

theorem subnegotiate_calm (t : Tracker) : Calm (subnegotiate t).2.2 := by
  obtain ⟨evs, raised, typed⟩ := subnegotiate_events t
  rw [raised]
  intro ev hev
  rcases List.mem_cons.1 hev with rfl | hev
  · rfl
  · have := typed ev hev
    cases ev <;> first | rfl | simp [TelnetEvent.isTyped] at this

theorem iacByte_calm (t : Tracker) (b : Byte) : Calm (iacByte t b).2.2 := by
  unfold iacByte
  split_ifs <;> simp [Calm, TelnetEvent.isOption]

theorem bufferByte_calm (t : Tracker) (b : Byte) : Calm (bufferByte t b).2.2 := by
  unfold bufferByte
  repeat' split
  all_goals simp [Calm, TelnetEvent.isOption]

theorem byteStep_calm {t : Tracker} (h : ¬ t.state.IsVerb) (i start : ℕ) (b : Byte) :
    Calm (byteStep t i start b).2.2 := by
  have warn (msg : String) {evs : List TelnetEvent} (rest : Calm evs) :
      Calm (.warning msg :: evs) := List.forall_mem_cons.2 ⟨rfl, rest⟩
  have act := byteStep_act t i start b
  generalize (byteStep t i start b).1 = u, (byteStep t i start b).2.2 = evs at act ⊢
  cases act with
  | text | option | half | oldCompress => exact List.forall_mem_nil _
  | iac _ _ _ data =>
    intro ev hev
    have hdata := data ev hev
    cases ev <;> first | rfl | cases hdata
  | command => exact iacByte_calm t b
  | verb hv => exact absurd hv h
  | content => exact bufferByte_calm t b
  | finish => exact subnegotiate_calm _
  | skipped => exact warn _ (subnegotiate_calm _)
  | unexpected => exact List.forall_mem_append.2 ⟨warn _ (subnegotiate_calm _), iacByte_calm _ b⟩

/-! ### The receiver -/

/-- The receiver waits for an item: its buffer has a size of the table, and its allocations
succeed. -/
structure Ready (t : Tracker) : Prop where
  state : t.state = .data
  size : t.bufferSize ∈ bufferSizes
  heap : ∀ ok ∈ t.heap, ok = true

/-- The receiver is inside a subnegotiation and has stored a part of its content. -/
structure Collecting (telopt : Byte) (content : List Byte) (t : Tracker) : Prop where
  state : t.state = .sbData
  sbTelopt : t.sbTelopt = telopt
  buffer : t.buffer = content
  size : t.bufferSize ∈ bufferSizes
  heap : ∀ ok ∈ t.heap, ok = true

theorem allocOk_of_heap {t : Tracker} (heap : ∀ ok ∈ t.heap, ok = true) : t.allocOk = true := by
  unfold Tracker.allocOk
  cases hheap : t.heap with
  | nil => rfl
  | cons ok rest => exact heap ok (by simp [hheap])

/-- A byte is stored as long as the largest buffer has room for it. -/
theorem bufferByte_stored {t : Tracker} (size : t.bufferSize ∈ bufferSizes)
    (heap : ∀ ok ∈ t.heap, ok = true) (room : t.buffer.length < 16384) (b : Byte) :
    ∃ size heap, bufferByte t b =
        ({ t with buffer := t.buffer ++ [b], bufferSize := size, heap := heap }, true, []) ∧
      size ∈ bufferSizes ∧ ∀ ok ∈ heap, ok = true := by
  have alloc := allocOk_of_heap heap
  have tail : ∀ ok ∈ t.heap.tail, ok = true := fun ok hok => heap ok (List.mem_of_mem_tail hok)
  by_cases full : t.buffer.length = t.bufferSize
  · -- the buffer is full, but not at the end of the table
    have next : ∃ size ∈ bufferSizes, nextBufferSize t.bufferSize = some size := by
      have small : ∀ n ∈ bufferSizes, n < 16384 →
          ∃ size ∈ bufferSizes, nextBufferSize n = some size := by decide
      exact small _ size (full ▸ room)
    obtain ⟨size', hsize', hnext⟩ := next
    refine ⟨size', t.heap.tail, ?_, hsize', tail⟩
    simp [bufferByte, full, hnext, alloc, Tracker.alloc]
  · exact ⟨t.bufferSize, t.heap, by simp [bufferByte, full], size, heap⟩

/-- `_buffer_byte` does not look at the state. -/
theorem bufferByte_withState (t : Tracker) (s : TelnetState) (b : Byte) :
    bufferByte { t with state := s } b =
      ({ (bufferByte t b).1 with state := s }, (bufferByte t b).2) := by
  unfold bufferByte
  dsimp only
  split
  · cases nextBufferSize t.bufferSize with
    | none => rfl
    | some size => cases halloc : t.allocOk <;> simp_all [Tracker.allocOk, Tracker.alloc]
  · rfl

/-- A byte of the content as it is sent, `IAC` as two bytes, goes to `_buffer_byte`. -/
theorem escape_step {t : Tracker} (state : t.state = .sbData) {b : Byte}
    (new : t.sbTelopt = 85 → b ≠ 251) :
    (escape b).foldl advance t =
        { (bufferByte t b).1 with
          state := if (bufferByte t b).2.1 then .sbData else .data } ∧
      Plain t (escape b) ∧ stream t (escape b) = (bufferByte t b).2.2.map .other := by
  -- what `_buffer_byte` does, in both of the states
  have goes {u : Tracker} {c : Byte} (h : Content u c) :
      advance u c = { (bufferByte u c).1 with
          state := if (bufferByte u c).2.1 then .sbData else .data } ∧
        byteSeen u c = (bufferByte u c).2.2.map .other := by
    have inSb : ¬ ((u.state = .data ∧ c ≠ 255) ∨ (u.state = .iac ∧ c = 255)) := by
      rcases h with ⟨hs, -, -⟩ | ⟨hs, -⟩ <;> simp [hs]
    rw [byteSeen, if_neg inSb, advance, byteStep_content h]
    cases (bufferByte u c).2.1 <;> exact ⟨rfl, rfl⟩
  by_cases h255 : b = 255
  · -- two bytes, the second one in the state `SB_DATA_IAC`
    subst h255
    have first : byteStep t 0 0 255 = ({ t with state := .sbDataIac }, 0, []) := by
      simp [byteStep, state]
    have half : advance t 255 = { t with state := .sbDataIac } := congrArg Prod.fst first
    have quiet : byteSeen t 255 = [] := by simp [byteSeen, state, first]
    obtain ⟨next, seen⟩ := @goes { t with state := .sbDataIac } 255 (.inr ⟨rfl, rfl⟩)
    rw [bufferByte_withState] at next seen
    have esc : escape 255 = [255, 255] := rfl
    simp only [esc, List.foldl_cons, List.foldl_nil, stream, Plain, half, next, quiet,
      List.nil_append, List.append_nil]
    refine ⟨trivial, ⟨?_, ?_, trivial⟩, seen⟩
    · exact fun hold => absurd hold.2.2 (by decide)
    · exact fun hold => absurd hold.2.2 (by decide)
  · have notOld : ¬ OldCompress t b := fun hold => new hold.2.1 hold.2.2
    obtain ⟨next, seen⟩ := goes (.inl ⟨state, h255, notOld⟩)
    have esc : escape b = [b] := by simp [escape, h255]
    simp only [esc, List.foldl_cons, List.foldl_nil, stream, Plain, List.append_nil]
    exact ⟨next, ⟨notOld, trivial⟩, seen⟩

theorem Collecting.byte {telopt : Byte} {content : List Byte} {t : Tracker}
    (h : Collecting telopt content t) (room : content.length < 16384) {b : Byte}
    (hb : telopt = 85 → b ≠ 251) :
    Collecting telopt (content ++ [b]) ((escape b).foldl advance t) ∧
      stream t (escape b) = [] ∧ Plain t (escape b) := by
  obtain ⟨state, rfl, rfl, size, heap⟩ := h
  obtain ⟨size', heap', stored, hsize', hheap'⟩ := bufferByte_stored size heap room b
  obtain ⟨next, plain, seen⟩ := escape_step state hb
  rw [next, seen, stored]
  exact ⟨⟨rfl, rfl, rfl, hsize', hheap'⟩, rfl, plain⟩

theorem Collecting.bytes {telopt : Byte} {content more : List Byte} {t : Tracker}
    (h : Collecting telopt content t) (room : content.length + more.length ≤ 16384)
    (hmore : telopt = 85 → 251 ∉ more) :
    Collecting telopt (content ++ more) ((more.flatMap escape).foldl advance t) ∧
      stream t (more.flatMap escape) = [] ∧ Plain t (more.flatMap escape) := by
  induction more generalizing content t with
  | nil => simpa [stream, Plain] using h
  | cons b more ih =>
    rw [List.length_cons] at room
    have hb : telopt = 85 → b ≠ 251 := by
      rintro h85 rfl
      exact hmore h85 List.mem_cons_self
    obtain ⟨stored, quiet, plain⟩ := h.byte (by omega) hb
    obtain ⟨rest, quiet', plain'⟩ := ih stored (by simp; omega) fun h85 hmem =>
      hmore h85 (List.mem_cons_of_mem _ hmem)
    rw [List.flatMap_cons, List.foldl_append, stream_append, plain_append, quiet, quiet']
    refine ⟨?_, rfl, plain, plain'⟩
    simpa using rest

/-- Bytes after which the receiver is ready again and has seen what was expected, apart from typed
events. -/
structure Conveys (t : Tracker) (bytes : List Byte) (expected : List Seen) : Prop where
  ready : Ready (bytes.foldl advance t)
  plain : Plain t bytes
  seen : ∀ after rest, ∃ after',
    merge (untyped after (stream t bytes ++ rest)) = merge (expected ++ untyped after' rest)

theorem conveys_nil {t : Tracker} (h : Ready t) : Conveys t [] [] :=
  ⟨h, trivial, fun after _ => ⟨after, rfl⟩⟩

theorem Conveys.append {t : Tracker} {a b : List Byte} {ea eb : List Seen}
    (ha : Conveys t a ea) (hb : ∀ t', Ready t' → Conveys t' b eb) :
    Conveys t (a ++ b) (ea ++ eb) := by
  have hb := hb _ ha.ready
  refine ⟨?_, plain_append.2 ⟨ha.plain, hb.plain⟩, ?_⟩
  · rw [List.foldl_append]
    exact hb.ready
  · intro after rest
    obtain ⟨after₁, h₁⟩ := ha.seen after (stream (a.foldl advance t) b ++ rest)
    obtain ⟨after₂, h₂⟩ := hb.seen after₁ rest
    refine ⟨after₂, ?_⟩
    rw [stream_append, List.append_assoc, List.append_assoc, h₁]
    exact merge_append_congr rfl h₂

/-- A byte of text arrives, and the receiver is where it was. -/
theorem stream_escape {t : Tracker} (state : t.state = .data) (b : Byte) :
    (escape b).foldl advance t = t ∧ Plain t (escape b) ∧ stream t (escape b) = [.part [b]] := by
  have new (c : Byte) : ¬ OldCompress t c := by simp [OldCompress, state]
  by_cases h255 : b = 255
  · subst h255
    let u : Tracker := { t with state := .iac }
    have first : byteStep t 0 0 255 = (u, 0, []) := by simp [byteStep, state, u]
    have second : byteStep u 0 0 255 = (t, 1, [.data (.byte 255) 1]) := by
      rw [byteStep_escape rfl]
      simp [u, ← state]
    have notOld : ¬ OldCompress u 255 := by simp [OldCompress, u]
    have esc : escape 255 = [255, 255] := rfl
    rw [esc]
    refine ⟨?_, ?_, ?_⟩
    · simp only [List.foldl_cons, List.foldl_nil, advance, first, second]
    · simp only [Plain, advance, first]
      exact ⟨new 255, notOld, trivial⟩
    · simp [stream, byteSeen, advance, first, state, u]
  · have esc : escape b = [b] := by simp [escape, h255]
    have step : advance t b = t := by rw [advance, byteStep_text state h255]
    rw [esc]
    refine ⟨step, ⟨new b, trivial⟩, ?_⟩
    simp [stream, byteSeen, state, h255]

theorem conveys_escape {t : Tracker} (h : Ready t) (b : Byte) :
    Conveys t (escape b) [.part [b]] := by
  obtain ⟨stays, plain, seen⟩ := stream_escape h.state b
  refine ⟨by rwa [stays], plain, fun after rest => ⟨false, ?_⟩⟩
  rw [seen]
  rfl

theorem conveys_text {t : Tracker} (h : Ready t) (bytes : List Byte) :
    Conveys t (bytes.flatMap escape) (bytes.map fun b => .part [b]) := by
  induction bytes generalizing t with
  | nil => exact conveys_nil h
  | cons b bytes ih =>
    rw [List.flatMap_cons, List.map_cons]
    exact (conveys_escape h b).append fun t' ht' => ih ht'

theorem merge_bytes (b : Byte) (bytes : List Byte) (rest : List Seen) :
    merge ((b :: bytes).map (fun b => .part [b]) ++ rest) = merge (.part (b :: bytes) :: rest) := by
  induction bytes generalizing b with
  | nil => rfl
  | cons c bytes ih =>
    have joined := @merge_append_congr _ _ [.part [b]] [.part [b]] _ _ rfl (ih c)
    exact joined.trans (merge_part_append [b] (c :: bytes) rest)

theorem conveys_data {t : Tracker} (h : Ready t) (bytes : List Byte) :
    Conveys t (SendItem.data bytes).wire (SendItem.data bytes).expected := by
  obtain ⟨ready, plain, seen⟩ := conveys_text h bytes
  rw [SendItem.wire_data]
  refine ⟨ready, plain, fun after rest => ?_⟩
  obtain ⟨after', hseen⟩ := seen after rest
  refine ⟨after', hseen.trans ?_⟩
  cases bytes with
  | nil => rfl
  | cons b bytes => exact merge_bytes b bytes _

/-- A command arrives, and the receiver is where it was. -/
theorem stream_iac {t : Tracker} (state : t.state = .data) {cmd : Byte}
    (ok : (SendItem.iac cmd).Ok) :
    [255, cmd].foldl advance t = t ∧ Plain t [255, cmd] ∧
      stream t [255, cmd] = [.other (.iac cmd)] := by
  simp only [SendItem.Ok, List.mem_cons, List.not_mem_nil, or_false, not_or] at ok
  obtain ⟨h250, h251, h252, h253, h254, h255⟩ := ok
  let u : Tracker := { t with state := .iac }
  have first : byteStep t 0 0 255 = (u, 0, []) := by simp [byteStep, state, u]
  have second : byteStep u 0 0 cmd = (t, 1, [.iac cmd]) := by
    simp [byteStep, iacByte, u, h250, h251, h252, h253, h254, h255, ← state]
  refine ⟨?_, ?_, ?_⟩
  · simp only [List.foldl_cons, List.foldl_nil, advance, first, second]
  · simp [Plain, advance, first, OldCompress, state, u]
  · simp [stream, byteSeen, advance, first, second, state, u, h255]

theorem conveys_iac {t : Tracker} (h : Ready t) {cmd : Byte} (ok : (SendItem.iac cmd).Ok) :
    Conveys t (SendItem.iac cmd).wire (SendItem.iac cmd).expected := by
  have wire : (SendItem.iac cmd).wire = [255, cmd] := rfl
  obtain ⟨stays, plain, seen⟩ := stream_iac h.state ok
  rw [wire]
  refine ⟨by rwa [stays], plain, fun after rest => ⟨false, ?_⟩⟩
  rw [seen]
  simp [untyped, TelnetEvent.isTyped, TelnetEvent.isSubnegotiation, SendItem.expected]

/-- Bytes that raise nothing, in front of others. -/
theorem Conveys.of_quiet {t : Tracker} {a b : List Byte} {expected : List Seen}
    (quiet : stream t a = []) (plain : Plain t a)
    (h : Conveys (a.foldl advance t) b expected) : Conveys t (a ++ b) expected := by
  refine ⟨?_, plain_append.2 ⟨plain, h.plain⟩, ?_⟩
  · rw [List.foldl_append]
    exact h.ready
  · rw [stream_append, quiet]
    exact h.seen

theorem sb_start {t : Tracker} (state : t.state = .data) (telopt : Byte) :
    [255, 250, telopt].foldl advance t =
        { t with sbTelopt := telopt, buffer := [], state := .sbData } ∧
      stream t [255, 250, telopt] = [] ∧ Plain t [255, 250, telopt] := by
  have first : byteStep t 0 0 255 = ({ t with state := .iac }, 0, []) := by
    simp [byteStep, state]
  have second : byteStep { t with state := .iac } 0 0 250 = ({ t with state := .sb }, 0, []) := rfl
  have third : byteStep { t with state := .sb } 0 0 telopt =
      ({ t with sbTelopt := telopt, buffer := [], state := .sbData }, 0, []) := rfl
  simp only [List.foldl_cons, List.foldl_nil, stream, Plain, byteSeen, advance, first, second,
    third]
  refine ⟨trivial, ?_, ?_⟩
  · simp [state]
  · simp [OldCompress, state]

theorem collecting_start {t : Tracker} (h : Ready t) (telopt : Byte) :
    Collecting telopt [] ([255, 250, telopt].foldl advance t) ∧
      stream t [255, 250, telopt] = [] ∧ Plain t [255, 250, telopt] := by
  obtain ⟨state, size, heap⟩ := h
  obtain ⟨begun, quiet, plain⟩ := sb_start state telopt
  rw [begun]
  exact ⟨⟨rfl, rfl, rfl, size, heap⟩, quiet, plain⟩

/-- The end of a subnegotiation raises what its decoder does. -/
theorem sb_finish {t : Tracker} (state : t.state = .sbData) :
    [255, 240].foldl advance t = (subnegotiate { t with state := .data }).1 ∧
      Plain t [255, 240] ∧
      stream t [255, 240] = (subnegotiate { t with state := .data }).2.2.map .other := by
  let u : Tracker := { t with state := .sbDataIac }
  let v : Tracker := { t with state := .data }
  have first : byteStep t 0 0 255 = (u, 0, []) := by simp [byteStep, state, u]
  have second : byteStep u 0 0 240 = ((subnegotiate v).1, 1, (subnegotiate v).2.2) := rfl
  refine ⟨?_, ?_, ?_⟩
  · simp only [List.foldl_cons, List.foldl_nil, advance, first, second]
    rfl
  · simp [Plain, advance, first, OldCompress, state, u]
  · have hb : byteSeen t 255 = [] := by simp [byteSeen, state, first]
    have he : byteSeen u 240 = (subnegotiate v).2.2.map .other := by
      rw [byteSeen, if_neg (by simp [u]), second]
    simp only [stream, hb, advance, first, he, List.nil_append, List.append_nil]
    rfl

theorem Collecting.stream_finish {telopt : Byte} {content : List Byte} {t : Tracker}
    (h : Collecting telopt content t) :
    Ready ([255, 240].foldl advance t) ∧ Plain t [255, 240] ∧
      stream t [255, 240] = (subnegotiate { t with state := .data }).2.2.map .other := by
  obtain ⟨state, -, -, size, heap⟩ := h
  obtain ⟨behind, plain, seen⟩ := sb_finish state
  obtain ⟨buffer, heap', frame, sub⟩ := subnegotiate_frame { t with state := .data }
  refine ⟨?_, plain, seen⟩
  rw [behind, frame]
  exact ⟨rfl, size, fun ok hok => heap ok (sub hok)⟩

/-- The end of a subnegotiation raises it, with its content. -/
theorem Collecting.finish {telopt : Byte} {content : List Byte} {t : Tracker}
    (h : Collecting telopt content t) :
    Conveys t [255, 240] [.other (.subnegotiation telopt content)] := by
  obtain ⟨ready, plain, seen⟩ := h.stream_finish
  obtain ⟨-, rfl, rfl, -, -⟩ := h
  obtain ⟨evs, raised, typed⟩ := subnegotiate_events { t with state := .data }
  refine ⟨ready, plain, fun after rest => ⟨true, ?_⟩⟩
  rw [seen, raised, List.map_cons, List.cons_append]
  simp only [untyped, TelnetEvent.isTyped, TelnetEvent.isSubnegotiation, Bool.and_false,
    Bool.false_eq_true, if_false, untyped_typed typed]
  rfl

theorem conveys_subnegotiation {t : Tracker} (h : Ready t) {telopt : Byte} {content : List Byte}
    (ok : (SendItem.subnegotiation telopt content).Ok) :
    Conveys t (SendItem.subnegotiation telopt content).wire
      (SendItem.subnegotiation telopt content).expected := by
  obtain ⟨begun, quiet, plain⟩ := collecting_start h telopt
  obtain ⟨stored, quiet', plain'⟩ := begun.bytes (by simpa using ok.1) ok.2
  have tail := Conveys.of_quiet quiet' plain' stored.finish
  have whole := Conveys.of_quiet quiet plain tail
  rw [SendItem.wire_subnegotiation]
  exact whole

theorem conveys_item {t : Tracker} (h : Ready t) {item : SendItem} (ok : item.Ok) :
    Conveys t item.wire item.expected := by
  cases item with
  | data bytes => exact conveys_data h bytes
  | subnegotiation telopt content => exact conveys_subnegotiation h ok
  | iac cmd => exact conveys_iac h ok

theorem conveys_items {t : Tracker} (h : Ready t) {items : List SendItem}
    (ok : ∀ item ∈ items, item.Ok) :
    Conveys t (items.flatMap SendItem.wire) (items.flatMap SendItem.expected) := by
  induction items generalizing t with
  | nil => exact conveys_nil h
  | cons item items ih =>
    rw [List.forall_mem_cons] at ok
    exact (conveys_item h ok.1).append fun t' ht' => ih ht' ok.2

/-! ### Reachable trackers -/

/-- The trackers that an application can have. -/
inductive Reachable : Tracker → Prop
  | init (telopts : List Telopt) (proxy : Bool) (heap : List Bool) :
      Reachable (telnetInit telopts proxy heap)
  | recv {t : Tracker} (h : Reachable t) (buffer : List Byte) : Reachable (telnetRecv t buffer).1
  | negotiate {t : Tracker} (h : Reachable t) (cmd telopt : Byte) :
      Reachable (telnetNegotiate t cmd telopt).1

theorem negotiate_bufferSize (t : Tracker) (telopt : Byte) :
    (negotiate t telopt).1.bufferSize = t.bufferSize := by
  obtain ⟨q, heap, frame, -⟩ := negotiate_frame t telopt
  rw [frame]

theorem telnetNegotiate_bufferSize (t : Tracker) (cmd telopt : Byte) :
    (telnetNegotiate t cmd telopt).1.bufferSize = t.bufferSize := by
  have settled (us him : QState) (evs : List TelnetEvent) :
      (settle t telopt us him evs).1.bufferSize = t.bufferSize := by
    obtain ⟨q, heap, frame, -⟩ := setRfc1143_frame t telopt us him
    rw [settle, frame]
  unfold telnetNegotiate
  dsimp only
  repeat' split
  all_goals first | rfl | exact settled _ _ _

theorem iacByte_bufferSize (t : Tracker) (byte : Byte) :
    (iacByte t byte).1.bufferSize = t.bufferSize := by
  obtain ⟨s, frame⟩ := iacByte_frame t byte
  rw [frame]

theorem subnegotiate_bufferSize (t : Tracker) :
    (subnegotiate t).1.bufferSize = t.bufferSize := by
  obtain ⟨buffer, heap, frame, -⟩ := subnegotiate_frame t
  rw [frame]

theorem nextBufferSize_mem {n size : ℕ} (h : nextBufferSize n = some size) :
    size ∈ bufferSizes := by
  have mem := List.mem_of_mem_head? h
  exact (List.dropWhile_sublist _).subset (List.mem_of_mem_drop mem)

theorem bufferByte_bufferSize {t : Tracker} (h : t.bufferSize ∈ bufferSizes) (byte : Byte) :
    (bufferByte t byte).1.bufferSize ∈ bufferSizes := by
  unfold bufferByte
  split
  · split
    · exact h
    next size hnext =>
      split
      · exact nextBufferSize_mem hnext
      · exact h
  · exact h

theorem advance_bufferSize {t : Tracker} (h : t.bufferSize ∈ bufferSizes) (b : Byte) :
    (advance t b).bufferSize ∈ bufferSizes := by
  have act := byteStep_act t 0 0 b
  unfold advance
  generalize (byteStep t 0 0 b).1 = u, (byteStep t 0 0 b).2.2 = evs at act ⊢
  cases act with
  | text | iac | option | half | oldCompress => exact h
  | command => rwa [iacByte_bufferSize]
  | verb => rwa [← negotiate_bufferSize t b] at h
  | content => exact bufferByte_bufferSize h b
  | finish | skipped => rwa [subnegotiate_bufferSize]
  | unexpected => rwa [iacByte_bufferSize, subnegotiate_bufferSize]

theorem Reachable.bufferSize {t : Tracker} (h : Reachable t) : t.bufferSize ∈ bufferSizes := by
  induction h with
  | init => exact List.mem_cons_self
  | @recv t _ buffer ih =>
    rw [telnetRecv_fst]
    clear * - ih
    induction buffer generalizing t with
    | nil => exact ih
    | cons b buffer ih' => exact ih' (advance_bufferSize ih b)
  | negotiate _ cmd telopt ih => rwa [telnetNegotiate_bufferSize]

/-- A reachable tracker that waits for data and whose allocations succeed, given the bytes of any
list of items in any chunks, sees the items: data in parts, and each subnegotiation and each command
as it was sent, apart from the typed events and warnings behind a subnegotiation; and it waits for
data again. -/
theorem recvAll_sent (t : Tracker) (reachable : Reachable t) (state : t.state = .data)
    (heap : ∀ ok ∈ t.heap, ok = true) (items : List SendItem) (ok : ∀ item ∈ items, item.Ok)
    (chunks : List (List Byte)) (sent : chunks.flatten = items.flatMap SendItem.wire)
    (small : ∀ c ∈ chunks, c.length < 2 ^ 64) :
    (recvAll t chunks).1.state = .data ∧
      merge (untyped false (recvAll t chunks).2) = merge (items.flatMap SendItem.expected) := by
  have conveyed := conveys_items ⟨state, reachable.bufferSize, heap⟩ ok
  rw [← sent] at conveyed
  constructor
  · rw [recvAll_fst]
    exact conveyed.ready.state
  · obtain ⟨after', seen⟩ := conveyed.seen false []
    rw [← untyped_merge, merge_recvAll small conveyed.plain, untyped_merge]
    simpa [untyped] using seen

/-- Text with an `IAC`, a terminal type and a command, cut inside the terminal type. -/
theorem recvAll_sent_sample :
    merge (untyped false (recvAll (telnetInit [] false [])
        [[65, 255, 255, 255, 250, 24, 0], [88, 255, 240, 255, 241]]).2) =
      [.part [65, 255], .other (.subnegotiation 24 [0, 88]), .other (.iac 241)] := by
  rw [(recvAll_sent (telnetInit [] false []) (.init [] false []) rfl (by decide)
    [.data [65, 255], .subnegotiation 24 [0, 88], .iac 241] (by decide)
    [[65, 255, 255, 255, 250, 24, 0], [88, 255, 240, 255, 241]] (by decide) (by decide)).2]
  decide

/-- A receiver without memory for the content of a subnegotiation sees a warning, no subnegotiation,
and then a command that was not sent. -/
theorem recvAll_not_sent_sample :
    Reachable (telnetInit [] false [false]) ∧ (telnetInit [] false [false]).state = .data ∧
      (SendItem.subnegotiation 24 [0]).Ok ∧
      merge (untyped false (recvAll (telnetInit [] false [false])
        [(SendItem.subnegotiation 24 [0]).wire]).2) =
          [.other (.warning "realloc() failed"), .other (.iac 240)] ∧
      merge (untyped false (recvAll (telnetInit [] false [false])
        [(SendItem.subnegotiation 24 [0]).wire]).2) ≠
          merge (SendItem.subnegotiation 24 [0]).expected :=
  ⟨.init [] false [false], rfl, by decide, by decide, by decide⟩

end Siproxy.Telnet
