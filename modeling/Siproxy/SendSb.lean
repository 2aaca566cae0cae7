import Siproxy.SbBuffer

/-!
# Subnegotiations in parts

`telnet_begin_sb` and `telnet_finish_sb` frame whatever is sent between them, and `telnet_send`
escapes it.

`recvAll_sb`: in any chunks, a receiver that waits for data sees the subnegotiation and what its
decoder makes of the content.
-/

namespace Siproxy.Telnet

open CString Parts

/-- `telnet_begin_sb`. -/
def telnetBeginSb (telopt : Byte) : List TelnetEvent := [.send [255, 250, telopt]]

/-- `telnet_finish_sb`. -/
def telnetFinishSb : List TelnetEvent := telnetIac 240

/-- A subnegotiation that is sent in parts has the bytes of one that is sent at once. -/
theorem sentBytes_sb (telopt : Byte) (parts : List (List Byte)) :
    sentBytes (telnetBeginSb telopt ++ parts.flatMap telnetSend ++ telnetFinishSb) =
      (SendItem.subnegotiation telopt parts.flatten).wire := by
  have content : sentBytes (parts.flatMap telnetSend) = parts.flatten.flatMap escape := by
    induction parts with
    | nil => rfl
    | cons part parts ih =>
      rw [List.flatMap_cons, sentBytes_append, ih, sentBytes_telnetSend, List.flatten_cons,
        List.flatMap_append]
  rw [sentBytes_append, sentBytes_append, content, SendItem.wire_subnegotiation]
  rfl

/-- What a receiver sees of a subnegotiation in any chunks: it is decoded by a tracker that has
stored the content and whose allocations succeed. -/
theorem recvAll_sb {t : Tracker} (h : Ready t) {telopt : Byte} {content : List Byte}
    (ok : (SendItem.subnegotiation telopt content).Ok) :
    ∃ u : Tracker, u.sbTelopt = telopt ∧ u.buffer = content ∧ u.allocOk = true ∧
      ∀ chunks : List (List Byte),
        chunks.flatten = (SendItem.subnegotiation telopt content).wire →
          (recvAll t chunks).2 = (subnegotiate u).2.2.map .other := by
  obtain ⟨begun, quiet, plain⟩ := collecting_start h telopt
  obtain ⟨stored, quiet', plain'⟩ := begun.bytes (by simpa using ok.1) ok.2
  obtain ⟨-, plain'', seen⟩ := stored.stream_finish
  refine ⟨{ (content.flatMap escape).foldl advance ([255, 250, telopt].foldl advance t) with
    state := .data }, stored.sbTelopt, stored.buffer, allocOk_of_heap stored.heap,
    fun chunks sent => ?_⟩
  have whole : chunks.flatten =
      [255, 250, telopt] ++ (content.flatMap escape ++ [255, 240]) := by
    rw [sent, SendItem.wire_subnegotiation]
    rfl
  have small : ∀ c ∈ chunks, c.length < 2 ^ 64 := by
    intro c hc
    have short := (List.sublist_flatten_of_mem hc).length_le
    have twice : (content.flatMap escape).length ≤ 2 * content.length := by
      clear * -
      induction content with
      | nil => rfl
      | cons b content ih =>
        have one : (escape b).length ≤ 2 := by
          unfold escape
          split_ifs <;> simp
        rw [List.flatMap_cons, List.length_append, List.length_cons]
        omega
    have fits := ok.1
    rw [whole, List.length_append, List.length_append] at short
    simp only [List.length_cons, List.length_nil] at short
    omega
  have allPlain : Plain t chunks.flatten := by
    rw [whole]
    exact plain_append.2 ⟨plain, plain_append.2 ⟨plain', plain''⟩⟩
  apply eq_of_merge_others
  rw [merge_recvAll small allPlain, whole, stream_append, stream_append, quiet, quiet', seen,
    List.nil_append, List.nil_append, merge_map_other]

/-! ### With allocations that fail -/

/-- How often a buffer of a size of the table has to grow before it holds `n` bytes. -/
def reallocs (size n : ℕ) : ℕ := bufferSizes.countP fun z => size ≤ z && z < n

/-- The next `n` allocations succeed. -/
def AllocsOk (heap : List Bool) (n : ℕ) : Prop := ∀ ok ∈ heap.take n, ok = true

theorem allocsOk_cons {ok : Bool} {heap : List Bool} {n : ℕ} :
    AllocsOk (ok :: heap) (n + 1) ↔ ok = true ∧ AllocsOk heap n := by
  unfold AllocsOk
  rw [List.take_succ_cons, List.forall_mem_cons]

theorem allocsOk_succ_iff {heap : List Bool} {n : ℕ} :
    AllocsOk heap (n + 1) ↔ AllocsOk heap n ∧ (heap.drop n).headD true = true := by
  unfold AllocsOk
  rw [List.take_add_one, List.forall_mem_append]
  apply and_congr_right'
  rw [List.headD_eq_head?_getD, List.head?_drop]
  cases heap[n]? <;> simp

theorem reallocs_next {size next n : ℕ} (hsize : size ∈ bufferSizes)
    (hnext : nextBufferSize size = some next) (h : size < n) :
    reallocs size n = reallocs next n + 1 := by
  have nexts : ∀ s ∈ bufferSizes, ∀ s' ∈ nextBufferSize s,
      (s, s') ∈ [(0, 512), (512, 2048), (2048, 8192), (8192, 16384)] := by decide
  have hpair := nexts size hsize next hnext
  simp only [List.mem_cons, Prod.mk.injEq, List.not_mem_nil, or_false] at hpair
  rcases hpair with ⟨rfl, rfl⟩ | ⟨rfl, rfl⟩ | ⟨rfl, rfl⟩ | ⟨rfl, rfl⟩ <;>
    simp [reallocs, bufferSizes, List.countP_cons, h]

/-- A byte of a content of `n` bytes: it is stored, and the allocations that are still needed are
the same ones, or there is no memory for it. -/
theorem bufferByte_alloc {u : Tracker} (size : u.bufferSize ∈ bufferSizes)
    (fits : u.buffer.length ≤ u.bufferSize) {n : ℕ} (more : u.buffer.length < n)
    (room : n ≤ 16384) (b : Byte) :
    (∃ size heap, bufferByte u b =
        ({ u with buffer := u.buffer ++ [b], bufferSize := size, heap := heap }, true, []) ∧
      size ∈ bufferSizes ∧ u.buffer.length + 1 ≤ size ∧
      (AllocsOk u.heap (reallocs u.bufferSize n) ↔ AllocsOk heap (reallocs size n)) ∧
      heap.drop (reallocs size n) = u.heap.drop (reallocs u.bufferSize n)) ∨
    (bufferByte u b = (u.alloc, false, [.warning "realloc() failed"]) ∧
      ¬ AllocsOk u.heap (reallocs u.bufferSize n)) := by
  by_cases full : u.buffer.length = u.bufferSize
  · have next : ∃ next ∈ bufferSizes, nextBufferSize u.bufferSize = some next := by
      have small : ∀ n ∈ bufferSizes, n < 16384 →
          ∃ size ∈ bufferSizes, nextBufferSize n = some size := by decide
      exact small _ size (by omega)
    obtain ⟨next, hmem, hnext⟩ := next
    have grows := reallocs_next size hnext (full ▸ more)
    have larger := lt_of_nextBufferSize size hnext
    unfold bufferByte
    rw [if_pos full, hnext, grows]
    cases hheap : u.heap with
    | nil =>
      refine .inl ⟨next, [], ?_, hmem, by omega, ?_, by simp⟩
      · simp [Tracker.allocOk, Tracker.alloc, hheap]
      · simp [AllocsOk]
    | cons ok heap =>
      cases ok with
      | true =>
        refine .inl ⟨next, heap, ?_, hmem, by omega, ?_, rfl⟩
        · simp [Tracker.allocOk, Tracker.alloc, hheap]
        · rw [allocsOk_cons]
          simp
      | false =>
        refine .inr ⟨?_, ?_⟩
        · simp [Tracker.allocOk, hheap]
        · rw [allocsOk_cons]
          simp
  · refine .inl ⟨u.bufferSize, u.heap, ?_, size, by omega, Iff.rfl, rfl⟩
    simp [bufferByte, full]

/-! ### The bytes of a content -/

theorem others_text {u : Tracker} (state : u.state = .data) (bytes : List Byte) :
    (bytes.flatMap escape).foldl advance u = u ∧
      others (stream u (bytes.flatMap escape)) = [] := by
  induction bytes with
  | nil => exact ⟨rfl, rfl⟩
  | cons b bytes ih =>
    obtain ⟨stays, -, seen⟩ := stream_escape state b
    rw [List.flatMap_cons, List.foldl_append, stream_append, others_append, stays, seen]
    exact ih

/-- The receiver is inside a subnegotiation and has stored a part of its content; its allocations
may fail. -/
structure Filling (telopt : Byte) (content : List Byte) (u : Tracker) : Prop where
  state : u.state = .sbData
  sbTelopt : u.sbTelopt = telopt
  buffer : u.buffer = content
  size : u.bufferSize ∈ bufferSizes
  fits : content.length ≤ u.bufferSize

/-- The rest of a content of `n` bytes: if the allocations succeed that it needs, it is stored, and
otherwise there is one warning, and what is left of it is text. -/
theorem Filling.bytes {telopt : Byte} {content more : List Byte} {u : Tracker}
    (h : Filling telopt content u) (new : telopt ≠ 85) {n : ℕ}
    (hn : n = content.length + more.length) (room : n ≤ 16384) :
    (AllocsOk u.heap (reallocs u.bufferSize n) →
      Filling telopt (content ++ more) ((more.flatMap escape).foldl advance u) ∧
        ((more.flatMap escape).foldl advance u).heap = u.heap.drop (reallocs u.bufferSize n) ∧
        others (stream u (more.flatMap escape)) = []) ∧
    (¬ AllocsOk u.heap (reallocs u.bufferSize n) →
      ((more.flatMap escape).foldl advance u).state = .data ∧
        others (stream u (more.flatMap escape)) = [.warning "realloc() failed"]) := by
  induction more generalizing content u with
  | nil =>
    have none : reallocs u.bufferSize n = 0 := by
      have fits := h.fits
      rw [reallocs, List.countP_eq_zero]
      intro z _
      simp only [Bool.and_eq_true, decide_eq_true_eq, not_and]
      rw [List.length_nil] at hn
      omega
    rw [none]
    refine ⟨fun _ => ⟨?_, rfl, rfl⟩, fun failed => absurd ?_ failed⟩
    · rw [List.append_nil]
      exact h
    · simp [AllocsOk]
  | cons b more ih =>
    obtain ⟨state, sbTelopt, buffer, size, fits⟩ := h
    rw [List.length_cons] at hn
    subst sbTelopt buffer
    obtain ⟨next, -, seen⟩ := @escape_step u state b fun h85 => absurd h85 new
    rw [List.flatMap_cons, List.foldl_append, stream_append, others_append, next, seen,
      others_map_other]
    rcases @bufferByte_alloc u size fits n (by omega) room b with
      ⟨size', heap, stored, hsize, hfits, same, rest⟩ | ⟨full, failed⟩
    · rw [stored]
      have filling : Filling u.sbTelopt (u.buffer ++ [b])
          { u with buffer := u.buffer ++ [b], bufferSize := size', heap := heap } :=
        ⟨state, rfl, rfl, hsize, by simpa using hfits⟩
      have after : ({ u with
          buffer := u.buffer ++ [b], bufferSize := size', heap := heap, state := .sbData } :
            Tracker) = { u with buffer := u.buffer ++ [b], bufferSize := size', heap := heap } := by
        rw [← state]
      obtain ⟨ok, bad⟩ := ih filling (by rw [List.length_append, List.length_singleton]; omega)
      simp only [if_true, after, List.nil_append]
      rw [List.append_assoc, rest] at ok
      exact ⟨fun enough => ok (same.1 enough), fun few => bad fun enough => few (same.2 enough)⟩
    · rw [full]
      obtain ⟨stays, quiet⟩ := @others_text { u.alloc with state := .data } rfl more
      simp only [Bool.false_eq_true, if_false, stays, quiet, List.append_nil]
      exact ⟨fun enough => absurd enough failed, fun _ => ⟨trivial, trivial⟩⟩

/-- What a receiver that waits for data raises, apart from data, for a subnegotiation in any chunks:
what its decoder makes of the content, if there is memory for it. -/
theorem others_recvAll_sb {t : Tracker} (state : t.state = .data)
    (size : t.bufferSize ∈ bufferSizes) {telopt : Byte} (new : telopt ≠ 85) {content : List Byte}
    (room : content.length ≤ 16384) {chunks : List (List Byte)}
    (sent : chunks.flatten = (SendItem.subnegotiation telopt content).wire) :
    (AllocsOk t.heap (reallocs t.bufferSize content.length) →
      ∃ u : Tracker, u.sbTelopt = telopt ∧ u.buffer = content ∧
        u.heap = t.heap.drop (reallocs t.bufferSize content.length) ∧
        others (recvAll t chunks).2 = (subnegotiate u).2.2) ∧
    (¬ AllocsOk t.heap (reallocs t.bufferSize content.length) →
      others (recvAll t chunks).2 = [.warning "realloc() failed", .iac 240]) := by
  obtain ⟨begun, quiet, -⟩ := sb_start state telopt
  have filling : Filling telopt []
      { t with sbTelopt := telopt, buffer := [], state := .sbData } :=
    ⟨rfl, rfl, rfl, size, Nat.zero_le _⟩
  obtain ⟨enough, few⟩ := filling.bytes new (Nat.zero_add _).symm room
  have whole : chunks.flatten =
      [255, 250, telopt] ++ (content.flatMap escape ++ [255, 240]) := by
    rw [sent, SendItem.wire_subnegotiation]
    rfl
  rw [others_recvAll, whole, stream_append, stream_append, quiet, begun, List.nil_append,
    others_append]
  generalize hv : (content.flatMap escape).foldl advance _ = v at enough few ⊢
  constructor
  · intro ok
    obtain ⟨stored, heap, quiet'⟩ := enough ok
    obtain ⟨-, -, seen⟩ := sb_finish stored.state
    refine ⟨{ v with state := .data }, stored.sbTelopt, stored.buffer, heap, ?_⟩
    rw [quiet', seen, others_map_other, List.nil_append]
  · intro failed
    obtain ⟨outside, warned⟩ := few failed
    obtain ⟨-, -, seen⟩ := @stream_iac v outside 240 (by simp [SendItem.Ok])
    rw [warned, seen]
    rfl

end Siproxy.Telnet
