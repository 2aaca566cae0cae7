import Siproxy.Lib.Keyed
import Siproxy.Lib.Machine
import Siproxy.Mqtt.Packet

/-!
# Reading packets from sockets

`MQTTPacket_Factory` reads a packet from a socket that does not block.  Where nothing more has come
it gives up, and `SocketBuffer.c` keeps what has been read: the bytes of the header, which the next
attempt goes through again, and a part of the rest.  One buffer is at hand for any socket, and moves
to a list of its own when a packet is not complete.

`reader_exact`: with any number of sockets, whatever comes at any time and however often reading is
tried, the packets that are returned for a connection are those of the stream of its bytes.  Where
reading has failed, the socket stays open until the disconnection that is queued then is processed;
what is read before that, on any socket, need not be in the stream.
-/

namespace Siproxy.Mqtt

open CString Machine

/-! ### `SocketBuffer.c` -/

/-- `socket_queue`; `headerlen` is the length of `fixedHeader`, and `datalen` that of `buf`. -/
structure SocketQueue where
  socket : ℤ
  index : ℕ
  fixedHeader : List Byte
  buf : List Byte
  deriving DecidableEq

/-- `def_queue` and `queues`. -/
structure Buffers where
  defQueue : SocketQueue
  queues : List SocketQueue
  deriving DecidableEq

/-- `SocketBuffer_newDefQ`. -/
def newDefQ : SocketQueue := ⟨0, 0, [], []⟩

/-- `SocketBuffer_initialize`. -/
def initBuffers : Buffers := ⟨newDefQ, []⟩

/-- `ListFindItem` with `socketcompare`. -/
def Buffers.find (s : Buffers) (socket : ℤ) : Option SocketQueue :=
  Keyed.get SocketQueue.socket s.queues socket

def Buffers.modify (s : Buffers) (socket : ℤ) (f : SocketQueue → SocketQueue) : Buffers :=
  { s with queues := Keyed.modify SocketQueue.socket s.queues socket f }

/-- A byte of the header is read again. -/
def SocketQueue.advance (queue : SocketQueue) : SocketQueue :=
  { queue with index := queue.index + 1 }

/-- `SocketBuffer_getQueuedChar`. -/
def getQueuedChar (s : Buffers) (socket : ℤ) : Except Rc Byte × Buffers :=
  match s.find socket with
  | none => (.error .interrupted, s)
  | some queue =>
    match queue.fixedHeader[queue.index]? with
    | some c => (.ok c, s.modify socket SocketQueue.advance)
    | none => if 4 < queue.index then (.error .socketError, s) else (.error .interrupted, s)

/-- The end of `SocketBuffer_queueChar`. -/
def SocketQueue.store (c : Byte) (queue : SocketQueue) : SocketQueue :=
  if 4 < queue.index then queue
  else
    { queue with
      fixedHeader := queue.fixedHeader.take queue.index ++ [c], index := queue.index + 1 }

/-- `SocketBuffer_queueChar`. -/
def queueChar (s : Buffers) (socket : ℤ) (c : Byte) : Buffers :=
  match s.find socket with
  | some _ => s.modify socket (SocketQueue.store c)
  | none =>
    if s.defQueue.socket = 0 then
      { s with
        defQueue := { s.defQueue with socket := socket, index := 0, buf := [] }.store c }
    else if s.defQueue.socket ≠ socket then s
    else { s with defQueue := s.defQueue.store c }

/-- The data that was read is kept, and the header is read again. -/
def SocketQueue.keep (data : List Byte) (queue : SocketQueue) : SocketQueue :=
  { queue with index := 0, buf := data }

/-- `SocketBuffer_interrupted`, with the data that was read. -/
def interrupted (s : Buffers) (socket : ℤ) (data : List Byte) : Buffers :=
  match s.find socket with
  | some _ => s.modify socket (SocketQueue.keep data)
  | none => { defQueue := newDefQ, queues := s.queues ++ [s.defQueue.keep data] }

/-- `SocketBuffer_complete`: the buffer of the socket is the one at hand again. -/
def complete (s : Buffers) (socket : ℤ) : Buffers :=
  match s.find socket with
  | some _ => { defQueue := newDefQ, queues := Keyed.erase SocketQueue.socket s.queues socket }
  | none => { s with defQueue := newDefQ }

/-- `SocketBuffer_cleanup`. -/
def cleanupBuffers (s : Buffers) (socket : ℤ) : Buffers where
  defQueue := if s.defQueue.socket = socket then newDefQ else s.defQueue
  queues :=
    match s.find socket with
    | some _ => Keyed.erase SocketQueue.socket s.queues socket
    | none => s.queues

/-! ### Reading from a socket -/

/-- The buffers, and what has come on the sockets and has not been read. -/
structure Net where
  buffers : Buffers
  arrived : ℤ → List Byte
  ended : ℤ → Bool

/-- What `recv` returns. -/
inductive Recv where
  | got (bytes : List Byte)
  | again
  /-- An error, or the end of the stream. -/
  | ended
  deriving DecidableEq

/-- `recv`, on a socket that does not block. -/
def Net.recv (s : Net) (socket : ℤ) (n : ℕ) : Recv :=
  match (s.arrived socket).take n with
  | [] => if s.arrived socket = [] ∧ s.ended socket = false then .again else .ended
  | bytes => .got bytes

/-- What `recv` has read is gone. -/
def Net.take (s : Net) (socket : ℤ) (n : ℕ) (buffers : Buffers) : Net :=
  { s with
    buffers := buffers
    arrived := Function.update s.arrived socket ((s.arrived socket).drop n) }

/-- `Socket_getch`. -/
def getch (socket : ℤ) (s : Net) : Except Rc Byte × Net :=
  match getQueuedChar s.buffers socket with
  | (.error .interrupted, _) =>
    match s.recv socket 1 with
    | .again => (.error .interrupted, { s with buffers := interrupted s.buffers socket [] })
    | .ended => (.error .socketError, s)
    | .got bytes =>
      match bytes with
      | [] => (.error .socketError, s)
      | c :: _ => (.ok c, s.take socket 1 (queueChar s.buffers socket c))
  | (r, buffers) => (r, { s with buffers := buffers })

/-- `SocketBuffer_getQueuedData`: the data that was read before. -/
def getQueuedData (s : Buffers) (socket : ℤ) : List Byte :=
  match s.find socket with
  | some queue => queue.buf
  | none => []

/-- `Socket_getdata`, from the data on that is there. -/
def gotData (s : Net) (socket : ℤ) (bytes n : ℕ) (data : List Byte) :
    Except Rc (List Byte) × Net :=
  if data.length = bytes then (.ok data, s.take socket n (complete s.buffers socket))
  else (.error .interrupted, s.take socket n (interrupted s.buffers socket data))

/-- `Socket_getdata`. -/
def getdata (s : Net) (socket : ℤ) (bytes : ℕ) : Except Rc (List Byte) × Net :=
  if bytes = 0 then (.ok [], { s with buffers := complete s.buffers socket })
  else
    let queued := getQueuedData s.buffers socket
    match s.recv socket (bytes - queued.length) with
    | .ended => (.error .socketError, s)
    | .again => gotData s socket bytes 0 queued
    | .got more => gotData s socket bytes more.length (queued ++ more)

/-- `MQTTPacket_Factory`; there is no result where it reads outside the packet. -/
def factory (s : Net) (socket : ℤ) : Option (Except Rc Built × Net) :=
  match getch socket s with
  | (.error rc, s) => some (.error rc, s)
  | (.ok header, s) =>
    match decode (getch socket) s with
    | (.error rc, s) => some (.error rc, s)
    | (.ok remainingLength, s) =>
      match getdata s socket remainingLength with
      | (.error rc, s) => some (.error rc, s)
      | (.ok data, s) => (build header data).map fun built => (.ok built, s)

/-- `Socket_close`, and nothing has come on the next connection with the number. -/
def Net.close (s : Net) (socket : ℤ) : Net where
  buffers := cleanupBuffers s.buffers socket
  arrived := Function.update s.arrived socket []
  ended := Function.update s.ended socket false

/-- Some bytes come. -/
def Net.come (s : Net) (socket : ℤ) (bytes : List Byte) : Net :=
  { s with arrived := Function.update s.arrived socket (s.arrived socket ++ bytes) }

def Net.hangUp (s : Net) (socket : ℤ) : Net :=
  { s with ended := Function.update s.ended socket true }

/-! ### Runs -/

/-- `disconnecting` are the sockets for which `MQTTAsync_disconnect_internal` has queued a
disconnection. -/
structure Sockets where
  net : Net
  disconnecting : List ℤ

inductive ReaderOp where
  | arrive (socket : ℤ) (bytes : List Byte)
  /-- The other end closes the connection, or it fails. -/
  | hangUp (socket : ℤ)
  /-- `MQTTPacket_Factory`; a disconnection is queued if that ends in `SOCKET_ERROR`. -/
  | read (socket : ℤ)
  /-- `MQTTAsync_closeOnly`. -/
  | close (socket : ℤ)

inductive ReaderOut where
  | came (socket : ℤ) (bytes : List Byte)
  | returned (socket : ℤ) (built : Built)
  | closed (socket : ℤ)
  deriving DecidableEq

/-- One step; an error is a packet that is read outside its end.  What comes while a packet is read
could as well have come before. -/
def readerStep (s : Sockets) : ReaderOp → Except Unit (Sockets × List ReaderOut)
  | .arrive socket bytes => .ok ({ s with net := s.net.come socket bytes }, [.came socket bytes])
  | .hangUp socket => .ok ({ s with net := s.net.hangUp socket }, [])
  | .read socket =>
    match factory s.net socket with
    | none => .error ()
    | some (.ok built, net) => .ok ({ s with net := net }, [.returned socket built])
    | some (.error .interrupted, net) => .ok ({ s with net := net }, [])
    | some (.error .socketError, net) => .ok (⟨net, socket :: s.disconnecting⟩, [])
  | .close socket =>
    .ok (⟨s.net.close socket, s.disconnecting.filter (· ≠ socket)⟩, [.closed socket])

def initNet : Net := ⟨initBuffers, fun _ => [], fun _ => false⟩

def initSockets : Sockets := ⟨initNet, []⟩

abbrev ReaderMove := Move Sockets ReaderOp ReaderOut

abbrev readerTrace (ops : List ReaderOp) : List ReaderMove := trace readerStep initSockets ops

/-- Nothing is read while a disconnection is queued. -/
def ReaderOp.Prompt (s : Sockets) : ReaderOp → Prop
  | .read _ => s.disconnecting = []
  | _ => True

instance (s : Sockets) (op : ReaderOp) : Decidable (op.Prompt s) :=
  match op with
  | .read _ => inferInstanceAs (Decidable (s.disconnecting = []))
  | .arrive _ _ | .hangUp _ | .close _ => inferInstanceAs (Decidable True)

/-- What has come on the connection that a socket is used for, and the packets that were returned
for it. -/
structure Conn where
  came : List Byte
  returned : List Built
  deriving DecidableEq

def Conn.see (socket : ℤ) (c : Conn) : ReaderOut → Conn
  | .came s bytes => if s = socket then { c with came := c.came ++ bytes } else c
  | .returned s built => if s = socket then { c with returned := c.returned ++ [built] } else c
  | .closed s => if s = socket then ⟨[], []⟩ else c

def connOf (socket : ℤ) (tr : List ReaderMove) : Conn :=
  (tr.flatMap Move.outs).foldl (Conn.see socket) ⟨[], []⟩

/-- The packets of a stream of bytes. -/
def builtOf (bytes : List Byte) : List (Option Built) :=
  (packets.frames bytes).map fun f => build f.1 f.2

theorem connOf_concat (socket : ℤ) (tr : List ReaderMove) (m : ReaderMove) :
    connOf socket (tr ++ [m]) = m.outs.foldl (Conn.see socket) (connOf socket tr) := by
  simp [connOf]

/-! ### While a packet is read -/

/-- What a socket has to do with the buffers: the bytes of the header that were read in this attempt,
those that were read before and are still to be gone through, and the data that was read before. -/
inductive Reading (s : Buffers) (socket : ℤ) (seen replay data : List Byte) : Prop
  | queued (queue : SocketQueue) (found : s.find socket = some queue)
      (index : queue.index = seen.length) (header : queue.fixedHeader = seen ++ replay)
      (buf : queue.buf = data) (free : s.defQueue.socket = 0)
  | fresh (absent : s.find socket = none) (free : s.defQueue.socket = 0) (none : seen = [])
      (noReplay : replay = []) (noData : data = [])
  | started (absent : s.find socket = none) (mine : s.defQueue.socket = socket)
      (index : s.defQueue.index = seen.length) (header : s.defQueue.fixedHeader = seen)
      (noReplay : replay = []) (noData : data = [])

/-- What is kept for a socket between the attempts. -/
inductive Stored (s : Buffers) (socket : ℤ) (header data : List Byte) : Prop
  | queued (queue : SocketQueue) (found : s.find socket = some queue) (index : queue.index = 0)
      (fixedHeader : queue.fixedHeader = header) (buf : queue.buf = data)
      (free : s.defQueue.socket = 0)
  | none (absent : s.find socket = none) (free : s.defQueue.socket = 0) (noHeader : header = [])
      (noData : data = [])

/-- Nothing happens to the other sockets. -/
structure Kept (socket : ℤ) (s s' : Buffers) : Prop where
  find : ∀ k ≠ 0, k ≠ socket → s'.find k = s.find k
  once : ∀ k ≠ 0, (s.queues.map SocketQueue.socket).count k ≤ 1 →
    (s'.queues.map SocketQueue.socket).count k ≤ 1

theorem Kept.refl (socket : ℤ) (s : Buffers) : Kept socket s s := ⟨fun _ _ _ => rfl, fun _ _ h => h⟩

theorem Kept.trans {socket : ℤ} {s t u : Buffers} (h : Kept socket s t) (h' : Kept socket t u) :
    Kept socket s u where
  find := fun k hk hne => (h'.find k hk hne).trans (h.find k hk hne)
  once := fun k hk one => h'.once k hk (h.once k hk one)

theorem Kept.defQueue (socket : ℤ) (s : Buffers) (queue : SocketQueue) :
    Kept socket s { s with defQueue := queue } := ⟨fun _ _ _ => rfl, fun _ _ h => h⟩

theorem Kept.modify {f : SocketQueue → SocketQueue} (same : ∀ q, (f q).socket = q.socket)
    (socket : ℤ) (s : Buffers) : Kept socket s (s.modify socket f) where
  find := by
    intro k _ hne
    unfold Buffers.find Buffers.modify
    rw [Keyed.get_modify same, if_neg hne]
  once := by
    intro k _ one
    unfold Buffers.modify
    rwa [Keyed.map_key_modify same]

theorem find_modify {f : SocketQueue → SocketQueue} (same : ∀ q, (f q).socket = q.socket)
    {s : Buffers} {socket : ℤ} {queue : SocketQueue} (found : s.find socket = some queue) :
    (s.modify socket f).find socket = some (f queue) := by
  unfold Buffers.find Buffers.modify at *
  rw [Keyed.get_modify same, if_pos rfl, found, Option.map_some]

theorem Kept.erase (socket : ℤ) (s : Buffers) (queue : SocketQueue) :
    Kept socket s ⟨queue, Keyed.erase SocketQueue.socket s.queues socket⟩ where
  find := fun k _ hne => Keyed.get_erase_ne hne s.queues
  once := by
    intro k _ one
    rw [Keyed.map_key_erase]
    exact (List.Sublist.count_le k List.erase_sublist).trans one

theorem advance_socket (q : SocketQueue) : q.advance.socket = q.socket := rfl

theorem store_socket (c : Byte) (q : SocketQueue) : (q.store c).socket = q.socket := by
  unfold SocketQueue.store
  split_ifs <;> rfl

theorem store_of_room {c : Byte} {q : SocketQueue} (room : ¬ 4 < q.index) :
    q.store c = { q with fixedHeader := q.fixedHeader.take q.index ++ [c], index := q.index + 1 } :=
  if_neg room

theorem keep_socket (data : List Byte) (q : SocketQueue) : (q.keep data).socket = q.socket := rfl

section Attempt

variable {s : Buffers} {socket : ℤ} {seen replay data : List Byte}

/-- The buffer at hand is used for no other socket. -/
theorem Reading.mine (h : Reading s socket seen replay data) :
    s.defQueue.socket = 0 ∨ s.defQueue.socket = socket := by
  cases h with
  | queued _ _ _ _ _ free => exact .inl free
  | fresh _ free => exact .inl free
  | started _ mine => exact .inr mine

/-- A byte that was read before is gone through again. -/
theorem Reading.replayed {c : Byte} (h : Reading s socket seen (c :: replay) data) :
    ∃ s', getQueuedChar s socket = (.ok c, s') ∧
      Reading s' socket (seen ++ [c]) replay data ∧ Kept socket s s' := by
  cases h with
  | queued queue found index header buf free =>
    have char : queue.fixedHeader[queue.index]? = some c := by
      rw [header, index]
      simp
    refine ⟨s.modify socket SocketQueue.advance, ?_, ?_, .modify advance_socket socket s⟩
    · simp only [getQueuedChar, found, char]
    · refine .queued queue.advance (find_modify advance_socket found) ?_ ?_ buf free
      · simp [SocketQueue.advance, index]
      · simp [SocketQueue.advance, header]
  | fresh _ _ _ noReplay => cases noReplay
  | started _ _ _ _ noReplay => cases noReplay

theorem Reading.notReplayed (h : Reading s socket seen [] data) (short : seen.length ≤ 4) :
    getQueuedChar s socket = (.error .interrupted, s) := by
  cases h with
  | queued queue found index header buf free =>
    have char : queue.fixedHeader[queue.index]? = none := by
      rw [header, index]
      simp
    have room : ¬ 4 < queue.index := by omega
    simp only [getQueuedChar, found, char, if_neg room]
  | fresh absent => simp only [getQueuedChar, absent]
  | started absent => simp only [getQueuedChar, absent]

theorem Reading.stored (h : Reading s socket seen [] data) (short : seen.length ≤ 4)
    (positive : socket ≠ 0) (c : Byte) :
    Reading (queueChar s socket c) socket (seen ++ [c]) [] data ∧
      Kept socket s (queueChar s socket c) := by
  cases h with
  | queued queue found index header buf free =>
    have room : ¬ 4 < queue.index := by omega
    have taken : queue.fixedHeader.take queue.index = seen := by
      rw [header, index]
      simp
    simp only [queueChar, found]
    refine ⟨.queued (queue.store c) (find_modify (store_socket c) found) ?_ ?_ ?_ free,
      .modify (store_socket c) socket s⟩
    · simp [store_of_room room, index]
    · simp [store_of_room room, taken]
    · simp [store_of_room room, buf]
  | fresh absent free none noReplay noData =>
    subst none
    simp only [queueChar, absent, free, if_true]
    refine ⟨.started absent ?_ ?_ ?_ rfl noData, .defQueue socket s _⟩
    · exact store_socket c _
    · simp [SocketQueue.store]
    · simp [SocketQueue.store]
  | started absent mine index header noReplay noData =>
    have room : ¬ 4 < s.defQueue.index := by omega
    have used : s.defQueue.socket ≠ 0 := by rwa [mine]
    simp only [queueChar, absent, if_neg used, if_neg (not_not.2 mine)]
    refine ⟨.started absent ?_ ?_ ?_ rfl noData, .defQueue socket s _⟩
    · rw [store_socket, mine]
    · simp [store_of_room room, index]
    · simp [store_of_room room, index, header]

theorem Kept.append {queue : SocketQueue} (absent : s.find socket = none)
    (mine : queue.socket = 0 ∨ queue.socket = socket) :
    Kept socket s ⟨newDefQ, s.queues ++ [queue]⟩ where
  find := by
    intro k hk hne
    have apart : queue.socket ≠ k := by
      rcases mine with zero | mine
      · rw [zero]
        exact hk.symm
      · rw [mine]
        exact hne.symm
    unfold Buffers.find
    rw [Keyed.get_append]
    simp [Keyed.get, apart]
  once := by
    intro k hk one
    rw [List.map_append, List.count_append]
    by_cases same : queue.socket = k
    · have before : (s.queues.map SocketQueue.socket).count k = 0 := by
        have mine : queue.socket = socket := mine.resolve_left fun zero => hk (same.symm.trans zero)
        rw [List.count_eq_zero, ← same, mine]
        exact Keyed.get_none_iff_notMem.1 absent
      rw [before, List.map_singleton]
      exact (Nat.zero_add _).le.trans List.count_le_length
    · have apart : [queue].map SocketQueue.socket = [queue.socket] := rfl
      rw [apart, List.count_singleton]
      simpa [same] using one

theorem find_append {queue : SocketQueue} (absent : s.find socket = none) :
    Buffers.find ⟨newDefQ, s.queues ++ [queue]⟩ socket =
      if queue.socket = socket then some queue else none := by
  unfold Buffers.find at *
  rw [Keyed.get_append, absent]
  simp [Keyed.get]

theorem Reading.interrupted (h : Reading s socket seen [] data) (positive : socket ≠ 0)
    (all : List Byte) (nothing : seen = [] → all = []) :
    Stored (interrupted s socket all) socket seen all ∧
      Kept socket s (interrupted s socket all) := by
  cases h with
  | queued queue found index header buf free =>
    simp only [Mqtt.interrupted, found]
    refine ⟨.queued (queue.keep all) (find_modify (keep_socket _) found) rfl ?_ rfl free,
      .modify (keep_socket _) socket s⟩
    simpa [SocketQueue.keep] using header
  | fresh absent free none noReplay noData =>
    simp only [Mqtt.interrupted, absent]
    refine ⟨.none ?_ rfl none (nothing none), .append absent (.inl free)⟩
    rw [find_append absent]
    exact if_neg fun heq => positive (heq.symm.trans free)
  | started absent mine index header noReplay noData =>
    simp only [Mqtt.interrupted, absent]
    refine ⟨.queued (s.defQueue.keep all) ?_ rfl header rfl rfl, .append absent (.inr mine)⟩
    rw [find_append absent]
    exact if_pos mine

theorem Reading.complete (h : Reading s socket seen replay data)
    (once : (s.queues.map SocketQueue.socket).count socket ≤ 1) :
    Stored (complete s socket) socket [] [] ∧ Kept socket s (complete s socket) := by
  have absentCase (absent : s.find socket = none) :
      Stored (Mqtt.complete s socket) socket [] [] ∧ Kept socket s (Mqtt.complete s socket) := by
    simp only [Mqtt.complete, absent]
    exact ⟨.none absent rfl rfl rfl, .defQueue socket s newDefQ⟩
  cases h with
  | queued queue found =>
    simp only [Mqtt.complete, found]
    exact ⟨.none (Keyed.get_erase_self once) rfl rfl rfl, .erase socket s newDefQ⟩
  | fresh absent => exact absentCase absent
  | started absent => exact absentCase absent

theorem Stored.reading (h : Stored s socket seen data) : Reading s socket [] seen data := by
  cases h with
  | queued queue found index header buf free => exact .queued queue found index header buf free
  | none absent free noHeader noData => exact .fresh absent free rfl noHeader noData

theorem Reading.cleanup (h : Reading s socket seen replay data)
    (once : (s.queues.map SocketQueue.socket).count socket ≤ 1) :
    Stored (cleanupBuffers s socket) socket [] [] ∧ Kept socket s (cleanupBuffers s socket) := by
  have free : (cleanupBuffers s socket).defQueue.socket = 0 := by
    unfold cleanupBuffers
    dsimp only
    split_ifs with mine
    · rfl
    · exact h.mine.resolve_right mine
  cases found : s.find socket with
  | none =>
    have same : (cleanupBuffers s socket).queues = s.queues := by simp [cleanupBuffers, found]
    refine ⟨.none ?_ free rfl rfl, ?_⟩
    · unfold Buffers.find at *
      rwa [same]
    · exact ⟨fun k _ _ => by unfold Buffers.find; rw [same], fun k _ one => by rwa [same]⟩
  | some queue =>
    have erased : (cleanupBuffers s socket).queues =
        Keyed.erase SocketQueue.socket s.queues socket := by simp [cleanupBuffers, found]
    have kept := Kept.erase socket s newDefQ
    refine ⟨.none ?_ free rfl rfl, ?_⟩
    · unfold Buffers.find
      rw [erased]
      exact Keyed.get_erase_self once
    · refine ⟨fun k hk hne => ?_, fun k hk one => ?_⟩
      · have find := kept.find k hk hne
        unfold Buffers.find at *
        rwa [erased]
      · rw [erased]
        exact kept.once k hk one

end Attempt

/-! ### One attempt -/

/-- Nothing happens to the other sockets, and nothing comes. -/
structure Net.Kept (socket : ℤ) (s s' : Net) : Prop where
  buffers : Mqtt.Kept socket s.buffers s'.buffers
  arrived : ∀ k ≠ socket, s'.arrived k = s.arrived k
  ended : s'.ended = s.ended

theorem Net.Kept.refl (socket : ℤ) (s : Net) : s.Kept socket s :=
  ⟨.refl socket s.buffers, fun _ _ => rfl, rfl⟩

theorem Net.Kept.trans {socket : ℤ} {s t u : Net} (h : s.Kept socket t) (h' : t.Kept socket u) :
    s.Kept socket u where
  buffers := h.buffers.trans h'.buffers
  arrived := fun k hk => (h'.arrived k hk).trans (h.arrived k hk)
  ended := h'.ended.trans h.ended

theorem Net.Kept.take {socket : ℤ} {s : Net} {buffers : Buffers}
    (h : Mqtt.Kept socket s.buffers buffers) (n : ℕ) : s.Kept socket (s.take socket n buffers) :=
  ⟨h, fun _ hk => Function.update_of_ne hk _ _, rfl⟩

theorem Net.arrived_take (s : Net) (socket : ℤ) (n : ℕ) (buffers : Buffers) :
    (s.take socket n buffers).arrived socket = (s.arrived socket).drop n :=
  Function.update_self _ _ _

section Attempt

variable {s : Net} {socket : ℤ} {seen replay data : List Byte}

/-- A byte is read: one that was read before, or the next one that has come. -/
theorem getch_byte {c : Byte} {rest : List Byte}
    (h : Reading s.buffers socket seen replay data) (short : seen.length ≤ 4)
    (positive : socket ≠ 0) (ahead : replay ++ s.arrived socket = c :: rest) :
    ∃ s', getch socket s = (.ok c, s') ∧
      Reading s'.buffers socket (seen ++ [c]) (replay.drop 1) data ∧ s.Kept socket s' ∧
      s'.arrived socket = (s.arrived socket).drop (1 - replay.length) := by
  cases replay with
  | cons c' replay =>
    obtain ⟨rfl, -⟩ := List.cons.inj ahead
    obtain ⟨buffers, queued, reading, kept⟩ := h.replayed
    refine ⟨{ s with buffers := buffers }, ?_, reading, ⟨kept, fun _ _ => rfl, rfl⟩, ?_⟩
    · simp only [getch, queued]
    · simp
  | nil =>
    rw [List.nil_append] at ahead
    have queued := h.notReplayed short
    obtain ⟨reading, kept⟩ := h.stored short positive c
    have received : s.recv socket 1 = .got [c] := by simp [Net.recv, ahead]
    refine ⟨s.take socket 1 (queueChar s.buffers socket c), ?_, reading, .take kept 1,
      s.arrived_take socket 1 _⟩
    simp only [getch, queued, received]

theorem getch_nothing (h : Reading s.buffers socket seen replay data) (short : seen.length ≤ 4)
    (positive : socket ≠ 0) (ahead : replay ++ s.arrived socket = []) :
    (s.ended socket = true ∧ getch socket s = (.error .socketError, s)) ∨
      ∃ s', s.ended socket = false ∧ getch socket s = (.error .interrupted, s') ∧
        Stored s'.buffers socket seen [] ∧ s.Kept socket s' ∧ s'.arrived socket = [] := by
  obtain ⟨rfl, none⟩ := List.append_eq_nil_iff.1 ahead
  have queued := h.notReplayed short
  cases ended : s.ended socket with
  | true =>
    have received : s.recv socket 1 = .ended := by simp [Net.recv, none, ended]
    exact .inl ⟨rfl, by simp only [getch, queued, received]⟩
  | false =>
    have received : s.recv socket 1 = .again := by simp [Net.recv, none, ended]
    obtain ⟨stored, kept⟩ := h.interrupted positive [] fun _ => rfl
    refine .inr ⟨{ s with buffers := interrupted s.buffers socket [] }, rfl, ?_, stored,
      ⟨kept, fun _ _ => rfl, rfl⟩, none⟩
    simp only [getch, queued, received]

/-- The length is decoded from the socket as from the list of the bytes that are ahead; where these
are not enough, the loop ends as the read of the next byte does. -/
theorem decodeLoop_reading {k multiplier value : ℕ} {r : Except Rc ℕ} {rest : List Byte}
    (h : Reading s.buffers socket seen replay data) (room : seen.length + k ≤ 5)
    (positive : socket ≠ 0)
    (list : decodeLoop getchList k multiplier value (replay ++ s.arrived socket) = (r, rest)) :
    ∃ s' used, replay ++ s.arrived socket = used ++ rest ∧
      Reading s'.buffers socket (seen ++ used) (replay.drop used.length) data ∧ s.Kept socket s' ∧
      s'.arrived socket = (s.arrived socket).drop (used.length - replay.length) ∧
      (r ≠ .error .interrupted → decodeLoop (getch socket) k multiplier value s = (r, s')) ∧
      (r = .error .interrupted → (seen ++ used).length ≤ 4 ∧ ∀ rc t,
        getch socket s' = (.error rc, t) →
          decodeLoop (getch socket) k multiplier value s = (.error rc, t)) := by
  induction k generalizing s seen replay multiplier value with
  | zero =>
    cases list
    refine ⟨s, [], rfl, ?_, .refl socket s, ?_, fun _ => rfl, by rintro ⟨⟩⟩
    · simpa using h
    · simp
  | succ k ih =>
    cases ahead : replay ++ s.arrived socket with
    | nil =>
      rw [ahead] at list
      cases list
      refine ⟨s, [], rfl, ?_, .refl socket s, ?_, fun none => absurd rfl none, fun _ => ⟨?_, ?_⟩⟩
      · simpa using h
      · simp
      · rw [List.append_nil]
        omega
      · intro rc t stopped
        simp only [decodeLoop, stopped]
    | cons c ahead' =>
      obtain ⟨t, read, reading, kept, arrived⟩ := getch_byte h (by omega) positive ahead
      have next : replay.drop 1 ++ t.arrived socket = ahead' := by
        rw [arrived, ← List.drop_append, ahead]
        rfl
      rw [ahead] at list
      simp only [decodeLoop, getchList] at list
      split_ifs at list with more
      · rw [← next] at list
        obtain ⟨s', used, split, reading', kept', arrived', done, stopped⟩ :=
          ih reading (by rw [List.length_append, List.length_singleton]; omega) list
        have loop : decodeLoop (getch socket) (k + 1) multiplier value s =
            decodeLoop (getch socket) k (multiplier * 128) (value + c.toNat % 128 * multiplier)
              t := by
          simp only [decodeLoop, read, if_pos more]
        refine ⟨s', c :: used, ?_, ?_, kept.trans kept', ?_, ?_, ?_⟩
        · rw [List.cons_append, ← split, next]
        · rw [List.drop_drop, List.append_assoc, List.singleton_append] at reading'
          rwa [List.length_cons, Nat.add_comm]
        · rw [arrived', arrived, List.drop_drop, List.length_drop, List.length_cons]
          congr 1
          omega
        · intro hr
          rw [loop]
          exact done hr
        · intro hr
          obtain ⟨short, ends⟩ := stopped hr
          refine ⟨?_, ?_⟩
          · rwa [List.append_assoc, List.singleton_append] at short
          · intro rc u hu
            rw [loop]
            exact ends rc u hu
      · cases list
        refine ⟨t, [c], rfl, reading, kept, arrived, fun _ => ?_, by rintro ⟨⟩⟩
        simp only [decodeLoop, read, if_neg more]

theorem Reading.getQueuedData (h : Reading s.buffers socket seen [] data) :
    Mqtt.getQueuedData s.buffers socket = data := by
  cases h with
  | queued queue found index header buf free => simp [Mqtt.getQueuedData, found, buf]
  | fresh absent free none noReplay noData => simp [Mqtt.getQueuedData, absent, noData]
  | started absent mine index header noReplay noData => simp [Mqtt.getQueuedData, absent, noData]

theorem Net.recv_got {n : ℕ} (some : s.arrived socket ≠ []) (positive : 0 < n) :
    s.recv socket n = .got ((s.arrived socket).take n) := by
  have taken : (s.arrived socket).take n ≠ [] := by
    simp [some]
    omega
  unfold Net.recv
  split
  next heq => exact absurd heq taken
  next => rfl

/-! The rest of a packet is read: nothing has come and nothing will, nothing has come yet, not all
of it has come, or all of it has. -/

theorem getdata_ended (h : Reading s.buffers socket seen [] data) {n : ℕ} (short : data.length < n)
    (none : s.arrived socket = []) (ended : s.ended socket = true) :
    getdata s socket n = (.error .socketError, s) := by
  have received : s.recv socket (n - data.length) = .ended := by simp [Net.recv, none, ended]
  simp only [getdata, if_neg (Nat.ne_of_gt (Nat.zero_lt_of_lt short)), h.getQueuedData, received]

theorem getdata_again (h : Reading s.buffers socket seen [] data) {n : ℕ} (short : data.length < n)
    (none : s.arrived socket = []) (ended : s.ended socket = false) :
    getdata s socket n =
      (.error .interrupted, s.take socket 0 (interrupted s.buffers socket data)) := by
  have received : s.recv socket (n - data.length) = .again := by simp [Net.recv, none, ended]
  simp only [getdata, if_neg (Nat.ne_of_gt (Nat.zero_lt_of_lt short)), h.getQueuedData, received,
    gotData, if_neg short.ne]

theorem getdata_partly (h : Reading s.buffers socket seen [] data) {n : ℕ}
    (short : data.length < n) (some : s.arrived socket ≠ [])
    (missing : (data ++ s.arrived socket).length < n) :
    getdata s socket n = (.error .interrupted,
      s.take socket (s.arrived socket).length
        (interrupted s.buffers socket (data ++ s.arrived socket))) := by
  have received := Net.recv_got some (Nat.sub_pos_of_lt short)
  rw [List.length_append] at missing
  have all : (s.arrived socket).take (n - data.length) = s.arrived socket :=
    List.take_of_length_le (by omega)
  have apart : (data ++ s.arrived socket).length ≠ n := by
    rw [List.length_append]
    omega
  simp only [getdata, if_neg (Nat.ne_of_gt (Nat.zero_lt_of_lt short)), h.getQueuedData, received,
    all, gotData, if_neg apart]

theorem getdata_whole (h : Reading s.buffers socket seen [] data) {n : ℕ} (short : data.length < n)
    (some : s.arrived socket ≠ []) (whole : n ≤ (data ++ s.arrived socket).length) :
    getdata s socket n = (.ok ((data ++ s.arrived socket).take n),
      s.take socket (n - data.length) (complete s.buffers socket)) := by
  have received := Net.recv_got some (Nat.sub_pos_of_lt short)
  have enough : n - data.length ≤ (s.arrived socket).length := by
    rw [List.length_append] at whole
    omega
  have all : data ++ (s.arrived socket).take (n - data.length) =
      (data ++ s.arrived socket).take n := by
    rw [List.take_append, List.take_of_length_le short.le]
  have len : ((data ++ s.arrived socket).take n).length = n := List.length_take_of_le whole
  simp only [getdata, if_neg (Nat.ne_of_gt (Nat.zero_lt_of_lt short)), h.getQueuedData, received,
    gotData, all, if_pos len, List.length_take_of_le enough]

/-- The rest of a packet is read, as far as it has come. -/
theorem getdata_reading (h : Reading s.buffers socket seen [] data) (positive : socket ≠ 0)
    (begun : seen ≠ []) (once : (s.buffers.queues.map SocketQueue.socket).count socket ≤ 1) {n : ℕ}
    (partly : data = [] ∨ data.length < n) :
    ∃ s', s.Kept socket s' ∧
      if n ≤ (data ++ s.arrived socket).length then
        getdata s socket n = (.ok ((data ++ s.arrived socket).take n), s') ∧
          Stored s'.buffers socket [] [] ∧
          s'.arrived socket = (data ++ s.arrived socket).drop n
      else if s.arrived socket = [] ∧ s.ended socket = true then
        getdata s socket n = (.error .socketError, s') ∧ s' = s
      else
        getdata s socket n = (.error .interrupted, s') ∧
          Stored s'.buffers socket seen (data ++ s.arrived socket) ∧ s'.arrived socket = [] := by
  obtain ⟨completed, keptC⟩ := h.complete once
  have begun' (rest : List Byte) (hseen : seen = []) : rest = [] := absurd hseen begun
  by_cases zero : n = 0
  · obtain rfl : data = [] := by
      rcases partly with rfl | short
      · rfl
      · omega
    subst zero
    refine ⟨{ s with buffers := complete s.buffers socket }, ⟨keptC, fun _ _ => rfl, rfl⟩, ?_⟩
    rw [if_pos (Nat.zero_le _)]
    exact ⟨rfl, completed, rfl⟩
  have short : data.length < n := by
    rcases partly with rfl | short
    · exact Nat.pos_of_ne_zero zero
    · exact short
  by_cases none : s.arrived socket = []
  · have missing : ¬ n ≤ (data ++ s.arrived socket).length := by
      rw [none, List.append_nil]
      omega
    cases ended : s.ended socket with
    | true =>
      refine ⟨s, .refl socket s, ?_⟩
      rw [if_neg missing, if_pos ⟨none, rfl⟩]
      exact ⟨getdata_ended h short none ended, rfl⟩
    | false =>
      obtain ⟨stored, kept⟩ := h.interrupted positive data (begun' data)
      refine ⟨_, .take kept 0, ?_⟩
      rw [if_neg missing, if_neg (by simp), Net.arrived_take, none, List.append_nil]
      exact ⟨getdata_again h short none ended, stored, rfl⟩
  · by_cases whole : n ≤ (data ++ s.arrived socket).length
    · refine ⟨_, .take keptC (n - data.length), ?_⟩
      rw [if_pos whole, Net.arrived_take, List.drop_append, List.drop_eq_nil_of_le short.le,
        List.nil_append]
      exact ⟨getdata_whole h short none whole, completed, rfl⟩
    · obtain ⟨stored, kept⟩ := h.interrupted positive (data ++ s.arrived socket) (begun' _)
      refine ⟨_, .take kept (s.arrived socket).length, ?_⟩
      rw [if_neg whole, if_neg fun h => none h.1, Net.arrived_take, List.drop_length]
      exact ⟨getdata_partly h short none (by omega), stored, rfl⟩

end Attempt

/-- What can be kept of a packet that is not complete. -/
inductive Partial : List Byte → List Byte → Prop
  | nothing : Partial [] []
  | header (b : Byte) {l : List Byte} (more : decode getchList l = (.error .interrupted, [])) :
      Partial (b :: l) []
  | data (b : Byte) {l data : List Byte} {n : ℕ} (length : decode getchList l = (.ok n, []))
      (short : data.length < n) : Partial (b :: l) data

/-- What is found at the start of a stream, from the length that was decoded on. -/
def found (b : Byte) (r : Except Rc ℕ) (rest : List Byte) :
    Framing.Next Byte (Byte × List Byte) :=
  match r with
  | .error .interrupted => .more
  | .error .socketError => .bad
  | .ok n => if n ≤ rest.length then .frame (b, rest.take n) (rest.drop n) else .more

theorem nextPacket_cons {b : Byte} {l rest : List Byte} {r : Except Rc ℕ}
    (h : decode getchList l = (r, rest)) : nextPacket (b :: l) = found b r rest := by
  rcases r with (_ | _) | n <;> simp only [nextPacket, h, found]

theorem Partial.more {header data : List Byte} (h : Partial header data) :
    nextPacket (header ++ data) = .more := by
  cases h with
  | nothing => rfl
  | header b more =>
    rw [List.append_nil]
    exact nextPacket_cons more
  | @data b l _ n length short =>
    have decoded := decodeLoop_append data length (by simp)
    rw [List.cons_append, nextPacket_cons decoded, List.nil_append]
    exact if_neg (by omega)

/-- The bytes that are ahead of an attempt tell the next packet, with the data that was kept. -/
theorem Partial.ahead {header data arrived ahead rest : List Byte} {b : Byte} {r : Except Rc ℕ}
    (h : Partial header data) (begins : header ++ arrived = b :: ahead)
    (decoded : decode getchList ahead = (r, rest)) :
    nextPacket (header ++ data ++ arrived) = found b r (data ++ rest) ∧
      (data = [] ∨ rest = arrived ∧ ∃ n, r = .ok n ∧ data.length < n) ∧
      rest.length ≤ arrived.length := by
  cases h with
  | nothing =>
    have suffix := decodeLoop_suffix maxNoOfRemainingLengthBytes 1 0 ahead
    rw [← decode, decoded] at suffix
    rw [List.nil_append] at begins
    subst begins
    exact ⟨nextPacket_cons decoded, .inl rfl,
      suffix.length_le.trans (Nat.le_succ _)⟩
  | @header b' l more =>
    have tail : l ++ arrived = ahead := (List.cons.inj begins).2
    obtain rfl := (List.cons.inj begins).1
    subst tail
    have past := (decodeLoop_interrupted more).2 arrived
    rw [← decode, decoded] at past
    rw [List.append_nil]
    exact ⟨nextPacket_cons decoded, .inl rfl, past.length_le⟩
  | @data b' l data n length short =>
    have tail : l ++ arrived = ahead := (List.cons.inj begins).2
    obtain rfl := (List.cons.inj begins).1
    subst tail
    have same := decodeLoop_append arrived length (by simp)
    obtain ⟨rfl, rfl⟩ := Prod.mk.inj (same.symm.trans decoded)
    have all : decode getchList (l ++ (data ++ arrived)) = (.ok n, data ++ arrived) :=
      decodeLoop_append (data ++ arrived) length (by simp)
    rw [List.nil_append, List.cons_append, List.cons_append, List.append_assoc]
    exact ⟨nextPacket_cons all, .inr ⟨rfl, n, rfl, short⟩, Nat.le_refl _⟩

/-- What an attempt does, from what is found at the start of the bytes that are kept and have come. -/
def Attempt (s : Net) (socket : ℤ) (all : List Byte) (s' : Net) :
    Framing.Next Byte (Byte × List Byte) → Prop
  | .frame (b, d) rest =>
    factory s socket = (build b d).map (fun built => (.ok built, s')) ∧
      Stored s'.buffers socket [] [] ∧ s'.arrived socket = rest
  | .bad =>
    factory s socket = some (.error .socketError, s') ∧
      ∃ seen replay data, Reading s'.buffers socket seen replay data
  | .more =>
    (s.ended socket = true ∧ factory s socket = some (.error .socketError, s') ∧
        ∃ seen replay data, Reading s'.buffers socket seen replay data) ∨
      factory s socket = some (.error .interrupted, s') ∧ s'.arrived socket = [] ∧
        ∃ header data, Stored s'.buffers socket header data ∧ Partial header data ∧
          header ++ data = all

section Factory

variable {s t u : Net} {socket : ℤ} {b : Byte} {used data : List Byte}

/-- The header byte and the length are read as far as they have come. -/
theorem header_reading {header ahead rest : List Byte} {r : Except Rc ℕ}
    (h : Reading s.buffers socket [] header data) (positive : socket ≠ 0)
    (begins : header ++ s.arrived socket = b :: ahead)
    (decoded : decode getchList ahead = (r, rest))
    (behind : rest.length ≤ (s.arrived socket).length) :
    ∃ t u used, getch socket s = (.ok b, t) ∧ s.Kept socket u ∧ ahead = used ++ rest ∧
      Reading u.buffers socket (b :: used) [] data ∧ u.arrived socket = rest ∧
      (r ≠ .error .interrupted → decode (getch socket) t = (r, u)) ∧
      (r = .error .interrupted → used.length ≤ 3 ∧ ∀ rc v,
        getch socket u = (.error rc, v) → decode (getch socket) t = (.error rc, v)) := by
  obtain ⟨t, read, reading₁, kept₁, arrived₁⟩ := getch_byte h (by simp) positive begins
  have next : header.drop 1 ++ t.arrived socket = ahead := by
    rw [arrived₁, ← List.drop_append, begins]
    rfl
  have room : [b].length + maxNoOfRemainingLengthBytes ≤ 5 := by
    show 1 + 4 ≤ 5
    omega
  obtain ⟨u, used, split, reading₂, kept₂, arrived₂, done, stopped⟩ :=
    decodeLoop_reading reading₁ room positive (next.symm ▸ decoded)
  rw [next] at split
  -- the bytes of the header that were read before have all been gone through
  have past : (header.drop 1).length ≤ used.length := by
    have len := congrArg List.length begins
    rw [split] at len
    simp only [List.length_append, List.length_cons, List.length_drop] at len ⊢
    omega
  have replayed : (header.drop 1).drop used.length = [] := List.drop_eq_nil_of_le past
  have left : u.arrived socket = rest := by
    have drop := congrArg (List.drop used.length) (next.trans split)
    rw [List.drop_append, replayed, List.nil_append, List.drop_left, ← arrived₂] at drop
    exact drop
  rw [replayed] at reading₂
  refine ⟨t, u, used, read, kept₁.trans kept₂, split, reading₂, left, done, fun none => ?_⟩
  obtain ⟨short, ends⟩ := stopped none
  rw [List.nil_append, List.length_append, List.length_singleton] at short
  exact ⟨by omega, ends⟩

theorem attempt_nothing (reading : Reading s.buffers socket [] [] data) (positive : socket ≠ 0)
    (none : s.arrived socket = []) : ∃ s', s.Kept socket s' ∧ Attempt s socket [] s' .more := by
  rcases getch_nothing reading (by simp) positive (by rw [none]; rfl) with
    ⟨ended, stopped⟩ | ⟨s', -, stopped, stored, kept, arrived⟩
  · refine ⟨s, .refl socket s, .inl ⟨ended, ?_, _, _, _, reading⟩⟩
    simp only [factory, stopped]
  · refine ⟨s', kept, .inr ⟨?_, arrived, [], [], stored, .nothing, rfl⟩⟩
    simp only [factory, stopped]

theorem attempt_length (read : getch socket s = (.ok b, t)) (kept : s.Kept socket u)
    (reading : Reading u.buffers socket (b :: used) [] []) (short : used.length ≤ 3)
    (positive : socket ≠ 0) (none : u.arrived socket = [])
    (ends : ∀ rc v, getch socket u = (.error rc, v) → decode (getch socket) t = (.error rc, v))
    (decoded : decode getchList used = (.error .interrupted, [])) :
    ∃ s', s.Kept socket s' ∧ Attempt s socket (b :: used) s' .more := by
  have room : (b :: used).length ≤ 4 := by
    rw [List.length_cons]
    omega
  rcases getch_nothing reading room positive none with
    ⟨ended, stopped⟩ | ⟨v, -, stopped, stored, kept', arrived⟩
  · refine ⟨u, kept, .inl ⟨?_, ?_, _, _, _, reading⟩⟩
    · rwa [← kept.ended]
    · simp only [factory, read, ends _ _ stopped]
  · refine ⟨v, kept.trans kept', .inr ⟨?_, arrived, _, _, stored, .header b decoded, ?_⟩⟩
    · simp only [factory, read, ends _ _ stopped]
    · exact List.append_nil _

theorem attempt_data (read : getch socket s = (.ok b, t)) (kept : s.Kept socket u)
    (reading : Reading u.buffers socket (b :: used) [] data) (positive : socket ≠ 0)
    (once : (u.buffers.queues.map SocketQueue.socket).count socket ≤ 1) {n : ℕ}
    (loop : decode (getch socket) t = (.ok n, u)) (decoded : decode getchList used = (.ok n, []))
    (partly : data = [] ∨ data.length < n) :
    ∃ s', s.Kept socket s' ∧ Attempt s socket (b :: used ++ (data ++ u.arrived socket)) s'
      (found b (.ok n) (data ++ u.arrived socket)) := by
  obtain ⟨v, kept', got⟩ := getdata_reading reading positive (by simp) once partly
  unfold found
  dsimp only
  split_ifs at got ⊢ with whole failing
  · obtain ⟨complete, stored, arrived⟩ := got
    refine ⟨v, kept.trans kept', ?_, stored, arrived⟩
    simp only [factory, read, loop, complete]
  · obtain ⟨failed, rfl⟩ := got
    refine ⟨v, kept, .inl ⟨?_, ?_, _, _, _, reading⟩⟩
    · rw [← kept.ended]
      exact failing.2
    · simp only [factory, read, loop, failed]
  · obtain ⟨stopped, stored, arrived⟩ := got
    refine ⟨v, kept.trans kept', .inr ⟨?_, arrived, _, _, stored, .data b decoded ?_, rfl⟩⟩
    · simp only [factory, read, loop, stopped]
    · omega

end Factory

/-- One attempt: the packet at the start of the bytes that are kept and have come. -/
theorem factory_spec {s : Net} {socket : ℤ} {header data : List Byte}
    (h : Stored s.buffers socket header data) (part : Partial header data) (positive : socket ≠ 0)
    (once : (s.buffers.queues.map SocketQueue.socket).count socket ≤ 1) :
    ∃ s', s.Kept socket s' ∧ Attempt s socket (header ++ data ++ s.arrived socket) s'
      (nextPacket (header ++ data ++ s.arrived socket)) := by
  cases ahead : header ++ s.arrived socket with
  | nil =>
    obtain ⟨rfl, none⟩ := List.append_eq_nil_iff.1 ahead
    cases part
    rw [none]
    exact attempt_nothing h.reading positive none
  | cons b ahead' =>
    obtain ⟨r, rest, decoded⟩ : ∃ r rest, decode getchList ahead' = (r, rest) := ⟨_, _, rfl⟩
    obtain ⟨nextIs, keptData, behind⟩ := part.ahead ahead decoded
    obtain ⟨t, u, used, read, kept, split, reading, left, done, stopped⟩ :=
      header_reading h.reading positive ahead decoded behind
    rw [nextIs]
    rcases r with (_ | _) | n
    · obtain rfl : data = [] := by
        rcases keptData with rfl | ⟨-, n, hn, -⟩
        · rfl
        · cases hn
      obtain ⟨rfl, -⟩ := decodeLoop_interrupted decoded
      obtain ⟨few, ends⟩ := stopped rfl
      rw [List.append_nil] at split
      subst split
      rw [List.append_nil, ahead]
      exact attempt_length read kept reading few positive left ends decoded
    · refine ⟨u, kept, ?_, _, _, _, reading⟩
      simp only [factory, read, done (by simp)]
    · obtain ⟨used', split', same⟩ := decodeLoop_used decoded (by simp)
      obtain rfl : used = used' := List.append_cancel_right (split.symm.trans split')
      have decoded' := same []
      rw [List.append_nil] at decoded'
      have all : header ++ data ++ s.arrived socket = b :: used ++ (data ++ rest) := by
        rcases keptData with rfl | ⟨rfl, -⟩
        · rw [List.nil_append, List.append_nil, ahead, split, List.cons_append]
        · have whole : header = b :: used := by
            rw [split, ← List.cons_append] at ahead
            exact List.append_cancel_right ahead
          rw [whole, List.append_assoc]
      have partly : data = [] ∨ data.length < n := by
        rcases keptData with none | ⟨-, n', hn, short⟩
        · exact .inl none
        · cases hn
          exact .inr short
      rw [all, ← left]
      exact attempt_data read kept reading positive (kept.buffers.once socket positive once)
        (done (by simp)) decoded' partly

/-! ### Whole runs -/

theorem builtOf_append (l m : List Byte) :
    builtOf (l ++ m) = builtOf l ++ builtOf (packets.left l ++ m) := by
  rw [builtOf, Framing.frames_append, List.map_append]
  rfl

/-- The packets that were returned are the first ones of the stream, and the others are in what is
ahead. -/
structure Conn.Told (c : Conn) (ahead : List Byte) : Prop where
  built : builtOf c.came = c.returned.map some ++ builtOf ahead
  left : packets.left c.came = packets.left ahead

theorem Conn.Told.nothing : Conn.Told ⟨[], []⟩ [] := ⟨rfl, rfl⟩

theorem Conn.Told.came {c : Conn} {ahead : List Byte} (h : c.Told ahead) (bytes : List Byte) :
    Conn.Told { c with came := c.came ++ bytes } (ahead ++ bytes) where
  built := by
    rw [builtOf_append, h.built, h.left, List.append_assoc, ← builtOf_append]
  left := by
    show packets.left (c.came ++ bytes) = _
    rw [Framing.left_append, h.left, ← Framing.left_append]

theorem Conn.Told.returned {c : Conn} {ahead rest d : List Byte} {b : Byte} {built : Built}
    (h : c.Told ahead) (next : nextPacket ahead = .frame (b, d) rest)
    (made : build b d = some built) :
    Conn.Told { c with returned := c.returned ++ [built] } rest := by
  obtain ⟨frames, left⟩ : packets.frames ahead = (b, d) :: packets.frames rest ∧
      packets.left ahead = packets.left rest := Framing.split_frame next
  refine ⟨?_, h.left.trans left⟩
  have first : builtOf ahead = some built :: builtOf rest := by
    rw [builtOf, frames, List.map_cons, made]
    rfl
  show builtOf c.came = _
  rw [h.built, first, List.map_append, List.append_assoc]
  rfl

/-- What holds for each socket in every state. -/
structure SocketInv (s : Net) (socket : ℤ) (c : Conn) : Prop where
  once : (s.buffers.queues.map SocketQueue.socket).count socket ≤ 1
  stored : ∃ header data, Stored s.buffers socket header data ∧ Partial header data ∧
    c.Told (header ++ data ++ s.arrived socket)

theorem Stored.free {s : Buffers} {socket : ℤ} {header data : List Byte}
    (h : Stored s socket header data) : s.defQueue.socket = 0 := by
  cases h with
  | queued _ _ _ _ _ free => exact free
  | none _ free => exact free

theorem Stored.other {s s' : Buffers} {socket : ℤ} {header data : List Byte}
    (h : Stored s socket header data) (same : s'.find socket = s.find socket)
    (free : s'.defQueue.socket = 0) : Stored s' socket header data := by
  cases h with
  | queued queue found index fixedHeader buf =>
    exact .queued queue (same.trans found) index fixedHeader buf free
  | none absent _ noHeader noData => exact .none (same.trans absent) free noHeader noData

theorem SocketInv.other {s s' : Net} {socket k : ℤ} {c : Conn} (h : SocketInv s k c)
    (kept : s.Kept socket s') (free : s'.buffers.defQueue.socket = 0) (hk : k ≠ 0)
    (apart : k ≠ socket) : SocketInv s' k c := by
  obtain ⟨once, header, data, stored, part, told⟩ := h
  refine ⟨kept.buffers.once k hk once, header, data,
    stored.other (kept.buffers.find k hk apart) free, part, ?_⟩
  rwa [kept.arrived k apart]

/-- Closing a socket, in any state of an attempt. -/
theorem Reading.closed {s : Net} {socket : ℤ} {seen replay data : List Byte}
    (h : Reading s.buffers socket seen replay data)
    (once : (s.buffers.queues.map SocketQueue.socket).count socket ≤ 1) :
    Stored (s.close socket).buffers socket [] [] ∧
      Mqtt.Kept socket s.buffers (s.close socket).buffers ∧
      (s.close socket).arrived socket = [] ∧
      ∀ k ≠ socket, (s.close socket).arrived k = s.arrived k := by
  obtain ⟨stored, kept⟩ := h.cleanup once
  exact ⟨stored, kept, Function.update_self _ _ _, fun k hk => Function.update_of_ne hk _ _⟩

theorem Reading.anew {s : Net} {socket : ℤ} {seen replay data : List Byte}
    (h : Reading s.buffers socket seen replay data) (positive : socket ≠ 0)
    (once : (s.buffers.queues.map SocketQueue.socket).count socket ≤ 1) :
    SocketInv (s.close socket) socket ⟨[], []⟩ := by
  obtain ⟨stored, kept, arrived, -⟩ := h.closed once
  refine ⟨kept.once socket positive once, [], [], stored, .nothing, ?_⟩
  rw [arrived]
  exact .nothing

theorem see_other {socket k : ℤ} (apart : k ≠ socket) (c : Conn) (built : Built)
    (bytes : List Byte) :
    c.see k (.came socket bytes) = c ∧ c.see k (.returned socket built) = c ∧
      c.see k (.closed socket) = c :=
  ⟨if_neg apart.symm, if_neg apart.symm, if_neg apart.symm⟩

/-- The socket of a step. -/
def ReaderOp.socket : ReaderOp → ℤ
  | .arrive socket _ | .hangUp socket | .read socket | .close socket => socket

theorem SocketInv.come {s : Net} {k : ℤ} {c : Conn} (h : SocketInv s k c) (socket : ℤ)
    (bytes : List Byte) : SocketInv (s.come socket bytes) k (c.see k (.came socket bytes)) := by
  obtain ⟨once, header, data, stored, part, told⟩ := h
  refine ⟨once, header, data, stored, part, ?_⟩
  by_cases same : k = socket
  · subst same
    have now : c.see k (.came k bytes) = { c with came := c.came ++ bytes } := if_pos rfl
    have arrived : (s.come k bytes).arrived k = s.arrived k ++ bytes := Function.update_self _ _ _
    rw [now, arrived, ← List.append_assoc]
    exact told.came bytes
  · have arrived : (s.come socket bytes).arrived k = s.arrived k := Function.update_of_ne same _ _
    rw [(see_other same c .bad bytes).1, arrived]
    exact told

/-- All sockets are in order. -/
def Settles (tr : List ReaderMove) (s : Net) : Prop :=
  ∀ k ≠ 0, SocketInv s k (connOf k tr)

/-- Reading has failed for a socket; the others are in order as soon as it is closed. -/
structure Failing (tr : List ReaderMove) (s : Net) (socket : ℤ) : Prop where
  positive : socket ≠ 0
  once : (s.buffers.queues.map SocketQueue.socket).count socket ≤ 1
  reading : ∃ seen replay data, Reading s.buffers socket seen replay data
  told : ∃ ahead, (connOf socket tr).Told ahead ∧ (s.arrived socket = [] → builtOf ahead = [])
  others : ∀ k ≠ 0, k ≠ socket → SocketInv (s.close socket) k (connOf k tr)

section Steps

variable {tr : List ReaderMove} {m : ReaderMove} {s t : Net} {socket k : ℤ}

/-- The other sockets, when the socket of an attempt is closed. -/
theorem Settles.others (h : Settles tr s) (positive : socket ≠ 0) (kept : s.Kept socket t)
    {seen replay data : List Byte} (reading : Reading t.buffers socket seen replay data) :
    ∀ k ≠ 0, k ≠ socket → SocketInv (t.close socket) k (connOf k tr) := by
  have once := kept.buffers.once socket positive (h socket positive).once
  obtain ⟨stored, kept', -, others⟩ := reading.closed once
  intro k hk apart
  obtain ⟨once', header, data', stored', part, told⟩ := h k hk
  refine ⟨kept'.once k hk (kept.buffers.once k hk once'), header, data',
    stored'.other ?_ stored.free, part, ?_⟩
  · rw [kept'.find k hk apart, kept.buffers.find k hk apart]
  · rwa [others k apart, kept.arrived k apart]

theorem Settles.come (h : Settles tr s) (bytes : List Byte) (outs : m.outs = [.came socket bytes]) :
    Settles (tr ++ [m]) (s.come socket bytes) := by
  intro k hk
  rw [connOf_concat, outs]
  exact (h k hk).come socket bytes

theorem Settles.returned (h : Settles tr s) (kept : s.Kept socket t)
    (stored : Stored t.buffers socket [] []) {built : Built}
    (told : Conn.Told { connOf socket tr with
      returned := (connOf socket tr).returned ++ [built] } (t.arrived socket))
    (outs : m.outs = [.returned socket built]) : Settles (tr ++ [m]) t := by
  intro k hk
  rw [connOf_concat, outs, List.foldl_cons, List.foldl_nil]
  by_cases same : k = socket
  · subst same
    have now : (connOf k tr).see k (.returned k built) =
        { connOf k tr with returned := (connOf k tr).returned ++ [built] } := if_pos rfl
    rw [now]
    exact ⟨kept.buffers.once k hk (h k hk).once, [], [], stored, .nothing, told⟩
  · rw [(see_other same _ built []).2.1]
    exact (h k hk).other kept stored.free hk same

theorem Settles.interrupted (h : Settles tr s) (kept : s.Kept socket t) {header data : List Byte}
    (stored : Stored t.buffers socket header data) (part : Partial header data)
    (told : (connOf socket tr).Told (header ++ data ++ t.arrived socket)) (outs : m.outs = []) :
    Settles (tr ++ [m]) t := by
  intro k hk
  rw [connOf_concat, outs, List.foldl_nil]
  by_cases same : k = socket
  · subst same
    exact ⟨kept.buffers.once k hk (h k hk).once, header, data, stored, part, told⟩
  · exact (h k hk).other kept stored.free hk same

/-- Reading fails, where no packet is at the start. -/
theorem Settles.fails (h : Settles tr s) (positive : socket ≠ 0) (kept : s.Kept socket t)
    {seen replay data : List Byte} (reading : Reading t.buffers socket seen replay data)
    {ahead : List Byte} (told : (connOf socket tr).Told ahead) (none : builtOf ahead = [])
    (outs : m.outs = []) : Failing (tr ++ [m]) t socket where
  positive := positive
  once := kept.buffers.once socket positive (h socket positive).once
  reading := ⟨_, _, _, reading⟩
  told := by
    rw [connOf_concat, outs]
    exact ⟨ahead, told, fun _ => none⟩
  others := by
    intro k hk apart
    rw [connOf_concat, outs]
    exact h.others positive kept reading k hk apart

theorem SocketInv.close {c c' : Conn} (h : SocketInv s socket c) (positive : socket ≠ 0)
    (h' : SocketInv s k c') (hk : k ≠ 0) : SocketInv (s.close socket) k (c'.see k (.closed socket)) := by
  obtain ⟨once, _, _, stored, -, -⟩ := h
  obtain ⟨closed, kept, -, others⟩ := stored.reading.closed once
  by_cases same : k = socket
  · subst same
    have now : c'.see k (.closed k) = ⟨[], []⟩ := if_pos rfl
    rw [now]
    exact stored.reading.anew hk once
  · rw [(see_other same _ .bad []).2.2]
    obtain ⟨once', header, data, stored', part, told⟩ := h'
    refine ⟨kept.once k hk once', header, data, stored'.other (kept.find k hk same) closed.free, part,
      ?_⟩
    rwa [others k same]

theorem Settles.close (h : Settles tr s) (positive : socket ≠ 0) (outs : m.outs = [.closed socket]) :
    Settles (tr ++ [m]) (s.close socket) := by
  intro k hk
  rw [connOf_concat, outs]
  exact (h socket positive).close positive (h k hk) hk

/-! ### While a disconnection is queued -/

theorem cleanup_queues (s : Buffers) (socket : ℤ) :
    (cleanupBuffers s socket).queues = Keyed.erase SocketQueue.socket s.queues socket := by
  unfold cleanupBuffers Buffers.find
  dsimp only
  split
  · rfl
  next absent => exact (Keyed.erase_of_get_none absent).symm

theorem Net.close_comm (s : Net) (apart : k ≠ socket) :
    (s.close k).close socket = (s.close socket).close k := by
  have defQueue : (cleanupBuffers (cleanupBuffers s.buffers k) socket).defQueue =
      (cleanupBuffers (cleanupBuffers s.buffers socket) k).defQueue := by
    simp only [cleanupBuffers]
    by_cases mine : s.buffers.defQueue.socket = k
    · simp [mine, apart]
    · by_cases its : s.buffers.defQueue.socket = socket
      · simp [its, apart.symm]
      · simp [mine, its]
  have buffers : cleanupBuffers (cleanupBuffers s.buffers k) socket =
      cleanupBuffers (cleanupBuffers s.buffers socket) k := by
    rw [Buffers.mk.injEq, cleanup_queues, cleanup_queues, cleanup_queues, cleanup_queues]
    exact ⟨defQueue, Keyed.erase_comm s.buffers.queues k socket⟩
  rw [Net.close, Net.close, Net.mk.injEq]
  exact ⟨buffers, Function.update_comm apart _ _ _, Function.update_comm apart _ _ _⟩

theorem Net.come_close (s : Net) (bytes : List Byte) :
    (s.come k bytes).close socket =
      if k = socket then s.close socket else (s.close socket).come k bytes := by
  split_ifs with same
  · subst same
    simp [Net.come, Net.close]
  · have arrived : (s.close socket).arrived k = s.arrived k := Function.update_of_ne same _ _
    simp only [Net.come, arrived]
    rw [Net.close, Net.close, Net.mk.injEq]
    exact ⟨rfl, Function.update_comm same _ _ _, rfl⟩

theorem Failing.come (h : Failing tr s socket) (bytes : List Byte)
    (outs : m.outs = [.came k bytes]) : Failing (tr ++ [m]) (s.come k bytes) socket where
  positive := h.positive
  once := h.once
  reading := h.reading
  told := by
    obtain ⟨ahead, told, none⟩ := h.told
    rw [connOf_concat, outs, List.foldl_cons, List.foldl_nil]
    by_cases same : socket = k
    · subst same
      have now : (connOf socket tr).see socket (.came socket bytes) =
          { connOf socket tr with came := (connOf socket tr).came ++ bytes } := if_pos rfl
      have arrived : (s.come socket bytes).arrived socket = s.arrived socket ++ bytes :=
        Function.update_self _ _ _
      rw [now, arrived]
      refine ⟨ahead ++ bytes, told.came bytes, fun nothing => ?_⟩
      obtain ⟨before, rfl⟩ := List.append_eq_nil_iff.1 nothing
      rw [List.append_nil]
      exact none before
    · have arrived : (s.come k bytes).arrived socket = s.arrived socket :=
        Function.update_of_ne same _ _
      rw [(see_other same _ .bad bytes).1, arrived]
      exact ⟨ahead, told, none⟩
  others := by
    intro j hj apart
    rw [connOf_concat, outs, List.foldl_cons, List.foldl_nil, Net.come_close]
    split_ifs with same
    · rw [(see_other (same ▸ apart) _ .bad bytes).1]
      exact h.others j hj apart
    · exact (h.others j hj apart).come k bytes

theorem Failing.close (h : Failing tr s socket) (outs : m.outs = [.closed socket]) :
    Settles (tr ++ [m]) (s.close socket) := by
  obtain ⟨_, _, _, reading⟩ := h.reading
  intro k hk
  rw [connOf_concat, outs, List.foldl_cons, List.foldl_nil]
  by_cases same : k = socket
  · subst same
    have now : (connOf k tr).see k (.closed k) = ⟨[], []⟩ := if_pos rfl
    rw [now]
    exact reading.anew hk h.once
  · rw [(see_other same _ .bad []).2.2]
    exact h.others k hk same

theorem Reading.close_other {s : Buffers} {seen replay data : List Byte}
    (h : Reading s socket seen replay data) (positive : k ≠ 0) (apart : k ≠ socket) :
    Reading (cleanupBuffers s k) socket seen replay data := by
  have find : (cleanupBuffers s k).find socket = s.find socket := by
    rw [Buffers.find, cleanup_queues]
    exact Keyed.get_erase_ne apart.symm s.queues
  cases h with
  | queued queue found index header buf free =>
    have kept : (cleanupBuffers s k).defQueue = s.defQueue := if_neg (free ▸ positive.symm)
    exact .queued queue (find.trans found) index header buf (kept ▸ free)
  | fresh absent free none noReplay noData =>
    have kept : (cleanupBuffers s k).defQueue = s.defQueue := if_neg (free ▸ positive.symm)
    exact .fresh (find.trans absent) (kept ▸ free) none noReplay noData
  | started absent mine index header noReplay noData =>
    have kept : (cleanupBuffers s k).defQueue = s.defQueue := if_neg (mine ▸ apart.symm)
    exact .started (find.trans absent) (kept ▸ mine) (kept ▸ index) (kept ▸ header) noReplay noData

theorem Failing.close_other (h : Failing tr s socket) (positive : k ≠ 0) (apart : k ≠ socket)
    (outs : m.outs = [.closed k]) : Failing (tr ++ [m]) (s.close k) socket where
  positive := h.positive
  once := by
    have fewer : (((s.close k).buffers.queues.map SocketQueue.socket)).Sublist
        (s.buffers.queues.map SocketQueue.socket) := by
      have queues : (s.close k).buffers.queues = _ := cleanup_queues s.buffers k
      rw [queues]
      exact List.eraseP_sublist.map _
    exact (fewer.count_le socket).trans h.once
  reading := by
    obtain ⟨seen, replay, data, reading⟩ := h.reading
    exact ⟨seen, replay, data, reading.close_other positive apart⟩
  told := by
    obtain ⟨ahead, told, none⟩ := h.told
    have arrived : (s.close k).arrived socket = s.arrived socket :=
      Function.update_of_ne apart.symm _ _
    rw [connOf_concat, outs, List.foldl_cons, List.foldl_nil, (see_other apart.symm _ .bad []).2.2,
      arrived]
    exact ⟨ahead, told, none⟩
  others := by
    intro j hj hne
    rw [connOf_concat, outs, List.foldl_cons, List.foldl_nil, Net.close_comm s apart]
    exact (h.others k positive apart).close positive (h.others j hj hne) hj

/-! ### Whole runs -/

/-- All sockets are in order, or a disconnection is queued for one. -/
def Ordered (tr : List ReaderMove) (s : Sockets) : Prop :=
  s.disconnecting = [] ∧ Settles tr s.net ∨
    ∃ socket, s.disconnecting = [socket] ∧ Failing tr s.net socket

theorem Settles.read {s s' : Sockets} (h : Settles tr s.net) (none : s.disconnecting = [])
    (positive : socket ≠ 0) (taken : readerStep s (.read socket) = .ok (s', m.outs)) :
    Ordered (tr ++ [m]) s' := by
  obtain ⟨once, header, data, stored, part, told⟩ := h socket positive
  obtain ⟨net, kept, attempt⟩ := factory_spec stored part positive once
  have fails {seen replay data' : List Byte} (reading : Reading net.buffers socket seen replay data')
      (failed : factory s.net socket = some (.error .socketError, net))
      (nothing : builtOf (header ++ data ++ s.net.arrived socket) = []) :
      Ordered (tr ++ [m]) s' := by
    simp only [readerStep, failed] at taken
    obtain ⟨rfl, outs⟩ := Prod.mk.inj (Except.ok.inj taken)
    exact .inr ⟨socket, by rw [none], h.fails positive kept reading told nothing outs.symm⟩
  cases next : nextPacket (header ++ data ++ s.net.arrived socket) with
  | frame f rest =>
    obtain ⟨b, d⟩ := f
    rw [next] at attempt
    obtain ⟨returned, stored', arrived⟩ := attempt
    cases made : build b d with
    | none =>
      simp only [readerStep, returned, made, Option.map_none] at taken
      cases taken
    | some built =>
      simp only [readerStep, returned, made, Option.map_some] at taken
      obtain ⟨rfl, outs⟩ := Prod.mk.inj (Except.ok.inj taken)
      have told' := told.returned next made
      rw [← arrived] at told'
      exact .inl ⟨none, h.returned kept stored' told' outs.symm⟩
  | bad =>
    rw [next] at attempt
    obtain ⟨failed, _, _, _, reading⟩ := attempt
    refine fails reading failed ?_
    rw [builtOf, (Framing.split_bad next).1]
    rfl
  | more =>
    have nothing : builtOf (header ++ data ++ s.net.arrived socket) = [] := by
      rw [builtOf, (Framing.split_more next).1]
      rfl
    rw [next] at attempt
    rcases attempt with ⟨-, failed, _, _, _, reading⟩ |
      ⟨stopped, arrived, header', data', stored', part', all⟩
    · exact fails reading failed nothing
    · simp only [readerStep, stopped] at taken
      obtain ⟨rfl, outs⟩ := Prod.mk.inj (Except.ok.inj taken)
      rw [← all, ← List.append_nil (header' ++ data'), ← arrived] at told
      exact .inl ⟨none, h.interrupted kept stored' part' told outs.symm⟩

theorem Ordered.concat (h : Ordered tr m.pre) (positive : m.input.socket ≠ 0)
    (prompt : m.input.Prompt m.pre) (taken : readerStep m.pre m.input = .ok (m.post, m.outs)) :
    Ordered (tr ++ [m]) m.post := by
  generalize hpost : m.post = post at taken ⊢
  generalize houts : m.outs = outs at taken
  generalize m.input = op at positive prompt taken
  cases op with
  | arrive socket bytes =>
    cases taken
    rcases h with ⟨none, settles⟩ | ⟨failed, only, failing⟩
    · exact .inl ⟨none, settles.come bytes houts⟩
    · exact .inr ⟨failed, only, failing.come bytes houts⟩
  | hangUp socket =>
    cases taken
    rcases h with ⟨none, settles⟩ | ⟨failed, only, failing⟩
    · refine .inl ⟨none, fun k hk => ?_⟩
      rw [connOf_concat, houts]
      exact ⟨(settles k hk).once, (settles k hk).stored⟩
    · obtain ⟨positive, once, reading, told, others⟩ := failing
      refine .inr ⟨failed, only, positive, once, reading, ?_, fun k hk apart => ?_⟩
      · rw [connOf_concat, houts]
        exact told
      · rw [connOf_concat, houts]
        exact ⟨(others k hk apart).once, (others k hk apart).stored⟩
  | close socket =>
    cases taken
    rcases h with ⟨none, settles⟩ | ⟨failed, only, failing⟩
    · exact .inl ⟨by simp [none], settles.close positive houts⟩
    · by_cases same : socket = failed
      · subst same
        exact .inl ⟨by simp [only], failing.close houts⟩
      · refine .inr ⟨failed, ?_, failing.close_other positive same houts⟩
        simp [only, Ne.symm same]
  | read socket =>
    rcases h with ⟨none, settles⟩ | ⟨failed, only, -⟩
    · exact settles.read none positive (houts ▸ taken)
    · cases only.symm.trans prompt

theorem Ordered.exact {s : Sockets} (h : Ordered tr s) (positive : socket ≠ 0) :
    (connOf socket tr).returned.map some <+: builtOf (connOf socket tr).came ∧
      (s.net.arrived socket = [] →
        (connOf socket tr).returned.map some = builtOf (connOf socket tr).came) := by
  have settled {s : Net} (inv : SocketInv s socket (connOf socket tr)) :
      (connOf socket tr).returned.map some <+: builtOf (connOf socket tr).came ∧
        (s.arrived socket = [] →
          (connOf socket tr).returned.map some = builtOf (connOf socket tr).came) := by
    obtain ⟨-, header, data, -, part, told⟩ := inv
    refine ⟨⟨_, told.built.symm⟩, fun none => ?_⟩
    have rest : builtOf (header ++ data) = [] := by
      rw [builtOf, (Framing.split_more part.more).1]
      rfl
    rw [told.built, none, List.append_nil, rest, List.append_nil]
  rcases h with ⟨-, settles⟩ | ⟨failed, -, failing⟩
  · exact settled (settles socket positive)
  · by_cases same : socket = failed
    · subst same
      obtain ⟨ahead, told, none⟩ := failing.told
      refine ⟨⟨_, told.built.symm⟩, fun nothing => ?_⟩
      rw [told.built, none nothing, List.append_nil]
    · obtain ⟨first, all⟩ := settled (failing.others socket positive same)
      refine ⟨first, fun nothing => all ?_⟩
      exact (Function.update_of_ne same _ _).trans nothing

end Steps

/-- For all runs, with any number of sockets, in which no socket has the number `0`, and in which
nothing is read between a read that fails and the disconnection that it queues: the packets that were
returned for a connection are the first ones of the stream of its bytes, in order, and they are all of
its packets where nothing that has come is left to be read. -/
theorem reader_exact (ops : List ReaderOp) (positive : ∀ op ∈ ops, op.socket ≠ 0) :
    ∀ p q, readerTrace ops = p ++ q → (∀ m ∈ p, m.input.Prompt m.pre) → ∀ socket ≠ 0,
      let c := connOf socket p
      c.returned.map some <+: builtOf c.came ∧
        ((final initSockets p).net.arrived socket = [] →
          c.returned.map some = builtOf c.came) := by
  intro p q split prompt socket hsocket
  have start : Ordered [] initSockets := by
    refine .inl ⟨rfl, fun k _ => ?_⟩
    exact ⟨Nat.zero_le 1, [], [], .none rfl rfl rfl rfl, .nothing, .nothing⟩
  have ordered : (∀ m ∈ p, m.input.Prompt m.pre) → Ordered p (final initSockets p) := by
    refine trace_history (fun tr s => (∀ m ∈ tr, m.input.Prompt m.pre) → Ordered tr s)
      (fun _ => start) (fun tr m hm h taken prompt => ?_) split
    have before := h fun m' mem => prompt m' (List.mem_append_left _ mem)
    exact before.concat (positive _ (trace_input_mem hm)) (prompt m (by simp)) taken
  exact (ordered prompt).exact hsocket

/-- PUBACK of message 7 comes in three parts, with a part of another packet on another socket in
between. -/
def sampleReads : List ReaderOp :=
  [.arrive 3 [64], .read 3, .arrive 5 [48, 9, 0], .read 5, .arrive 3 [2, 0], .read 3,
    .arrive 3 [7], .read 3]

theorem reader_exact_sample :
    connOf 3 (readerTrace sampleReads) =
        ⟨[64, 2, 0, 7], [.pack (.ack ⟨MsgTypes.puback, false, 0, false⟩ 7)]⟩ ∧
      (connOf 3 (readerTrace sampleReads)).returned.map some <+:
          builtOf (connOf 3 (readerTrace sampleReads)).came ∧
      ((final initSockets (readerTrace sampleReads)).net.arrived 3 = [] →
        (connOf 3 (readerTrace sampleReads)).returned.map some =
          builtOf (connOf 3 (readerTrace sampleReads)).came) :=
  ⟨by decide, reader_exact sampleReads (by simp [sampleReads, ReaderOp.socket]) _ []
    (List.append_nil _).symm (by decide +kernel) 3 (by decide)⟩

/-- Behind a length that is wrong there is no packet; one is returned if the socket is read again. -/
example : connOf 3 (readerTrace [.arrive 3 [48, 128, 128, 128, 128], .read 3,
      .arrive 3 [64, 2, 0, 7], .read 3]) =
    ⟨[48, 128, 128, 128, 128, 64, 2, 0, 7],
      [.pack (.ack ⟨MsgTypes.puback, false, 0, false⟩ 7)]⟩ ∧
    builtOf [48, 128, 128, 128, 128, 64, 2, 0, 7] = [] := by
  decide +kernel

end Siproxy.Mqtt
