import Siproxy.Lib.Keyed
import Siproxy.Lib.Machine
import Siproxy.Mqtt.Packet

/-!
# Writing packets to sockets

`Socket_putdatas` writes a packet to a socket that does not block.  Where only a part of it is
written, `SocketBuffer.c` keeps the packet in `writes`, the socket is in `write_pending`, and
`Socket_continueWrites` goes on with it later.  No packet is written to a socket that is in
`write_pending`.

* `writer_exact`: no run reads a null pointer, and what is sent on a connection, followed by what is
  pending, are the packets that were accepted for it, in order.
* `writer_drains`: where the socket can be written again and again, all of them are sent.
* `stale_write`: both need that no connection is closed with output pending.  `Socket_close` leaves
  the packet in `writes`, and its rest is sent on the next connection with the same socket.
-/

namespace Siproxy.Mqtt

open CString Machine

/-! ### The functions -/

/-- `pending_writes`; `total` and `count` are the lengths of `iovecs`. -/
structure PendingWrite where
  socket : ℤ
  bytes : ℕ
  iovecs : List (List Byte)
  deriving DecidableEq

/-- `write_pending` of `Socket.c`, and `writes` of `SocketBuffer.c`. -/
structure Writes where
  writePending : List ℤ
  writes : List PendingWrite
  deriving DecidableEq

/-- `Socket_noPendingWrites`. -/
def Writes.noPendingWrites (s : Writes) (socket : ℤ) : Prop := socket ∉ s.writePending

instance (s : Writes) (socket : ℤ) : Decidable (s.noPendingWrites socket) :=
  inferInstanceAs (Decidable (_ ∉ _))

/-- `Socket_putdatas`; `room` is how much `writev` takes, which fails without it.  Returns what is
written to the socket. -/
def putdatas (s : Writes) (socket : ℤ) (iovecs : List (List Byte)) (room : Option ℕ) :
    Except Rc (List Byte) × Writes :=
  if s.noPendingWrites socket then
    match room with
    | none => (.error .socketError, s)
    | some n =>
      let written := iovecs.flatten.take n
      if written.length = iovecs.flatten.length then (.ok written, s)
      else
        (.ok written, {
          writePending := s.writePending ++ [socket]
          writes := s.writes ++ [⟨socket, written.length, iovecs⟩] })
  else (.error .socketError, s)

/-- The loop of `Socket_continueWrite`: the buffers that are not written, up to the first one of
which a part is. -/
def remaining (bytes : ℕ) : ℕ → List (List Byte) → List (List Byte)
  | _, [] => []
  | curbuflen, v :: iovecs =>
    if bytes ≤ curbuflen then v :: remaining bytes (curbuflen + v.length) iovecs
    else if bytes < curbuflen + v.length then [v.drop (bytes - curbuflen)]
    else remaining bytes (curbuflen + v.length) iovecs

/-- `SocketBuffer_getWrite`.  `ListFindItem` tries the `current` element of the list first, and that
is the same entry while the socket has only one.  Of two, after a connection was closed with output
pending, it is the second one only if the entry in front of that was `current` and has been taken
out.  The results are about sockets with one entry, and about the first look at one with two. -/
def Writes.getWrite (s : Writes) (socket : ℤ) : Option PendingWrite :=
  Keyed.get PendingWrite.socket s.writes socket

/-- The write is complete, and the socket is taken out of both lists. -/
def Writes.complete (s : Writes) (socket : ℤ) : Writes where
  writePending := s.writePending.erase socket
  writes := Keyed.erase PendingWrite.socket s.writes socket

def PendingWrite.advance (n : ℕ) (pw : PendingWrite) : PendingWrite :=
  { pw with bytes := pw.bytes + n }

/-- More of the packet was written. -/
def Writes.advance (s : Writes) (socket : ℤ) (n : ℕ) : Writes :=
  { s with
    writes := Keyed.modifyFirst PendingWrite.socket socket (PendingWrite.advance n) s.writes }

/-- `Socket_continueWrite` and the step of `Socket_continueWrites` for its socket, where a write that
fails is taken out like one that is complete.  Without an entry a null pointer is read. -/
def continueWrite (s : Writes) (socket : ℤ) (room : Option ℕ) :
    Option (Except Rc (List Byte) × Writes) :=
  (s.getWrite socket).map fun pw =>
    match room with
    | none => (.error .socketError, s.complete socket)
    | some n =>
      let written := (remaining pw.bytes 0 pw.iovecs).flatten.take n
      if pw.bytes + written.length = pw.iovecs.flatten.length then
        (.ok written, s.complete socket)
      else (.ok written, s.advance socket written.length)

/-- What `Socket_close` does to the lists. -/
def Writes.close (s : Writes) (socket : ℤ) : Writes :=
  { s with writePending := s.writePending.erase socket }

/-! ### Runs -/

inductive WriterOp where
  | put (socket : ℤ) (iovecs : List (List Byte)) (room : Option ℕ)
  | continueWrite (socket : ℤ) (room : Option ℕ)
  | close (socket : ℤ)
  deriving DecidableEq

def WriterOp.socket : WriterOp → ℤ
  | .put socket _ _ | .continueWrite socket _ | .close socket => socket

inductive WriterOut where
  | accepted (socket : ℤ) (iovecs : List (List Byte))
  | wrote (socket : ℤ) (bytes : List Byte)
  | failed (socket : ℤ)
  | closed (socket : ℤ)
  deriving DecidableEq

/-- One step, which halts where a null pointer is read; `Socket_continueWrites` goes through
`write_pending` only. -/
def writerStep (s : Writes) : WriterOp → Except Unit (Writes × List WriterOut)
  | .put socket iovecs room =>
    match putdatas s socket iovecs room with
    | (.error _, s) => .ok (s, [])
    | (.ok written, s) => .ok (s, [.accepted socket iovecs, .wrote socket written])
  | .continueWrite socket room =>
    if s.noPendingWrites socket then .ok (s, [])
    else
      match continueWrite s socket room with
      | none => .error ()
      | some (.error _, s) => .ok (s, [.failed socket])
      | some (.ok written, s) => .ok (s, [.wrote socket written])
  | .close socket => .ok (s.close socket, [.closed socket])

def initWrites : Writes := ⟨[], []⟩

abbrev WriterMove := Move Writes WriterOp WriterOut

abbrev writerTrace (ops : List WriterOp) : List WriterMove := trace writerStep initWrites ops

/-- The packets that were accepted for the connection that a socket is used for, what was sent on it,
and whether a write of it that was continued has failed. -/
structure Sent where
  accepted : List (List (List Byte))
  bytes : List Byte
  failed : Bool
  deriving DecidableEq

def Sent.see (socket : ℤ) (c : Sent) : WriterOut → Sent
  | .accepted s iovecs => if s = socket then { c with accepted := c.accepted ++ [iovecs] } else c
  | .wrote s bytes => if s = socket then { c with bytes := c.bytes ++ bytes } else c
  | .failed s => if s = socket then { c with failed := true } else c
  | .closed s => if s = socket then ⟨[], [], false⟩ else c

def sentOf (socket : ℤ) (tr : List WriterMove) : Sent :=
  (tr.flatMap Move.outs).foldl (Sent.see socket) ⟨[], [], false⟩

/-- The bytes of the packets that were accepted. -/
def Sent.stream (c : Sent) : List Byte := c.accepted.flatten.flatten

/-- What is pending. -/
def Writes.rest (s : Writes) (socket : ℤ) : List Byte :=
  match s.getWrite socket with
  | none => []
  | some pw => pw.iovecs.flatten.drop pw.bytes

theorem sentOf_concat (socket : ℤ) (tr : List WriterMove) (m : WriterMove) :
    sentOf socket (tr ++ [m]) = m.outs.foldl (Sent.see socket) (sentOf socket tr) := by
  simp [sentOf]

/-! ### What is written -/

/-- The buffers behind those that are written hold a part of what is pending. -/
theorem remaining_flatten (bytes curbuflen : ℕ) (iovecs : List (List Byte)) :
    (remaining bytes curbuflen iovecs).flatten <+: iovecs.flatten.drop (bytes - curbuflen) := by
  induction iovecs generalizing curbuflen with
  | nil => simp [remaining]
  | cons v iovecs ih =>
    have next := ih (curbuflen + v.length)
    rw [remaining, List.flatten_cons, List.drop_append]
    split_ifs with before within
    · have none : bytes - curbuflen = 0 := by omega
      have behind : bytes - (curbuflen + v.length) = 0 := by omega
      rw [none, Nat.zero_sub, List.drop_zero, List.drop_zero, List.flatten_cons]
      rw [behind, List.drop_zero] at next
      exact (List.prefix_append_right_inj v).2 next
    · rw [List.flatten_singleton]
      exact List.prefix_append _ _
    · have past : v.drop (bytes - curbuflen) = [] := List.drop_eq_nil_of_le (by omega)
      rw [past, List.nil_append, Nat.sub_sub]
      exact next

/-- Where something is pending, something of it is in the buffers. -/
theorem remaining_ne_nil {bytes curbuflen : ℕ} {iovecs : List (List Byte)}
    (pending : bytes < curbuflen + iovecs.flatten.length) (reached : curbuflen ≤ bytes) :
    (remaining bytes curbuflen iovecs).flatten ≠ [] := by
  induction iovecs generalizing curbuflen with
  | nil =>
    rw [List.flatten_nil, List.length_nil] at pending
    omega
  | cons v iovecs ih =>
    rw [List.flatten_cons, List.length_append] at pending
    rw [remaining]
    split_ifs with before within
    · intro none
      rw [List.flatten_cons, List.append_eq_nil_iff] at none
      rw [none.1, List.length_nil] at pending
      rw [none.1, List.length_nil, Nat.add_zero] at none
      exact ih (by omega) reached none.2
    · rw [List.flatten_singleton]
      intro none
      rw [List.drop_eq_nil_iff] at none
      omega
    · exact ih (by omega) (by omega)

theorem written_ne_nil {pw : PendingWrite} {n : ℕ} (short : pw.bytes < pw.iovecs.flatten.length)
    (room : 0 < n) : (remaining pw.bytes 0 pw.iovecs).flatten.take n ≠ [] := by
  have more : (remaining pw.bytes 0 pw.iovecs).flatten ≠ [] :=
    remaining_ne_nil (by omega) (Nat.zero_le pw.bytes)
  rw [ne_eq, List.take_eq_nil_iff]
  exact fun none => none.elim (by omega) more

/-! ### One step -/

/-- What a step does. -/
inductive Writing (s : Writes) : WriterOp → List WriterOut → Writes → Prop
  | refuse {socket iovecs room} : Writing s (.put socket iovecs room) [] s
  | whole {socket iovecs room} (free : s.noPendingWrites socket) :
    Writing s (.put socket iovecs room)
      [.accepted socket iovecs, .wrote socket iovecs.flatten] s
  | part {socket iovecs n} (free : s.noPendingWrites socket)
    (short : n < iovecs.flatten.length) :
    Writing s (.put socket iovecs (some n))
      [.accepted socket iovecs, .wrote socket (iovecs.flatten.take n)]
      ⟨s.writePending ++ [socket], s.writes ++ [⟨socket, n, iovecs⟩]⟩
  | idle {socket room} (free : s.noPendingWrites socket) :
    Writing s (.continueWrite socket room) [] s
  | fail {socket pw} (pending : ¬ s.noPendingWrites socket) (found : s.getWrite socket = some pw) :
    Writing s (.continueWrite socket none) [.failed socket] (s.complete socket)
  | complete {socket pw n w} (pending : ¬ s.noPendingWrites socket)
    (found : s.getWrite socket = some pw)
    (written : w = (remaining pw.bytes 0 pw.iovecs).flatten.take n)
    (all : pw.bytes + w.length = pw.iovecs.flatten.length) :
    Writing s (.continueWrite socket (some n)) [.wrote socket w] (s.complete socket)
  | advance {socket pw n w} (pending : ¬ s.noPendingWrites socket)
    (found : s.getWrite socket = some pw)
    (written : w = (remaining pw.bytes 0 pw.iovecs).flatten.take n)
    (partly : pw.bytes + w.length ≠ pw.iovecs.flatten.length) :
    Writing s (.continueWrite socket (some n)) [.wrote socket w] (s.advance socket w.length)
  | close {socket} : Writing s (.close socket) [.closed socket] (s.close socket)

theorem putdatas_writing (s : Writes) (socket : ℤ) (iovecs : List (List Byte)) (room : Option ℕ) :
    ∃ s' outs, writerStep s (.put socket iovecs room) = .ok (s', outs) ∧
      Writing s (.put socket iovecs room) outs s' := by
  unfold writerStep putdatas
  dsimp only
  by_cases free : s.noPendingWrites socket
  · rw [if_pos free]
    cases room with
    | none => exact ⟨s, [], rfl, .refuse⟩
    | some n =>
      dsimp only
      by_cases short : n < iovecs.flatten.length
      · have written : (iovecs.flatten.take n).length = n := by
          rw [List.length_take]
          omega
        rw [written, if_neg (by omega)]
        exact ⟨_, _, rfl, .part free short⟩
      · have all : iovecs.flatten.take n = iovecs.flatten := List.take_of_length_le (by omega)
        rw [all, if_pos rfl]
        exact ⟨_, _, rfl, .whole free⟩
  · rw [if_neg free]
    exact ⟨s, [], rfl, .refuse⟩

theorem continueWrite_writing {s : Writes} {socket : ℤ}
    (known : ¬ s.noPendingWrites socket → (s.getWrite socket).isSome) (room : Option ℕ) :
    ∃ s' outs, writerStep s (.continueWrite socket room) = .ok (s', outs) ∧
      Writing s (.continueWrite socket room) outs s' := by
  unfold writerStep continueWrite
  dsimp only
  by_cases free : s.noPendingWrites socket
  · rw [if_pos free]
    exact ⟨s, [], rfl, .idle free⟩
  · obtain ⟨pw, found⟩ := Option.isSome_iff_exists.1 (known free)
    rw [if_neg free, found, Option.map_some]
    cases room with
    | none => exact ⟨_, _, rfl, .fail free found⟩
    | some n =>
      dsimp only
      split_ifs with all
      · exact ⟨_, _, rfl, .complete free found rfl all⟩
      · exact ⟨_, _, rfl, .advance free found rfl all⟩

/-! ### Every run -/

/-- A socket that is in `write_pending` is in it once, and has an entry that is not complete. -/
structure Writes.Inv (s : Writes) : Prop where
  once : ∀ socket, s.writePending.count socket ≤ 1
  known : ∀ socket, s.writePending.count socket ≤ (s.writes.map PendingWrite.socket).count socket
  short : ∀ pw ∈ s.writes, pw.bytes < pw.iovecs.flatten.length

theorem Writes.noPendingWrites_iff (s : Writes) (socket : ℤ) :
    s.noPendingWrites socket ↔ s.writePending.count socket = 0 :=
  List.count_eq_zero.symm

theorem Writes.Inv.init : initWrites.Inv where
  once socket := by simp [initWrites]
  known socket := by simp [initWrites]
  short := by simp [initWrites]

theorem Writes.Inv.isSome {s : Writes} (inv : s.Inv) {socket : ℤ}
    (pending : ¬ s.noPendingWrites socket) : (s.getWrite socket).isSome := by
  rw [s.noPendingWrites_iff] at pending
  have known := inv.known socket
  apply Keyed.get_isSome_iff.2
  apply List.count_pos_iff.1
  omega

theorem writerStep_writing {s : Writes} (inv : s.Inv) (op : WriterOp) :
    ∃ s' outs, writerStep s op = .ok (s', outs) ∧ Writing s op outs s' := by
  cases op with
  | put socket iovecs room => exact putdatas_writing s socket iovecs room
  | continueWrite socket room => exact continueWrite_writing inv.isSome room
  | close socket => exact ⟨_, _, rfl, .close⟩

theorem count_complete (s : Writes) (socket k : ℤ) :
    (s.complete socket).writePending.count k =
        s.writePending.count k - (if socket = k then 1 else 0) ∧
      ((s.complete socket).writes.map PendingWrite.socket).count k =
        (s.writes.map PendingWrite.socket).count k - (if socket = k then 1 else 0) := by
  unfold Writes.complete
  constructor
  · rw [List.count_erase]
    simp
  · rw [Keyed.map_key_erase, List.count_erase]
    simp

theorem Writes.map_socket_advance (s : Writes) (socket : ℤ) (n : ℕ) :
    (s.advance socket n).writes.map PendingWrite.socket = s.writes.map PendingWrite.socket :=
  Keyed.map_modifyFirst (by intro a; rfl) socket s.writes

theorem Writes.getWrite_advance (s : Writes) (socket k : ℤ) (n : ℕ) :
    (s.advance socket n).getWrite k =
      if k = socket then (s.getWrite socket).map (PendingWrite.advance n) else s.getWrite k :=
  Keyed.get_modifyFirst (by intro a; rfl) socket k s.writes

theorem Writes.Inv.complete {s : Writes} (inv : s.Inv) (socket : ℤ) : (s.complete socket).Inv where
  once k := by
    have once := inv.once k
    rw [(count_complete s socket k).1]
    omega
  known k := by
    have known := inv.known k
    rw [(count_complete s socket k).1, (count_complete s socket k).2]
    omega
  short pw mem := inv.short pw (Keyed.mem_of_mem_erase mem)

/-- What is written when a write is continued is the next part of the packet. -/
theorem written_next {pw : PendingWrite} {n : ℕ} {w : List Byte}
    (written : w = (remaining pw.bytes 0 pw.iovecs).flatten.take n) :
    w <+: pw.iovecs.flatten.drop pw.bytes := by
  rw [written]
  exact (List.take_prefix n _).trans (remaining_flatten pw.bytes 0 pw.iovecs)

theorem Writing.keep {s s' : Writes} {op : WriterOp} {outs : List WriterOut}
    (h : Writing s op outs s') (inv : s.Inv) : s'.Inv := by
  cases h with
  | refuse => exact inv
  | whole => exact inv
  | idle => exact inv
  | @part socket iovecs n free short =>
    rw [s.noPendingWrites_iff] at free
    refine ⟨fun k => ?_, fun k => ?_, fun pw mem => ?_⟩
    · have once := inv.once k
      rw [List.count_append, List.count_singleton]
      split_ifs with same
      · rw [beq_iff_eq] at same
        subst same
        omega
      · omega
    · have known := inv.known k
      rw [List.count_append, List.map_append, List.count_append, List.map_singleton]
      exact Nat.add_le_add_right known _
    · rcases List.mem_append.1 mem with old | new
      · exact inv.short pw old
      · rw [List.mem_singleton.1 new]
        exact short
  | fail => exact inv.complete _
  | complete => exact inv.complete _
  | @advance socket pw n w pending found written partly =>
    refine ⟨inv.once, fun k => ?_, fun pw' mem => ?_⟩
    · rw [s.map_socket_advance]
      exact inv.known k
    · rcases Keyed.mem_modifyFirst mem with old | ⟨a, got, rfl⟩
      · exact inv.short pw' old
      · rw [Writes.getWrite, got] at found
        obtain rfl := Option.some.inj found
        have room := (written_next written).length_le
        have short := inv.short a (Keyed.get_mem got).1
        rw [List.length_drop] at room
        change a.bytes + w.length < a.iovecs.flatten.length
        omega
  | @close socket =>
    refine ⟨fun k => ?_, fun k => ?_, inv.short⟩
    · have once := inv.once k
      unfold Writes.close
      rw [List.count_erase]
      omega
    · have known := inv.known k
      unfold Writes.close
      rw [List.count_erase]
      dsimp only
      omega

/-! ### One connection -/

/-- There is no entry of an older connection, and what was sent, followed by what is pending, is what
was accepted. -/
structure Told (k : ℤ) (c : Sent) (s : Writes) : Prop where
  fresh : (s.writes.map PendingWrite.socket).count k = s.writePending.count k
  stream : c.failed = false → c.stream = c.bytes ++ s.rest k

theorem Writes.rest_congr {s s' : Writes} {k : ℤ} (h : s'.getWrite k = s.getWrite k) :
    s'.rest k = s.rest k := by
  rw [Writes.rest, h, Writes.rest]

theorem Writes.rest_of_found {s : Writes} {k : ℤ} {pw : PendingWrite}
    (found : s.getWrite k = some pw) : s.rest k = pw.iovecs.flatten.drop pw.bytes := by
  rw [Writes.rest, found]

theorem Told.rest_free {s : Writes} {k : ℤ} {c : Sent} (told : Told k c s)
    (free : s.noPendingWrites k) : s.getWrite k = none ∧ s.rest k = [] := by
  rw [s.noPendingWrites_iff, ← told.fresh, List.count_eq_zero] at free
  have none : s.getWrite k = none := Keyed.get_none_iff_notMem.2 free
  exact ⟨none, by rw [Writes.rest, none]⟩

theorem Told.complete {s : Writes} {k : ℤ} {c : Sent} (told : Told k c s) (inv : s.Inv) :
    ((s.complete k).writes.map PendingWrite.socket).count k = (s.complete k).writePending.count k ∧
      (s.complete k).rest k = [] := by
  have once := inv.once k
  have gone : (s.complete k).getWrite k = none := by
    apply Keyed.get_erase_self
    rw [told.fresh]
    exact once
  refine ⟨?_, by rw [Writes.rest, gone]⟩
  rw [(count_complete s k k).1, (count_complete s k k).2, told.fresh]

theorem Writing.other {s s' : Writes} {op : WriterOp} {outs : List WriterOut} {k : ℤ}
    (h : Writing s op outs s') (apart : op.socket ≠ k) :
    s'.getWrite k = s.getWrite k ∧ s'.writePending.count k = s.writePending.count k ∧
      (s'.writes.map PendingWrite.socket).count k = (s.writes.map PendingWrite.socket).count k ∧
      ∀ c, outs.foldl (Sent.see k) c = c := by
  have removed (socket : ℤ) (hne : socket ≠ k) : (s.complete socket).getWrite k = s.getWrite k ∧
      (s.complete socket).writePending.count k = s.writePending.count k ∧
      ((s.complete socket).writes.map PendingWrite.socket).count k =
        (s.writes.map PendingWrite.socket).count k := by
    have counts := count_complete s socket k
    rw [if_neg hne] at counts
    exact ⟨Keyed.get_erase_ne (Ne.symm hne) s.writes, counts⟩
  cases h with
  | refuse => exact ⟨rfl, rfl, rfl, fun _ => rfl⟩
  | idle => exact ⟨rfl, rfl, rfl, fun _ => rfl⟩
  | @whole socket =>
    have hne : socket ≠ k := apart
    exact ⟨rfl, rfl, rfl, fun c => by simp [Sent.see, hne]⟩
  | @part socket iovecs n =>
    have hne : socket ≠ k := apart
    refine ⟨?_, by simp [hne], by simp [hne], fun c => by simp [Sent.see, hne]⟩
    unfold Writes.getWrite
    rw [Keyed.get_append]
    simp [Keyed.get, hne]
  | @fail socket =>
    have hne : socket ≠ k := apart
    obtain ⟨get, pending, entries⟩ := removed socket hne
    exact ⟨get, pending, entries, fun c => by simp [Sent.see, hne]⟩
  | @complete socket =>
    have hne : socket ≠ k := apart
    obtain ⟨get, pending, entries⟩ := removed socket hne
    exact ⟨get, pending, entries, fun c => by simp [Sent.see, hne]⟩
  | @advance socket pw n w =>
    have hne : socket ≠ k := apart
    refine ⟨?_, rfl, by rw [s.map_socket_advance], fun c => by simp [Sent.see, hne]⟩
    rw [s.getWrite_advance, if_neg (Ne.symm hne)]
  | @close socket =>
    have hne : socket ≠ k := apart
    exact ⟨rfl, List.count_erase_of_ne (Ne.symm hne), rfl, fun c => by simp [Sent.see, hne]⟩

/-! The steps for the socket itself. -/

section Told

variable {s : Writes} {k : ℤ} {c : Sent} {iovecs : List (List Byte)} {pw : PendingWrite}
  {n : ℕ} {w : List Byte}

/-- With nothing pending, all that was accepted is sent. -/
theorem Told.stream_free (told : Told k c s) (free : s.noPendingWrites k)
    (well : c.failed = false) : c.accepted.flatten.flatten = c.bytes := by
  have before := told.stream well
  rwa [(told.rest_free free).2, List.append_nil] at before

theorem Told.whole (told : Told k c s) (free : s.noPendingWrites k) :
    Told k ([.accepted k iovecs, .wrote k iovecs.flatten].foldl (Sent.see k) c) s := by
  refine ⟨told.fresh, fun well => ?_⟩
  simp only [List.foldl_cons, List.foldl_nil, Sent.see, if_pos] at well ⊢
  unfold Sent.stream
  rw [(told.rest_free free).2, List.append_nil, ← told.stream_free free well]
  simp

theorem Told.part (told : Told k c s) (free : s.noPendingWrites k) :
    Told k ([.accepted k iovecs, .wrote k (iovecs.flatten.take n)].foldl (Sent.see k) c)
      ⟨s.writePending ++ [k], s.writes ++ [⟨k, n, iovecs⟩]⟩ := by
  have found : Writes.getWrite ⟨s.writePending ++ [k], s.writes ++ [⟨k, n, iovecs⟩]⟩ k =
      some ⟨k, n, iovecs⟩ := by
    have none := (told.rest_free free).1
    unfold Writes.getWrite at none ⊢
    rw [Keyed.get_concat none, if_pos rfl]
  refine ⟨?_, fun well => ?_⟩
  · rw [List.map_append, List.count_append, List.count_append, told.fresh]
    rfl
  · simp only [List.foldl_cons, List.foldl_nil, Sent.see, if_pos] at well ⊢
    unfold Sent.stream
    rw [Writes.rest_of_found found, ← told.stream_free free well]
    simp

theorem Told.fail (told : Told k c s) (inv : s.Inv) :
    Told k ([.failed k].foldl (Sent.see k) c) (s.complete k) :=
  ⟨(told.complete inv).1, fun well => by simp [Sent.see] at well⟩

theorem Told.last (told : Told k c s) (inv : s.Inv) (found : s.getWrite k = some pw)
    (written : w = (remaining pw.bytes 0 pw.iovecs).flatten.take n)
    (all : pw.bytes + w.length = pw.iovecs.flatten.length) :
    Told k ([.wrote k w].foldl (Sent.see k) c) (s.complete k) := by
  refine ⟨(told.complete inv).1, fun well => ?_⟩
  simp only [List.foldl_cons, List.foldl_nil, Sent.see, if_pos] at well ⊢
  have before := told.stream well
  have whole : w = pw.iovecs.flatten.drop pw.bytes := by
    apply (written_next written).eq_of_length
    rw [List.length_drop]
    omega
  rw [Writes.rest_of_found found] at before
  unfold Sent.stream at before ⊢
  rw [(told.complete inv).2, List.append_nil, before, whole]

theorem Told.advance (told : Told k c s) (found : s.getWrite k = some pw)
    (written : w = (remaining pw.bytes 0 pw.iovecs).flatten.take n) :
    Told k ([.wrote k w].foldl (Sent.see k) c) (s.advance k w.length) := by
  have moved := s.getWrite_advance k k w.length
  rw [if_pos rfl, found, Option.map_some] at moved
  refine ⟨?_, fun well => ?_⟩
  · rw [s.map_socket_advance]
    exact told.fresh
  · simp only [List.foldl_cons, List.foldl_nil, Sent.see, if_pos] at well ⊢
    have before := told.stream well
    obtain ⟨behind, next⟩ := written_next written
    rw [Writes.rest_of_found found, ← next] at before
    unfold Sent.stream at before ⊢
    rw [Writes.rest_of_found moved, before, PendingWrite.advance, ← List.drop_drop, ← next]
    simp

theorem Told.close (told : Told k c s) (free : s.noPendingWrites k) :
    Told k ([.closed k].foldl (Sent.see k) c) (s.close k) := by
  have erased : (s.close k).writePending = s.writePending.erase k := rfl
  have kept : (s.close k).rest k = s.rest k := rfl
  refine ⟨?_, fun _ => ?_⟩
  · rw [erased, List.erase_of_not_mem free]
    exact told.fresh
  · rw [kept, (told.rest_free free).2]
    simp [Sent.see, Sent.stream]

end Told

theorem Writing.told {s s' : Writes} {op : WriterOp} {outs : List WriterOut} {k : ℤ} {c : Sent}
    (h : Writing s op outs s') (inv : s.Inv) (told : Told k c s)
    (closed : op = .close k → s.noPendingWrites k) :
    Told k (outs.foldl (Sent.see k) c) s' := by
  by_cases same : op.socket = k
  · subst same
    cases h with
    | refuse => exact told
    | idle => exact told
    | whole free => exact told.whole free
    | part free => exact told.part free
    | fail => exact told.fail inv
    | complete _ found written all => exact told.last inv found written all
    | advance _ found written => exact told.advance found written
    | close => exact told.close (closed rfl)
  · obtain ⟨get, pending, entries, silent⟩ := h.other same
    rw [silent]
    refine ⟨by rw [entries, pending, told.fresh], fun well => ?_⟩
    rw [Writes.rest_congr get]
    exact told.stream well

theorem Told.init (k : ℤ) : Told k ⟨[], [], false⟩ initWrites where
  fresh := rfl
  stream _ := rfl

theorem writing_of_step {s s' : Writes} {op : WriterOp} {outs : List WriterOut} (inv : s.Inv)
    (step : writerStep s op = .ok (s', outs)) : Writing s op outs s' := by
  obtain ⟨t, o, taken, writing⟩ := writerStep_writing inv op
  rw [step] at taken
  obtain ⟨rfl, rfl⟩ := Prod.mk.inj (Except.ok.inj taken)
  exact writing

theorem writer_inv (ops : List WriterOp) : (final initWrites (writerTrace ops)).Inv :=
  trace_history (fun _ s => s.Inv) Writes.Inv.init
    (fun _ _ _ inv step => (writing_of_step inv step).keep inv) (List.append_nil _).symm

theorem writer_goes (ops : List WriterOp) : halt? writerStep initWrites ops = none := by
  cases h : halt? writerStep initWrites ops with
  | none => rfl
  | some e =>
    obtain ⟨s, op, -, inv, halts⟩ := halt_cause Writes.Inv Writes.Inv.init
      (fun _ _ _ _ _ inv step => (writing_of_step inv step).keep inv) h
    obtain ⟨s', outs, taken, -⟩ := writerStep_writing inv op
    rw [halts] at taken
    cases taken

theorem writer_told {ops : List WriterOp} {k : ℤ}
    (closed : ∀ m ∈ writerTrace ops, m.input = .close k → m.pre.noPendingWrites k) :
    Told k (sentOf k (writerTrace ops)) (final initWrites (writerTrace ops)) := by
  have both := trace_history (p := writerTrace ops) (q := [])
    (fun tr s => s.Inv ∧ Told k (sentOf k tr) s) ⟨Writes.Inv.init, Told.init k⟩
    (fun tr m mem before step => by
      obtain ⟨inv, told⟩ := before
      have writing := writing_of_step inv step
      rw [sentOf_concat]
      exact ⟨writing.keep inv, writing.told inv told (closed m mem)⟩)
    (List.append_nil _).symm
  exact both.2

/-- No run reads a null pointer.  If the connections on a socket are only closed with nothing
pending, then what was sent on the last of them and what is pending are the packets that were
accepted for it, in order, unless a write that was continued has failed; a socket that is not in
`write_pending` has nothing pending. -/
theorem writer_exact (ops : List WriterOp) (k : ℤ)
    (closed : ∀ m ∈ writerTrace ops, m.input = .close k → m.pre.noPendingWrites k) :
    let s := final initWrites (writerTrace ops)
    let c := sentOf k (writerTrace ops)
    halt? writerStep initWrites ops = none ∧
      (c.failed = false → c.stream = c.bytes ++ s.rest k) ∧
      (s.noPendingWrites k ↔ s.rest k = []) := by
  intro s c
  have told : Told k c s := writer_told closed
  refine ⟨writer_goes ops, told.stream, fun free => (told.rest_free free).2, fun none => ?_⟩
  by_contra pending
  have inv : s.Inv := writer_inv ops
  obtain ⟨pw, found⟩ := Option.isSome_iff_exists.1 (inv.isSome pending)
  have short := inv.short pw (Keyed.get_mem found).1
  rw [Writes.rest_of_found found, List.drop_eq_nil_iff] at none
  omega

/-- A packet of two buffers that is written in three parts, with a write for another socket and a
refused one in-between. -/
def sampleWrites : List WriterOp :=
  [.put 4 [[64, 2], [0, 7]] (some 1), .put 6 [[192, 0]] (some 2), .put 4 [[192, 0]] (some 2),
    .continueWrite 4 (some 1)]

theorem writer_exact_sample :
    sentOf 4 (writerTrace sampleWrites) = ⟨[[[64, 2], [0, 7]]], [64, 2], false⟩ ∧
      halt? writerStep initWrites sampleWrites = none ∧
      ((sentOf 4 (writerTrace sampleWrites)).failed = false →
        (sentOf 4 (writerTrace sampleWrites)).stream =
          (sentOf 4 (writerTrace sampleWrites)).bytes ++
            (final initWrites (writerTrace sampleWrites)).rest 4) ∧
      ((final initWrites (writerTrace sampleWrites)).noPendingWrites 4 ↔
        (final initWrites (writerTrace sampleWrites)).rest 4 = []) :=
  ⟨by decide, writer_exact sampleWrites 4 (by decide)⟩

/-! ### What is pending is sent -/

/-- A write that is continued with some room leaves less pending. -/
theorem continueWrite_less {s : Writes} {k : ℤ} {c : Sent} (inv : s.Inv) (told : Told k c s)
    (well : c.failed = false) {n : ℕ} (room : 0 < n) :
    ∃ s' outs, writerStep s (.continueWrite k (some n)) = .ok (s', outs) ∧ s'.Inv ∧
      Told k (outs.foldl (Sent.see k) c) s' ∧ (outs.foldl (Sent.see k) c).failed = false ∧
      (outs.foldl (Sent.see k) c).accepted = c.accepted ∧
      (s'.rest k).length ≤ (s.rest k).length - 1 := by
  obtain ⟨s', outs, taken, writing⟩ := writerStep_writing inv (.continueWrite k (some n))
  have told' := writing.told inv told (by simp)
  refine ⟨s', outs, taken, writing.keep inv, told', ?_⟩
  cases writing with
  | idle free =>
    refine ⟨well, rfl, ?_⟩
    rw [(told.rest_free free).2]
    exact Nat.zero_le _
  | complete pending found written all =>
    refine ⟨by simpa [Sent.see] using well, by simp [Sent.see], ?_⟩
    rw [(told.complete inv).2]
    exact Nat.zero_le _
  | @advance socket pw n w pending found written partly =>
    refine ⟨by simpa [Sent.see] using well, by simp [Sent.see], ?_⟩
    have some : w ≠ [] := by
      rw [written]
      exact written_ne_nil (inv.short pw (Keyed.get_mem found).1) room
    have moved := s.getWrite_advance k k w.length
    rw [if_pos rfl, found, Option.map_some] at moved
    rw [Writes.rest_of_found moved, Writes.rest_of_found found, PendingWrite.advance,
      ← List.drop_drop, List.length_drop]
    have wrote := List.length_pos_iff.2 some
    dsimp only
    omega

theorem continueWrite_drains {s : Writes} {k : ℤ} {c : Sent} (inv : s.Inv) (told : Told k c s)
    (well : c.failed = false) {rooms : List ℕ} (room : ∀ n ∈ rooms, 0 < n)
    (enough : (s.rest k).length ≤ rooms.length) :
    let tr := trace writerStep s (rooms.map fun n => .continueWrite k (some n))
    ((tr.flatMap Move.outs).foldl (Sent.see k) c).bytes = c.stream := by
  induction rooms generalizing s c with
  | nil =>
    have none : s.rest k = [] := List.length_eq_zero_iff.1 (Nat.le_zero.1 enough)
    have stream := told.stream well
    rw [none, List.append_nil] at stream
    exact stream.symm
  | cons n rooms ih =>
    obtain ⟨s', outs, taken, inv', told', well', same, less⟩ :=
      continueWrite_less inv told well (room n List.mem_cons_self)
    rw [List.length_cons] at enough
    have rest := ih inv' told' well' (fun n mem => room n (List.mem_cons_of_mem _ mem)) (by omega)
    rw [List.map_cons, trace, taken]
    dsimp only at rest ⊢
    rw [List.flatMap_cons, List.foldl_append, rest, Sent.stream, same, Sent.stream]

/-- Where the socket of a connection can be written again and again, everything that was accepted for
the connection is sent. -/
theorem writer_drains (ops : List WriterOp) (k : ℤ)
    (closed : ∀ m ∈ writerTrace ops, m.input = .close k → m.pre.noPendingWrites k)
    (well : (sentOf k (writerTrace ops)).failed = false) (rooms : List ℕ)
    (room : ∀ n ∈ rooms, 0 < n)
    (enough : ((final initWrites (writerTrace ops)).rest k).length ≤ rooms.length) :
    (sentOf k (writerTrace (ops ++ rooms.map fun n => .continueWrite k (some n)))).bytes =
      (sentOf k (writerTrace ops)).stream := by
  have rest := continueWrite_drains (writer_inv ops) (writer_told closed) well room enough
  rw [writerTrace, trace_append (writer_goes ops), sentOf, List.flatMap_append, List.foldl_append]
  exact rest

theorem writer_drains_sample :
    (sentOf 4 (writerTrace (sampleWrites ++ [1, 9].map fun n => .continueWrite 4 (some n)))).bytes =
        (sentOf 4 (writerTrace sampleWrites)).stream ∧
      (sentOf 4 (writerTrace sampleWrites)).stream = [64, 2, 0, 7] :=
  ⟨writer_drains sampleWrites 4 (by decide) (by decide) [1, 9] (by decide) (by decide), by decide⟩

/-! ### Closing with output pending -/

theorem putdatas_part {s : Writes} {socket : ℤ} {iovecs : List (List Byte)} {n : ℕ}
    (free : s.noPendingWrites socket) (short : n < iovecs.flatten.length) :
    writerStep s (.put socket iovecs (some n)) =
      .ok (⟨s.writePending ++ [socket], s.writes ++ [⟨socket, n, iovecs⟩]⟩,
        [.accepted socket iovecs, .wrote socket (iovecs.flatten.take n)]) := by
  have written : (iovecs.flatten.take n).length = n := by
    rw [List.length_take]
    omega
  unfold writerStep putdatas
  dsimp only
  rw [if_pos free, written, if_neg (by omega)]

theorem continueWrite_wrote {s : Writes} {socket : ℤ} {pw : PendingWrite}
    (pending : ¬ s.noPendingWrites socket) (found : s.getWrite socket = some pw) (m : ℕ) :
    ∃ s', writerStep s (.continueWrite socket (some m)) =
      .ok (s', [.wrote socket ((remaining pw.bytes 0 pw.iovecs).flatten.take m)]) := by
  unfold writerStep continueWrite
  dsimp only
  rw [if_neg pending, found, Option.map_some]
  split_ifs
  · exact ⟨_, rfl⟩
  · exact ⟨_, rfl⟩

/-- A connection is closed with output pending, the first one on its socket.  On the next connection
with the same socket, a write that is only done in part is continued with the next part of what was
accepted for the old one.  `Socket_close` frees none of its buffers; the topic and the payload of a
PUBLISH may be freed with the session, and then what is sent is read from freed memory. -/
theorem stale_write (ops : List WriterOp) (k : ℤ) (iovecs : List (List Byte)) (n m : ℕ)
    (closed : ∀ m ∈ writerTrace ops, m.input = .close k → m.pre.noPendingWrites k)
    (pending : ¬ (final initWrites (writerTrace ops)).noPendingWrites k)
    (well : (sentOf k (writerTrace ops)).failed = false)
    (short : n < iovecs.flatten.length) (room : 0 < m) :
    ∃ old, old ≠ [] ∧
      (sentOf k (writerTrace ops)).bytes ++ old <+: (sentOf k (writerTrace ops)).stream ∧
      sentOf k (writerTrace
          (ops ++ [.close k, .put k iovecs (some n), .continueWrite k (some m)])) =
        ⟨[iovecs], iovecs.flatten.take n ++ old, false⟩ := by
  have stream := (writer_told closed).stream well
  set s := final initWrites (writerTrace ops) with hs
  have inv : s.Inv := writer_inv ops
  obtain ⟨pw, found⟩ := Option.isSome_iff_exists.1 (inv.isSome pending)
  have unwritten := inv.short pw (Keyed.get_mem found).1
  -- the entry of the old packet stays in `writes`, before the new one
  have free : (s.close k).noPendingWrites k := by
    have once := inv.once k
    rw [Writes.noPendingWrites_iff, Writes.close, List.count_erase_self]
    omega
  have stale : Writes.getWrite ⟨(s.close k).writePending ++ [k],
      (s.close k).writes ++ [⟨k, n, iovecs⟩]⟩ k = some pw := by
    unfold Writes.getWrite at found ⊢
    rw [Keyed.get_append, Writes.close, found, Option.some_or]
  obtain ⟨s', continued⟩ := continueWrite_wrote
    (fun gone => gone (List.mem_append_right _ List.mem_cons_self)) stale m
  refine ⟨(remaining pw.bytes 0 pw.iovecs).flatten.take m, written_ne_nil unwritten room, ?_, ?_⟩
  · rw [stream, Writes.rest_of_found found, List.prefix_append_right_inj]
    exact written_next rfl
  · have last : trace writerStep s [.close k, .put k iovecs (some n), .continueWrite k (some m)] =
        [⟨s, .close k, [.closed k], s.close k⟩,
          ⟨s.close k, .put k iovecs (some n),
            [.accepted k iovecs, .wrote k (iovecs.flatten.take n)],
            ⟨(s.close k).writePending ++ [k], (s.close k).writes ++ [⟨k, n, iovecs⟩]⟩⟩,
          ⟨⟨(s.close k).writePending ++ [k], (s.close k).writes ++ [⟨k, n, iovecs⟩]⟩,
            .continueWrite k (some m),
            [.wrote k ((remaining pw.bytes 0 pw.iovecs).flatten.take m)], s'⟩] := by
      have closing : writerStep s (.close k) = .ok (s.close k, [.closed k]) := rfl
      simp only [trace, closing, putdatas_part free short, continued]
    rw [writerTrace, trace_append (writer_goes ops), ← writerTrace, ← hs, last, sentOf,
      List.flatMap_append, List.foldl_append]
    simp [Sent.see]

theorem stale_write_sample :
    (∃ old, old ≠ [] ∧ (sentOf 4 (writerTrace sampleWrites)).bytes ++ old <+:
        (sentOf 4 (writerTrace sampleWrites)).stream ∧
      sentOf 4 (writerTrace
          (sampleWrites ++ [.close 4, .put 4 [[192], [0]] (some 1), .continueWrite 4 (some 1)])) =
        ⟨[[[192], [0]]], [192] ++ old, false⟩) ∧
      sentOf 4 (writerTrace sampleWrites) = ⟨[[[64, 2], [0, 7]]], [64, 2], false⟩ :=
  ⟨stale_write sampleWrites 4 [[192], [0]] 1 1 (by decide) (by decide) (by decide) (by decide)
    (by decide), by decide⟩

end Siproxy.Mqtt
