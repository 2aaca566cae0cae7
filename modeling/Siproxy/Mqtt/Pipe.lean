import Siproxy.Mqtt.Reader
import Siproxy.Mqtt.Writer

/-!
# One direction of a connection

Packets are written to a socket at one end of a connection, in as many parts as the socket takes,
come to the other end in any other parts, and are read there, in as many attempts as it takes.

`Pipe.Carries`: what is read are the packets that were written, one by one and in order
(`Pipe.Carries.read`), whatever the parts are and whether or not a write fails.
-/

namespace Siproxy.Mqtt

open CString Machine

/-! ### The writing end -/

section Writes

variable {s s' : Writes} {k j : ℤ} {op : WriterOp} {outs : List WriterOut}

theorem Writing.others (h : Writing s op outs s') (apart : j ≠ op.socket)
    (free : s.noPendingWrites j) : s'.noPendingWrites j := by
  rw [Writes.noPendingWrites_iff] at free ⊢
  rw [(h.other (Ne.symm apart)).2.1, free]

/-- Every entry of the socket is in `write_pending`. -/
def Writes.Fresh (s : Writes) (k : ℤ) : Prop :=
  (s.writes.map PendingWrite.socket).count k = s.writePending.count k

theorem Writes.Fresh.told (fresh : s.Fresh k) : Told k ⟨[[s.rest k]], [], false⟩ s :=
  ⟨fresh, fun _ => by simp [Sent.stream]⟩

theorem putdatas_rest (inv : s.Inv) (fresh : s.Fresh k) (free : s.noPendingWrites k)
    (iovecs : List (List Byte)) (room : Option ℕ) :
    ∃ r s', putdatas s k iovecs room = (r, s') ∧ s'.Inv ∧ s'.Fresh k ∧
      (∀ j ≠ k, s.noPendingWrites j → s'.noPendingWrites j) ∧
      match r with
      | .error _ => s' = s
      | .ok w => room ≠ none ∧ s.rest k ++ iovecs.flatten = w ++ s'.rest k := by
  cases room with
  | none =>
    refine ⟨.error .socketError, s, ?_, inv, fresh, fun _ _ free => free, rfl⟩
    rw [putdatas, if_pos free]
  | some n =>
    obtain ⟨r, s', put⟩ : ∃ r s', putdatas s k iovecs (some n) = (r, s') := ⟨_, _, rfl⟩
    cases r with
    | error rc =>
      rw [putdatas, if_pos free] at put
      dsimp only at put
      split_ifs at put
      · cases put
      · cases put
    | ok w =>
      have step : writerStep s (.put k iovecs (some n)) =
          .ok (s', [.accepted k iovecs, .wrote k w]) := by
        simp only [writerStep, put]
      have writing := writing_of_step inv step
      have told := writing.told inv fresh.told (by simp)
      have stream := told.stream (by simp [Sent.see])
      refine ⟨.ok w, s', put, writing.keep inv, told.fresh, fun j apart => writing.others apart,
        by simp, ?_⟩
      simpa [Sent.see, Sent.stream] using stream

theorem continueWrite_rest (inv : s.Inv) (fresh : s.Fresh k) (pending : ¬ s.noPendingWrites k)
    (room : Option ℕ) :
    ∃ r s', continueWrite s k room = some (r, s') ∧ s'.Inv ∧ s'.Fresh k ∧
      (∀ j ≠ k, s.noPendingWrites j → s'.noPendingWrites j) ∧
      match r with
      | .error _ => s'.rest k = []
      | .ok w => room ≠ none ∧ s.rest k = w ++ s'.rest k := by
  obtain ⟨pw, found⟩ := Option.isSome_iff_exists.1 (inv.isSome pending)
  cases room with
  | none =>
    refine ⟨.error .socketError, s.complete k, ?_, inv.complete k,
      (fresh.told.complete inv).1, fun j _ free pending => free (List.mem_of_mem_erase pending),
      (fresh.told.complete inv).2⟩
    rw [continueWrite, found, Option.map_some]
  | some n =>
    obtain ⟨w, s', wrote⟩ : ∃ w s', continueWrite s k (some n) = some (.ok w, s') := by
      rw [continueWrite, found, Option.map_some]
      dsimp only
      split_ifs
      · exact ⟨_, _, rfl⟩
      · exact ⟨_, _, rfl⟩
    have step : writerStep s (.continueWrite k (some n)) = .ok (s', [.wrote k w]) := by
      simp only [writerStep, if_neg pending, wrote]
    have writing := writing_of_step inv step
    have told := writing.told inv fresh.told (by simp)
    have stream := told.stream (by simp [Sent.see])
    refine ⟨.ok w, s', wrote, writing.keep inv, told.fresh, fun j apart => writing.others apart,
      by simp, ?_⟩
    simpa [Sent.see, Sent.stream] using stream

end Writes

/-! ### The pipe -/

/-- The writing end, the bytes that are under way, and the reading end.  A socket to which a write
has failed takes nothing more. -/
structure Pipe where
  outSocket : ℤ
  writes : Writes
  failed : Bool
  flight : List Byte
  inSocket : ℤ
  net : Net

def initPipe : Pipe := ⟨0, initWrites, false, [], 0, initNet⟩

def Pipe.room (p : Pipe) (room : Option ℕ) : Option ℕ := if p.failed then none else room

/-- What a write has done. -/
def Pipe.wrote (p : Pipe) : Except Rc (List Byte) × Writes → Pipe
  | (.error _, writes) => { p with writes := writes, failed := true }
  | (.ok written, writes) => { p with writes := writes, flight := p.flight ++ written }

/-- A packet is written to the socket. -/
def Pipe.put (p : Pipe) (iovecs : List (List Byte)) (room : Option ℕ) : Pipe :=
  p.wrote (putdatas p.writes p.outSocket iovecs (p.room room))

def Pipe.free (p : Pipe) : Prop := p.writes.noPendingWrites p.outSocket

instance (p : Pipe) : Decidable p.free := inferInstanceAs (Decidable (p.writes.noPendingWrites _))

/-- A write is continued; without an entry a null pointer is read. -/
def Pipe.continueWrite (p : Pipe) (room : Option ℕ) : Option Pipe :=
  (Mqtt.continueWrite p.writes p.outSocket (p.room room)).map p.wrote

/-- Some bytes come to the reading end. -/
def Pipe.carry (p : Pipe) (n : ℕ) : Pipe :=
  { p with
    flight := p.flight.drop n
    net := { p.net with
      arrived :=
        Function.update p.net.arrived p.inSocket (p.net.arrived p.inSocket ++ p.flight.take n) } }

/-- `MQTTPacket_Factory` at the reading end. -/
def Pipe.read (p : Pipe) : Option (Except Rc Built × Pipe) :=
  (factory p.net p.inSocket).map fun (r, net) => (r, { p with net := net })

/-- `Socket_close` at both ends. -/
def Pipe.close (p : Pipe) : Pipe :=
  { p with
    writes := p.writes.close p.outSocket
    failed := false
    flight := []
    net := p.net.close p.inSocket }

/-- A new connection. -/
def Pipe.connect (p : Pipe) (outSocket inSocket : ℤ) : Pipe :=
  { p with outSocket := outSocket, inSocket := inSocket }

/-- Nothing is kept for the socket, and nothing has come. -/
structure Net.Clean (s : Net) (socket : ℤ) : Prop where
  stored : Stored s.buffers socket [] []
  arrived : s.arrived socket = []
  ended : s.ended socket = false

/-- There is no connection. -/
structure Pipe.Closed (p : Pipe) : Prop where
  writes : p.writes.Inv
  idle : ∀ k, p.writes.noPendingWrites k
  once : ∀ k ≠ 0, (p.net.buffers.queues.map SocketQueue.socket).count k ≤ 1
  clean : ∀ k ≠ 0, p.net.Clean k
  well : p.failed = false
  empty : p.flight = []

/-- What is to come out of the pipe; where a write has failed, the end of it never does. -/
structure Pipe.Carries (p : Pipe) (stream : List Byte) : Prop where
  writes : p.writes.Inv
  idle : ∀ k ≠ p.outSocket, p.writes.noPendingWrites k
  fresh : p.writes.Fresh p.outSocket
  once : ∀ k ≠ 0, (p.net.buffers.queues.map SocketQueue.socket).count k ≤ 1
  clean : ∀ k ≠ 0, k ≠ p.inSocket → p.net.Clean k
  positive : p.inSocket ≠ 0
  lasts : p.net.ended p.inSocket = false
  bytes : ∃ header data lost, Stored p.net.buffers p.inSocket header data ∧ Partial header data ∧
    (p.failed = false → lost = []) ∧
    header ++ data ++ p.net.arrived p.inSocket ++
      (p.flight ++ (p.writes.rest p.outSocket ++ lost)) = stream

section Pipe

variable {p : Pipe} {stream : List Byte}

theorem initPipe_closed : initPipe.Closed where
  writes := .init
  idle k := by simp [initPipe, initWrites, Writes.noPendingWrites]
  once k _ := by simp [initPipe, initNet, initBuffers]
  clean k _ := by
    refine ⟨.none ?_ ?_ rfl rfl, rfl, rfl⟩
    · rfl
    · rfl
  well := rfl
  empty := rfl

theorem Pipe.Carries.put (h : p.Carries stream) (free : p.free) (iovecs : List (List Byte))
    (room : Option ℕ) : (p.put iovecs room).Carries (stream ++ iovecs.flatten) := by
  obtain ⟨header, data, lost, stored, part, nothing, all⟩ := h.bytes
  obtain ⟨r, s', put, inv, fresh, others, done⟩ :=
    putdatas_rest h.writes h.fresh free iovecs (p.room room)
  have idle : ∀ k ≠ p.outSocket, s'.noPendingWrites k := fun k apart =>
    others k apart (h.idle k apart)
  rw [Pipe.put, put]
  cases r with
  | error rc =>
    obtain rfl : s' = p.writes := done
    refine ⟨inv, idle, fresh, h.once, h.clean, h.positive, h.lasts, header, data,
      lost ++ iovecs.flatten, stored, part, ?_, ?_⟩
    · simp [Pipe.wrote]
    · rw [← all]
      simp [Pipe.wrote]
  | ok w =>
    obtain ⟨some, moved⟩ := done
    have well : p.failed = false := by
      cases failed : p.failed with
      | false => rfl
      | true => simp [Pipe.room, failed] at some
    refine ⟨inv, idle, fresh, h.once, h.clean, h.positive, h.lasts, header, data, [], stored, part,
      fun _ => rfl, ?_⟩
    rw [← all, nothing well]
    simp only [Pipe.wrote, List.append_nil, List.append_assoc] at moved ⊢
    rw [← moved]

/-- Where the write fails, nothing of the packet is written. -/
theorem Pipe.Carries.put_failed (h : p.Carries stream) (free : p.free) (iovecs : List (List Byte))
    (room : Option ℕ) (failed : (p.put iovecs room).failed = true) :
    (p.put iovecs room).Carries stream := by
  obtain ⟨r, s', put, inv, fresh, others, done⟩ :=
    putdatas_rest h.writes h.fresh free iovecs (p.room room)
  rw [Pipe.put, put] at failed ⊢
  cases r with
  | error rc =>
    obtain rfl : s' = p.writes := done
    obtain ⟨header, data, lost, stored, part, -, all⟩ := h.bytes
    refine ⟨h.writes, h.idle, h.fresh, h.once, h.clean, h.positive, h.lasts, header, data, lost,
      stored, part, ?_, all⟩
    rintro ⟨⟩
  | ok w =>
    have well : p.failed = true := failed
    simp [Pipe.room, well] at done

/-- A packet is written to a socket that takes something, be it nothing of the packet. -/
theorem Pipe.put_well (p : Pipe) (free : p.free) (iovecs : List (List Byte)) (room : Option ℕ)
    (well : p.failed = false) (some : room ≠ none) : (p.put iovecs room).failed = false := by
  obtain ⟨n, rfl⟩ := Option.ne_none_iff_exists'.1 some
  have same : p.room (.some n) = .some n := by simp [Pipe.room, well]
  unfold Pipe.free at free
  rw [Pipe.put, same, putdatas, if_pos free]
  dsimp only
  split_ifs
  · exact well
  · exact well

theorem Pipe.read_failed {p p' : Pipe} {r : Except Rc Built} (read : p.read = some (r, p')) :
    p'.failed = p.failed := by
  unfold Pipe.read at read
  obtain ⟨r', -, made⟩ := Option.map_eq_some_iff.1 read
  cases made
  rfl

theorem Pipe.Carries.continueWrite (h : p.Carries stream) (pending : ¬ p.free) (room : Option ℕ) :
    ∃ p', p.continueWrite room = some p' ∧ p'.Carries stream := by
  obtain ⟨header, data, lost, stored, part, nothing, all⟩ := h.bytes
  obtain ⟨r, s', wrote, inv, fresh, others, done⟩ :=
    continueWrite_rest h.writes h.fresh pending (p.room room)
  have idle : ∀ k ≠ p.outSocket, s'.noPendingWrites k := fun k apart =>
    others k apart (h.idle k apart)
  refine ⟨p.wrote (r, s'), ?_, ?_⟩
  · rw [Pipe.continueWrite, wrote, Option.map_some]
  cases r with
  | error rc =>
    refine ⟨inv, idle, fresh, h.once, h.clean, h.positive, h.lasts, header, data,
      p.writes.rest p.outSocket ++ lost, stored, part, ?_, ?_⟩
    · simp [Pipe.wrote]
    · have rest : s'.rest p.outSocket = [] := done
      rw [← all]
      simp [Pipe.wrote, rest]
  | ok w =>
    obtain ⟨some, moved⟩ := done
    refine ⟨inv, idle, fresh, h.once, h.clean, h.positive, h.lasts, header, data, lost, stored, part,
      nothing, ?_⟩
    rw [← all, moved]
    simp [Pipe.wrote]

theorem Pipe.Carries.carry (h : p.Carries stream) (n : ℕ) : (p.carry n).Carries stream := by
  obtain ⟨header, data, lost, stored, part, nothing, all⟩ := h.bytes
  refine ⟨h.writes, h.idle, h.fresh, h.once, fun k hk apart => ?_, h.positive, h.lasts, header, data,
    lost, stored, part, nothing, ?_⟩
  · obtain ⟨stored', arrived, ended⟩ := h.clean k hk apart
    exact ⟨stored', (Function.update_of_ne apart _ _).trans arrived, ended⟩
  · have come : (p.carry n).net.arrived p.inSocket =
        p.net.arrived p.inSocket ++ p.flight.take n := Function.update_self _ _ _
    have left : (p.carry n).flight = p.flight.drop n := rfl
    show header ++ data ++ (p.carry n).net.arrived p.inSocket ++
      ((p.carry n).flight ++ (p.writes.rest p.outSocket ++ lost)) = stream
    rw [← all, come, left]
    conv_rhs => rw [← List.take_append_drop n p.flight]
    simp only [List.append_assoc]

theorem Net.Clean.kept {s s' : Net} {socket k : ℤ} (h : s.Clean k) (kept : s.Kept socket s')
    (free : s'.buffers.defQueue.socket = 0) (hk : k ≠ 0) (apart : k ≠ socket) : s'.Clean k where
  stored := h.stored.other (kept.buffers.find k hk apart) free
  arrived := (kept.arrived k apart).trans h.arrived
  ended := by
    rw [kept.ended]
    exact h.ended

theorem Pipe.Carries.close (h : p.Carries stream) : p.close.Closed := by
  obtain ⟨header, data, lost, stored, part, nothing, all⟩ := h.bytes
  obtain ⟨closed, kept, arrived, others⟩ := stored.reading.closed (h.once _ h.positive)
  refine ⟨?_, fun k => ?_, fun k hk => kept.once k hk (h.once k hk), fun k hk => ?_, rfl, rfl⟩
  · exact Writing.close.keep h.writes
  · by_cases same : k = p.outSocket
    · subst same
      have once := h.writes.once p.outSocket
      rw [Writes.noPendingWrites_iff]
      show (p.writes.writePending.erase p.outSocket).count p.outSocket = 0
      rw [List.count_erase_self]
      omega
    · exact Writing.close.others same (h.idle k same)
  · by_cases same : k = p.inSocket
    · subst same
      exact ⟨closed, arrived, Function.update_self _ _ _⟩
    · obtain ⟨stored', arrived', ended'⟩ := h.clean k hk same
      exact ⟨stored'.other (kept.find k hk same) closed.free, (others k same).trans arrived',
        (Function.update_of_ne same _ _).trans ended'⟩

theorem Pipe.Closed.connect (h : p.Closed) {outSocket inSocket : ℤ}
    (unused : p.writes.getWrite outSocket = none) (positive : inSocket ≠ 0) :
    (p.connect outSocket inSocket).Carries [] := by
  have rest : p.writes.rest outSocket = [] := by rw [Writes.rest, unused]
  have fresh : p.writes.Fresh outSocket := by
    have idle := h.idle outSocket
    rw [Writes.noPendingWrites_iff] at idle
    rw [Writes.Fresh, idle, List.count_eq_zero]
    exact Keyed.get_none_iff_notMem.1 unused
  obtain ⟨stored, arrived, ended⟩ := h.clean inSocket positive
  refine ⟨h.writes, fun k _ => h.idle k, fresh, h.once, fun k hk _ => h.clean k hk, positive, ended,
    [], [], [], stored, .nothing, fun _ => rfl, ?_⟩
  show [] ++ [] ++ p.net.arrived inSocket ++ (p.flight ++ (p.writes.rest outSocket ++ [])) = []
  rw [arrived, h.empty, rest]
  rfl

/-! ### Packets -/

/-- A packet of the stream, as it is written, and what it is read as. -/
structure Readable (sent : List (List Byte)) (built : Built) : Prop where
  next : ∀ rest, ∃ f, nextPacket (sent.flatten ++ rest) = .frame f rest ∧
    build f.1 f.2 = some built

/-- One attempt to read returns the first of the packets that were written, or nothing. -/
theorem Pipe.Carries.read {α : Type} {send : α → List (List Byte)} {built : α → Built} {ms : List α}
    (readable : ∀ m ∈ ms, Readable (send m) (built m))
    (h : p.Carries (ms.flatMap fun m => (send m).flatten)) :
    (∃ p', p.read = some (.error .interrupted, p') ∧
        p'.Carries (ms.flatMap fun m => (send m).flatten)) ∨
      ∃ m ms' p', ms = m :: ms' ∧ p.read = some (.ok (built m), p') ∧
        p'.Carries (ms'.flatMap fun m => (send m).flatten) := by
  obtain ⟨header, data, lost, stored, part, nothing, all⟩ := h.bytes
  obtain ⟨net, kept, attempt⟩ := factory_spec stored part h.positive (h.once _ h.positive)
  -- what the packet at the start is does not depend on how much of it has come
  have first : ms = [] ∨ ∃ m ms' f, ms = m :: ms' ∧ build f.1 f.2 = some (built m) ∧
      nextPacket (header ++ data ++ p.net.arrived p.inSocket ++
        (p.flight ++ (p.writes.rest p.outSocket ++ lost))) =
      .frame f (ms'.flatMap fun m => (send m).flatten) := by
    cases ms with
    | nil => exact .inl rfl
    | cons m ms' =>
      obtain ⟨f, next, made⟩ := (readable m List.mem_cons_self).next
        (ms'.flatMap fun m => (send m).flatten)
      refine .inr ⟨m, ms', f, rfl, made, ?_⟩
      rw [all, List.flatMap_cons]
      exact next
  have only : ms = [] → header ++ data ++ p.net.arrived p.inSocket = [] := by
    rintro rfl
    exact (List.append_eq_nil_iff.1 all).1
  have once : ∀ k ≠ 0, (net.buffers.queues.map SocketQueue.socket).count k ≤ 1 := fun k hk =>
    kept.buffers.once k hk (h.once k hk)
  have lasts : net.ended p.inSocket = false := by
    rw [kept.ended]
    exact h.lasts
  generalize hahead : header ++ data ++ p.net.arrived p.inSocket = ahead at *
  generalize htail : p.flight ++ (p.writes.rest p.outSocket ++ lost) = tail at *
  cases next : nextPacket ahead with
  | bad =>
    rcases first with none | ⟨m, ms', f, -, -, whole⟩
    · rw [only none] at next
      cases next
    · have bad : nextPacket (ahead ++ tail) = .bad := packets.bad_append tail next
      rw [bad] at whole
      cases whole
  | more =>
    rw [next] at attempt
    rcases attempt with ⟨ended, -⟩ | ⟨stopped, arrived, header', data', stored', part', kept'⟩
    · rw [h.lasts] at ended
      cases ended
    · refine .inl ⟨{ p with net := net }, ?_, h.writes, h.idle, h.fresh, once,
        fun k hk apart => (h.clean k hk apart).kept kept stored'.free hk apart, h.positive, lasts,
        header', data', lost, stored', part', nothing, ?_⟩
      · rw [Pipe.read, stopped, Option.map_some]
      · show header' ++ data' ++ net.arrived p.inSocket ++
          (p.flight ++ (p.writes.rest p.outSocket ++ lost)) = _
        rw [arrived, List.append_nil, kept', htail, all]
  | frame f rest =>
    rcases first with none | ⟨m, ms', f', rfl, made, whole⟩
    · rw [only none] at next
      cases next
    · have same : nextPacket (ahead ++ tail) = .frame f (rest ++ tail) :=
        packets.frame_append tail next
      rw [same] at whole
      obtain ⟨rfl, behind⟩ := Framing.Next.frame.inj whole
      rw [next] at attempt
      obtain ⟨returned, stored', arrived⟩ := attempt
      refine .inr ⟨m, ms', { p with net := net }, rfl, ?_, h.writes, h.idle, h.fresh, once,
        fun k hk apart => (h.clean k hk apart).kept kept stored'.free hk apart, h.positive, lasts,
        [], [], lost, stored', .nothing, nothing, ?_⟩
      · rw [Pipe.read, returned, made]
        rfl
      · show [] ++ [] ++ net.arrived p.inSocket ++
          (p.flight ++ (p.writes.rest p.outSocket ++ lost)) = _
        rw [arrived, htail, ← behind, List.append_nil, List.nil_append]

end Pipe

end Siproxy.Mqtt
