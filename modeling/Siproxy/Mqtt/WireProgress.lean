import Siproxy.Mqtt.Progress
import Siproxy.Mqtt.Wire

/-!
# The end of the handshake over sockets

Neither end reads or writes a packet while output is pending for its socket.  The two ends do not
block each other by that: what is pending can be written, what is under way comes, and whatever
`Link` can do the two ends can do then.

`wire_completes`: from every state in which no write has failed and no disconnection is queued they
can go on until all messages are delivered and complete.
-/

namespace Siproxy.Mqtt

open CString Machine

/-! ### Emptying a pipe -/

/-- What is pending is written, and what is under way comes. -/
inductive Pipe.Moves : Pipe → Pipe → Prop
  | refl (p : Pipe) : Moves p p
  | continueWrite {p p' q : Pipe} (n : ℕ) (step : continuePipe p (some n) = .ok p')
    (rest : Moves p' q) : Moves p q
  | carry {p q : Pipe} (n : ℕ) (rest : Moves (p.carry n) q) : Moves p q

/-- Nothing is pending, and nothing is under way. -/
structure Pipe.Settled (p : Pipe) : Prop where
  free : p.free
  flight : p.flight = []
  well : p.failed = false

section Pipe

variable {p : Pipe} {stream : List Byte}

/-- A write that is continued with some room leaves less pending. -/
theorem Pipe.Carries.less (h : p.Carries stream) (well : p.failed = false) (pending : ¬ p.free) :
    ∃ p', continuePipe p (some 1) = .ok p' ∧ p'.Carries stream ∧ p'.failed = false ∧
      (p'.writes.rest p'.outSocket).length < (p.writes.rest p.outSocket).length := by
  obtain ⟨p', continued, carries⟩ := h.continueWrite pending (some 1)
  refine ⟨p', by rw [continuePipe, if_neg pending, continued], carries, ?_⟩
  have same : p.room (some 1) = some 1 := by simp [Pipe.room, well]
  obtain ⟨r, s', wrote, -, -, -, done⟩ := continueWrite_rest h.writes h.fresh pending (some 1)
  obtain ⟨pw, found⟩ := Option.isSome_iff_exists.1 (h.writes.isSome pending)
  have short := h.writes.short pw (Keyed.get_mem found).1
  have first : ∃ t, Mqtt.continueWrite p.writes p.outSocket (some 1) =
      some (.ok ((remaining pw.bytes 0 pw.iovecs).flatten.take 1), t) := by
    rw [Mqtt.continueWrite, found, Option.map_some]
    dsimp only
    split_ifs
    · exact ⟨_, rfl⟩
    · exact ⟨_, rfl⟩
  obtain ⟨t, ht⟩ := first
  rw [wrote] at ht
  obtain ⟨rfl, -⟩ := Prod.mk.inj (Option.some.inj ht)
  rw [Pipe.continueWrite, same, wrote, Option.map_some] at continued
  cases continued
  refine ⟨well, ?_⟩
  have more := List.length_pos_iff.2 (written_ne_nil short Nat.one_pos)
  rw [done.2, List.length_append]
  show (s'.rest p.outSocket).length < _
  omega

/-- A pipe can be emptied. -/
theorem Pipe.Carries.settle (h : p.Carries stream) (well : p.failed = false) :
    ∃ q, p.Moves q ∧ q.Settled ∧ q.Carries stream := by
  induction hn : (p.writes.rest p.outSocket).length using Nat.strongRecOn generalizing p with
  | ind n ih =>
    subst hn
    by_cases free : p.free
    · refine ⟨p.carry p.flight.length, .carry p.flight.length (.refl _), ⟨free, ?_, well⟩, h.carry _⟩
      exact List.drop_length
    · obtain ⟨p', step, carries, well', less⟩ := h.less well free
      obtain ⟨q, moves, settled, carries'⟩ := ih _ less carries well' rfl
      exact ⟨q, .continueWrite 1 step moves, settled, carries'⟩

/-- The next packet is read where all of it has come. -/
theorem Pipe.Carries.readAll {α : Type} {send : α → List (List Byte)} {built : α → Built}
    {m : α} {ms : List α} (readable : ∀ x ∈ m :: ms, Readable (send x) (built x))
    (h : p.Carries ((m :: ms).flatMap fun x => (send x).flatten)) (settled : p.Settled) :
    ∃ p', p.read = some (.ok (built m), p') ∧
      p'.Carries (ms.flatMap fun x => (send x).flatten) := by
  rcases h.read readable with ⟨p', read, -⟩ | ⟨m', ms', p', head, read, carries⟩
  · -- a packet that is whole does not end in `TCPSOCKET_INTERRUPTED`
    obtain ⟨header, data, lost, stored, part, nothing, all⟩ := h.bytes
    obtain ⟨net, -, attempt⟩ := factory_spec stored part h.positive (h.once _ h.positive)
    have rest := (h.fresh.told.rest_free settled.free).2
    rw [settled.flight, rest, nothing settled.well, List.append_nil, List.append_nil,
      List.append_nil] at all
    obtain ⟨f, next, made⟩ := (readable m List.mem_cons_self).next
      (ms.flatMap fun x => (send x).flatten)
    rw [List.flatMap_cons] at all
    rw [all, next] at attempt
    rw [Pipe.read, attempt.1, made] at read
    cases read
  · obtain ⟨rfl, rfl⟩ := List.cons.inj head
    exact ⟨p', read, carries⟩

end Pipe

/-! ### Going on -/

/-- The steps that handle what is there. -/
def WireOp.handles : WireOp → Bool
  | .process _ | .receive _ | .answered _ | .continueForward _ | .continueBack _
  | .carryForward _ | .carryBack _ => true
  | _ => false

/-- The ends can go on from a state to another one by handling what is there. -/
def Wire.Leads (s : Wire) (outs : List (LinkOut Message)) (s' : Wire) : Prop :=
  ∃ ops, (∀ op ∈ ops, op.handles = true) ∧ run wireStep s ops = .ok (s', outs)

section Leads

variable {s s' t : Wire} {outs outs' : List (LinkOut Message)}

theorem Wire.Leads.refl (s : Wire) : s.Leads [] s := ⟨[], by simp, rfl⟩

theorem Wire.Leads.step {op : WireOp} (handles : op.handles = true)
    (taken : wireStep s op = .ok (s', outs)) : s.Leads outs s' :=
  ⟨[op], by simpa using handles, run_singleton taken⟩

theorem Wire.Leads.trans (h : s.Leads outs s') (h' : s'.Leads outs' t) :
    s.Leads (outs ++ outs') t := by
  obtain ⟨ops, handles, goes⟩ := h
  obtain ⟨ops', handles', goes'⟩ := h'
  refine ⟨ops ++ ops', fun op mem => ?_, run_append goes goes'⟩
  rcases List.mem_append.1 mem with mem | mem
  · exact handles op mem
  · exact handles' op mem

theorem Pipe.Moves.forward {p q : Pipe} (h : p.Moves q) (up : s.link.connected = true) :
    Wire.Leads { s with toReceiver := p } [] { s with toReceiver := q } := by
  induction h with
  | refl p => exact .refl _
  | @continueWrite p p' q n step _ ih =>
    have taken : wireStep { s with toReceiver := p } (.continueForward (some n)) =
        .ok ({ s with toReceiver := p' }, []) := by
      simp only [wireStep, if_pos up, step]
      rfl
    exact Wire.Leads.trans (.step rfl taken) ih
  | @carry p q n _ ih =>
    have taken : wireStep { s with toReceiver := p } (.carryForward n) =
        .ok ({ s with toReceiver := p.carry n }, []) := by
      simp only [wireStep, if_pos up]
    exact Wire.Leads.trans (.step rfl taken) ih

theorem Pipe.Moves.back {p q : Pipe} (h : p.Moves q) (up : s.link.connected = true) :
    Wire.Leads { s with toSender := p } [] { s with toSender := q } := by
  induction h with
  | refl p => exact .refl _
  | @continueWrite p p' q n step _ ih =>
    have taken : wireStep { s with toSender := p } (.continueBack (some n)) =
        .ok ({ s with toSender := p' }, []) := by
      simp only [wireStep, if_pos up, step]
      rfl
    exact Wire.Leads.trans (.step rfl taken) ih
  | @carry p q n _ ih =>
    have taken : wireStep { s with toSender := p } (.carryBack n) =
        .ok ({ s with toSender := p.carry n }, []) := by
      simp only [wireStep, if_pos up]
    exact Wire.Leads.trans (.step rfl taken) ih

end Leads

section Sim

variable {s : Wire} {a a' : Link Message} {outs : List (LinkOut Message)}

theorem Sim.settle (h : Sim s a) (online : a.connected = true) (well : s.Well) :
    ∃ s', s.Leads [] s' ∧ Sim s' a ∧ s'.toReceiver.Settled ∧ s'.toSender.Settled := by
  obtain ⟨forward, back⟩ := h.online online
  obtain ⟨q, moves, settled, carries⟩ := forward.settle well.1
  obtain ⟨r, moves', settled', carries'⟩ := back.settle well.2
  have up : s.link.connected = true := h.connected.trans online
  refine ⟨{ s with toReceiver := q, toSender := r }, ?_, h.pipes online carries carries', settled,
    settled'⟩
  have first : s.Leads [] { s with toReceiver := q } := moves.forward up
  have up' : ({ s with toReceiver := q } : Wire).link.connected = true := up
  exact first.trans (moves'.back up')

/-- Whatever `Link` does with what is there, the ends can do. -/
theorem Sim.handle (h : Sim s a) (online : a.connected = true) (well : s.Well)
    {op : LinkOp Message} (handles : op.handles = true)
    (step : linkStep a op = .ok (a', outs)) :
    ∃ s', s.Leads outs s' ∧ Sim s' a' ∧ s'.Well := by
  obtain ⟨t, leads, sim, settled, settled'⟩ := h.settle online well
  have well' : t.Well := ⟨settled.well, settled'.well⟩
  obtain ⟨forward, back⟩ := sim.online online
  cases op with
  | process failed =>
    cases failed with
    | true => cases handles
    | false =>
      obtain ⟨⟨msgid, p⟩, commands, head⟩ : ∃ c commands, a.commands = c :: commands := by
        cases head : a.commands with
        | nil => simp [linkStep, Link.process, head] at step
        | cons c commands => exact ⟨c, commands, rfl⟩
      have written := t.toReceiver.put_well settled.free
        (Forward.publish msgid p false).send (some 0) settled.well (by simp)
      have step' := step
      rw [← written] at step'
      obtain ⟨s', taken, sim', receiver, sender⟩ := sim.processed settled.free head rfl step'
      refine ⟨s', leads.trans (.step rfl taken), sim', ?_, ?_⟩
      · rw [receiver]
        exact written
      · rw [sender]
        exact settled'.well
  | receive =>
    obtain ⟨f, fs, head⟩ : ∃ f fs, a.forward = f :: fs := by
      cases head : a.forward with
      | nil => simp [linkStep, Link.receive, head] at step
      | cons f fs => exact ⟨f, fs, rfl⟩
    rw [head] at forward
    obtain ⟨p, read, rest⟩ := Pipe.Carries.readAll
      (fun f mem => Forward.readable (sim.fits.forward f (head ▸ mem))) forward settled
    obtain ⟨s', a₁, outs₁, step', taken, sim', keeps⟩ :=
      sim.received online settled'.free head read rest (some 0)
    rw [step] at step'
    cases step'
    exact ⟨s', leads.trans (.step rfl taken), sim', keeps well' (by simp)⟩
  | answered =>
    obtain ⟨x, as, head⟩ : ∃ x as, a.answers = x :: as := by
      cases head : a.answers with
      | nil => simp [linkStep, Link.answered, head] at step
      | cons x as => exact ⟨x, as, rfl⟩
    rw [head] at back
    obtain ⟨p, read, rest⟩ := Pipe.Carries.readAll
      (fun x mem => Answer.readable (sim.fits.answers x (head ▸ mem))) back settled'
    obtain ⟨s', a₁, outs₁, step', sim', -, taken | ⟨failed, -⟩, keeps⟩ :=
      sim.gotAnswer online settled.free head read rest (some 0)
    · rw [step] at step'
      cases step'
      exact ⟨s', leads.trans (.step rfl taken), sim', keeps well' (by simp)⟩
    · have fine := (keeps well' (by simp)).1
      cases fine.symm.trans failed
  | send | retry | disconnectInternal | disconnect | connect => cases handles

/-- The ends can come to rest. -/
theorem Sim.rest (h : Sim s a) (tokens : a.Tokens True) (online : a.online) (well : s.Well) :
    ∃ s' a' outs, s.Leads outs s' ∧ Sim s' a' ∧ a'.Tokens True ∧ a'.online ∧ a'.AtRest := by
  induction hn : a.work using Nat.strongRecOn generalizing s a with
  | ind n ih =>
    subst hn
    by_cases rest : a.AtRest
    · exact ⟨s, a, [], .refl s, h, tokens, online, rest⟩
    · unfold Link.AtRest at rest
      push Not at rest
      obtain ⟨op, handles, goes⟩ := rest
      obtain ⟨⟨a₁, outs⟩, step⟩ : ∃ r, linkStep a op = .ok r := by
        cases hr : linkStep a op with
        | error e => exact absurd hr goes
        | ok r => exact ⟨r, rfl⟩
      have happens := linkStep_happens step
      obtain ⟨s₁, leads, sim, well'⟩ := h.handle online.1 well handles step
      have tokens' : a₁.Tokens True := tokens.step h.inv happens
        (fun due hdue => by rw [hdue] at handles; cases handles)
        (fun _ hop => by rw [hop] at handles; cases handles)
      obtain ⟨connected, disconnecting⟩ := happens.stays handles
      have online' : a₁.online :=
        ⟨connected.trans online.1, disconnecting.trans online.2⟩
      obtain ⟨s', a', outs', leads', last⟩ :=
        ih a₁.work (happens.work_lt handles) sim tokens' online' well' rfl
      exact ⟨s', a', outs ++ outs', leads.trans leads', last⟩

end Sim

/-! ### Whole runs -/

theorem WireOp.Does.broken {op : WireOp} (does : op.Does (.disconnect false)) :
    op = .disconnect false := by
  cases does
  rfl

theorem wireTrace_cared {ops : List WireOp} (ready : ∀ m ∈ wireTrace ops, m.input.Ready m.pre)
    (kept : .disconnect false ∉ ops) :
    ∃ a, Sim (final initWire (wireTrace ops)) a ∧ a.Cared := by
  have start : Sim initWire initLink ∧ (initLink : Link Message).Cared :=
    ⟨initWire_sim, initLink_cared⟩
  have both : ∃ js a, run linkStep initLink js = .ok (a, (wireTrace ops).flatMap Move.outs) ∧
      (Sim (final initWire (wireTrace ops)) a ∧ a.Cared) ∧ ∀ m ∈ linkTrace js, True := by
    refine simulate (fun s a => Sim s a ∧ a.Cared) (fun _ => True) start
      fun m mem a ⟨sim, cared⟩ taken => ?_
    obtain ⟨lops, a', ran, sim', -, does⟩ := (sim.step (ready m mem)).taken taken
    refine ⟨lops, a', ran, ⟨sim', ?_⟩, fun _ _ => trivial⟩
    refine run_invariant Link.Cared cared (fun m' mem' h taken' => h.step taken' ?_) ran
    intro broken
    have broke := (broken ▸ does m'.input (trace_input_mem mem')).broken
    exact kept (broke ▸ trace_input_mem mem)
  obtain ⟨-, a, -, ⟨sim, cared⟩, -⟩ := both
  exact ⟨a, sim, cared⟩

end Siproxy.Mqtt
