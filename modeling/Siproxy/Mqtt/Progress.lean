import Mathlib.Algebra.BigOperators.Group.List.Basic
import Mathlib.Tactic.Ring
import Siproxy.Mqtt.Delivery

/-!
# The end of the handshake

While a connection is up, each packet that is handled leaves less to be handled (`Link.work`), and
for each message that waits for an answer a packet is under way (`View.Token`), so that the two ends
come to rest.  None of it holds for a message whose PUBLISH was not written (`unwritten`): it waits for
the next connection, and until then the ends are not `online`.

* `qos2_completes`: if no connection broke without its session being cleaned, everything is delivered
  and complete then.
* `qos2_delivers`: after breaks, if every new connection starts with all retries, everything is
  delivered.
* `lost_pubcomp`: it need not be complete, since a PUBCOMP that is lost is never sent again: PUBREL
  is sent again without the flag `dup`, and the receiver ignores such a release of a message that it
  has handed over.
-/

namespace Siproxy.Mqtt

open Machine

variable {μ : Type}

/-! ### What is under way for a message -/

/-- Some packet about the message is under way; `strict` tells whether that is so for a PUBCOMP that
is waited for. -/
def View.Token (strict : Prop) (x : ℕ) (v : View μ) : Prop :=
  ∀ m ∈ v.outbound,
    match m.nextMessageType, v.inbound with
    | .pubrec, _ => (∃ p dup, .publish x p dup ∈ v.forward) ∨ .pubrec x ∈ v.answers
    | .pubcomp, some _ => .pubrel x false ∈ v.forward
    | .pubcomp, none => strict → .pubcomp x ∈ v.answers

section Token

variable {strict : Prop} {x : ℕ} {v v' : View μ}

theorem View.Token.pubrec {m : Messages μ} (h : v.Token strict x) (mine : v.outbound = some m)
    (waits : m.nextMessageType = .pubrec) :
    (∃ p dup, .publish x p dup ∈ v.forward) ∨ .pubrec x ∈ v.answers := by
  have token := h m mine
  rwa [waits] at token

theorem View.Token.pubrel {m : Messages μ} (h : v.Token strict x) (mine : v.outbound = some m)
    (waits : m.nextMessageType = .pubcomp) (stored : v.inbound ≠ none) :
    .pubrel x false ∈ v.forward := by
  have token := h m mine
  obtain ⟨i, hi⟩ := Option.ne_none_iff_exists'.1 stored
  rwa [waits, hi] at token

theorem View.Token.pubcomp {m : Messages μ} (h : v.Token strict x) (mine : v.outbound = some m)
    (waits : m.nextMessageType = .pubcomp) (gone : v.inbound = none) (hs : strict) :
    .pubcomp x ∈ v.answers := by
  have token := h m mine
  rw [waits, gone] at token
  exact token hs

/-- What has to be shown for the message with the id. -/
theorem View.Token.intro {v : View μ}
    (pubrec : ∀ m ∈ v.outbound, m.nextMessageType = .pubrec →
      (∃ p dup, .publish x p dup ∈ v.forward) ∨ .pubrec x ∈ v.answers)
    (pubrel : ∀ m ∈ v.outbound, m.nextMessageType = .pubcomp → v.inbound ≠ none →
      .pubrel x false ∈ v.forward)
    (pubcomp : ∀ m ∈ v.outbound, m.nextMessageType = .pubcomp → v.inbound = none → strict →
      .pubcomp x ∈ v.answers) : v.Token strict x := by
  intro m mine
  cases waits : m.nextMessageType with
  | pubrec => exact pubrec m mine waits
  | pubcomp =>
    cases stored : v.inbound with
    | none => exact pubcomp m mine waits stored
    | some i => exact pubrel m mine waits (by simp [stored])

/-- While the connection is up a step keeps the tokens. -/
theorem View.Token.local (h : v.Token strict x)
    (phase : Phase x v.outbound v.inbound v.forward v.answers) (step : Local x v v') :
    v'.Token strict x := by
  cases step with
  | same => exact h
  | start p free =>
    refine .intro (fun m mine waits => .inl ⟨p, false, by simp⟩) ?_ ?_
    all_goals
      rintro m ⟨⟩ waits
      cases waits
  | publish p dup fs head =>
    rw [head] at phase
    obtain ⟨type, hout, notOver, -⟩ := phase.publish
    refine .intro (fun m mine waits => .inr (by simp)) ?_ ?_
    · intro m mine waits _
      have stored : v.inbound ≠ none := by
        cases hout.symm.trans mine
        rcases notOver with released | stored
        · cases released.symm.trans waits
        · exact Option.isSome_iff_ne_none.1 stored
      have token := h.pubrel mine waits stored
      simpa [head] using token
    · intro m mine waits gone
      cases gone
  | stale dup fs head missing =>
    rw [head] at phase
    obtain ⟨rfl, -⟩ := phase.pubrel
    refine .intro ?_ ?_ ?_
    · intro m mine waits
      simpa [head] using h.pubrec mine waits
    · intro m mine waits stored
      exact absurd missing stored
    · intro m mine waits _ hs
      simpa using h.pubcomp mine waits missing hs
  | deliver dup fs head stored =>
    rw [head] at phase
    obtain ⟨-, ⟨missing, -⟩ | ⟨p, -, hout, -⟩⟩ := phase.pubrel
    · exact absurd missing stored
    · refine .intro ?_ (fun _ _ _ absent => absurd rfl absent) (fun _ _ _ _ _ => by simp)
      intro m mine waits
      cases hout.symm.trans mine
      cases waits
  | release m as head mine waits =>
    rw [head] at phase
    obtain ⟨p, ⟨-, hin, -⟩ | ⟨hout, -⟩⟩ := phase.pubrec
    · refine .intro ?_ (fun _ _ _ _ => by simp) ?_
      · rintro _ ⟨⟩ waits
        cases waits
      · intro _ _ _ gone
        cases hin.symm.trans gone
    · cases hout.symm.trans mine
      cases waits
  | receipt as head unexpected =>
    refine .intro ?_ ?_ ?_
    · intro m mine waits
      exact absurd waits (unexpected m mine)
    · intro m mine waits stored
      exact h.pubrel mine waits stored
    · intro m mine waits gone hs
      simpa [head] using h.pubcomp mine waits gone hs
  | complete m as head mine waits =>
    rintro _ ⟨⟩
  | ignored as head unexpected =>
    rw [head] at phase
    obtain ⟨p, hout, -, -, -⟩ := phase.pubcomp
    exact absurd rfl (unexpected _ hout)
  | again m mine =>
    refine .intro ?_ ?_ ?_
    · intro m mine waits
      rcases h.pubrec mine waits with ⟨p, dup, sent⟩ | answered
      · exact .inl ⟨p, dup, List.mem_append_left _ sent⟩
      · exact .inr answered
    · intro m mine waits stored
      exact List.mem_append_left _ (h.pubrel mine waits stored)
    · intro m mine waits gone hs
      exact h.pubcomp mine waits gone hs

end Token

/-- With all retries, something is under way for each message. -/
theorem Link.Inv.resent {s : Link μ} (h : s.Inv) {due : ℕ → Bool} (all : ∀ x, due x = true)
    (answers : List Answer) (x : ℕ) :
    (Link.view { s with
      connected := true, forward := retries s.outboundMsgs due, answers := answers } x).Token
        False x := by
  have sent := retries_filter h.distinct due x
  rw [all x, if_pos rfl] at sent
  have key (m : Messages μ) (mine : Keyed.get Messages.msgid s.outboundMsgs x = some m) :
      m.retry ∈ (retries s.outboundMsgs due).filter (·.msgid = x) := by
    rw [sent, mine]
    simp
  refine .intro ?_ ?_ (fun _ _ _ _ hs => hs.elim)
  · intro m mine waits
    have resent := key m mine
    simp only [Messages.retry, waits, (Keyed.get_mem mine).2] at resent
    exact .inl ⟨m.publish, true, resent⟩
  · intro m mine waits _
    have resent := key m mine
    simp only [Messages.retry, waits, (Keyed.get_mem mine).2] at resent
    exact resent

/-! ### What is under way in every state -/

/-- The connection is up, and is not to be closed. -/
def Link.online (s : Link μ) : Prop := s.connected = true ∧ s.disconnecting = false

instance (s : Link μ) : Decidable s.online := inferInstanceAs (Decidable (_ ∧ _))

/-- While the connection is up, something is under way for each message; `strict` tells whether that
is so for every PUBCOMP, and that nothing is left without a connection. -/
structure Link.Tokens (strict : Prop) (s : Link μ) : Prop where
  token : s.online → ∀ x, (s.view x).Token strict x
  none : strict → s.connected = false → s.outboundMsgs = []

theorem initLink_tokens (strict : Prop) : (initLink : Link μ).Tokens strict where
  token := by
    rintro ⟨⟨⟩, -⟩
  none := fun _ _ => rfl

/-- While the connection stays up, a step does to an id what `Local` says. -/
theorem Link.Inv.local {s s' : Link μ} (h : s.Inv) {op : LinkOp μ} {outs : List (LinkOut μ)}
    (happens : Happens s op s' outs) (up : s.connected = true) (stays : s'.connected = true)
    (written : op ≠ .process true) (x : ℕ) : Local x (s.view x) (s'.view x) := by
  cases happens with
  | refused p => exact .same
  | accepted p => exact .same
  | process head => exact view_process (h.fresh head) _ x
  | unwritten head => exact absurd rfl written
  | publish head => exact view_publish head x
  | pubrel head => exact view_pubrel h.inbound head x
  | pubrec head => exact view_pubrec head x
  | pubcomp head => exact view_pubcomp h.distinct head _ x
  | retry due => exact view_sendAgain h.distinct due s.connected x
  | queued => exact .same
  | broken => cases stays
  | cleaned => cases stays
  | connect due offline => exact offline_of_online up offline

/-- While a connection is to be closed, nothing else is done about that. -/
theorem Happens.closing {s s' : Link μ} {op : LinkOp μ} {outs : List (LinkOut μ)}
    (happens : Happens s op s' outs) (closing : s.disconnecting = true) :
    s'.disconnecting = true ∨ ∃ cleansession, op = .disconnect cleansession := by
  cases happens with
  | process head online going => cases closing.symm.trans going
  | unwritten => exact .inl rfl
  | queued => exact .inl rfl
  | broken => exact .inr ⟨false, rfl⟩
  | cleaned => exact .inr ⟨true, rfl⟩
  | _ => exact .inl closing

/-- Every step keeps the tokens, if new connections start with all retries or with nothing to send
again. -/
theorem Link.Tokens.step {strict : Prop} {s s' : Link μ} (h : s.Tokens strict) (inv : s.Inv)
    {op : LinkOp μ} {outs : List (LinkOut μ)} (happens : Happens s op s' outs)
    (full : ∀ due, op = .connect due → strict ∨ ∀ x, due x = true)
    (kept : strict → op ≠ .disconnect false) : s'.Tokens strict := by
  by_cases up : s.connected = true
  · refine ⟨fun stays x => ?_, fun hs off => ?_⟩
    · have going : s.disconnecting = false := by
        by_contra closing
        rcases happens.closing (eq_true_of_ne_false closing) with still | ⟨b, rfl⟩
        · exact absurd (still.symm.trans stays.2) (by decide)
        · cases happens <;> cases stays.1
      have written : op ≠ .process true := by
        rintro rfl
        cases happens
        cases stays.2
      exact (h.token ⟨up, going⟩ x).local (inv.phase x) (inv.local happens up stays.1 written x)
    · cases happens with
      | broken => exact absurd rfl (kept hs)
      | cleaned => rfl
      | connect => cases off
      | _ => exact offline_of_online up off
  · have off : s.connected = false := Bool.eq_false_iff.2 up
    obtain ⟨forward, answers⟩ := inv.offline off
    cases happens with
    | refused p => exact h
    | broken => exact ⟨by rintro ⟨⟨⟩, -⟩, fun hs _ => h.none hs off⟩
    | cleaned => exact initLink_tokens strict
    | connect due =>
      refine ⟨fun _ x => ?_, by rintro _ ⟨⟩⟩
      by_cases hs : strict
      · have empty : s.outboundMsgs = [] := h.none hs off
        intro m mine
        simp [Link.view, empty, Keyed.get] at mine
      · have all := (full due rfl).resolve_left hs
        have resent := inv.resent all s.answers x
        exact .intro (fun m => resent.pubrec) (fun m => resent.pubrel)
          fun _ _ _ _ hs' => absurd hs' hs
    | accepted p up' => exact absurd up' up
    | process head up' => exact absurd up' up
    | unwritten head up' => exact absurd up' up
    | retry due up' => exact absurd up' up
    | queued up' => exact absurd up' up
    | publish head => cases forward.symm.trans head
    | pubrel head => cases forward.symm.trans head
    | pubrec head => cases answers.symm.trans head
    | pubcomp head => cases answers.symm.trans head

/-- After a run in which no message is given the id of one that is stored, with all retries at the
start of every connection. -/
theorem Link.Tokens.reached {ops : List (LinkOp μ)} {s : Link μ} {outs : List (LinkOut μ)}
    (reached : run linkStep initLink ops = .ok (s, outs))
    (fresh : ∀ m ∈ linkTrace ops, m.input.Fresh m.pre)
    (full : ∀ due, .connect due ∈ ops → ∀ x, due x = true) : s.Inv ∧ s.Tokens False := by
  refine run_invariant (fun s => s.Inv ∧ s.Tokens False) ⟨initLink_inv, initLink_tokens False⟩ ?_
    reached
  rintro m hm ⟨inv, tokens⟩ taken
  refine ⟨(inv.step (fresh m hm) taken).1, tokens.step inv (linkStep_happens taken) ?_ False.elim⟩
  rintro due hdue
  exact .inr (full due (hdue ▸ trace_input_mem hm))

/-- Every message waits for an answer and has a response, or the connection is to be closed. -/
def Link.Cared (s : Link μ) : Prop :=
  s.disconnecting = true ∨ s.Inv ∧ s.Tokens True ∧ s.Whole

theorem initLink_cared : (initLink : Link μ).Cared :=
  .inr ⟨initLink_inv, initLink_tokens True, rfl⟩

/-- It stays so as long as sessions are cleaned. -/
theorem Link.Cared.step {s s' : Link μ} (h : s.Cared) {op : LinkOp μ} {outs : List (LinkOut μ)}
    (taken : linkStep s op = .ok (s', outs)) (kept : op ≠ .disconnect false) : s'.Cared := by
  have happens := linkStep_happens taken
  rcases h with closing | ⟨inv, tokens, whole⟩
  · rcases happens.closing closing with still | ⟨cleansession, rfl⟩
    · exact .inl still
    · cases happens with
      | broken => exact absurd rfl kept
      | cleaned => exact initLink_cared
  · by_cases written : op = .process true
    · subst written
      cases happens
      exact .inl rfl
    · have fresh : op.Fresh s := by
        cases op with
        | send p => exact whole.fresh inv
        | _ => trivial
      exact .inr ⟨(inv.step fresh taken).1,
        tokens.step inv happens (fun _ _ => .inl trivial) fun _ => kept,
        whole.step inv happens written⟩

theorem Link.Cared.reached {ops : List (LinkOp μ)} {s : Link μ} {outs : List (LinkOut μ)}
    (reached : run linkStep initLink ops = .ok (s, outs)) (kept : .disconnect false ∉ ops) :
    s.Cared := by
  refine run_invariant Link.Cared initLink_cared (fun m hm h taken => h.step taken ?_) reached
  exact fun hop => kept (hop ▸ trace_input_mem hm)

/-! ### Coming to rest -/

/-- The steps that handle what is there. -/
def LinkOp.handles : LinkOp μ → Bool
  | .process false | .receive | .answered => true
  | _ => false

def Forward.work : Forward μ → ℕ
  | .publish .. => 4
  | .pubrel .. => 2

def Answer.work : Answer → ℕ
  | .pubrec _ => 3
  | .pubcomp _ => 1

/-- How many steps the ends can take to handle what is there. -/
def Link.work (s : Link μ) : ℕ :=
  5 * s.commands.length + (s.forward.map Forward.work).sum + (s.answers.map Answer.work).sum

/-- Nothing is left to be handled, or there is no room for it. -/
def Link.AtRest (s : Link μ) : Prop :=
  ∀ op : LinkOp μ, op.handles = true → linkStep s op = .error ()

theorem LinkOp.Fresh.of_handles {s : Link μ} {op : LinkOp μ} (handles : op.handles = true) :
    op.Fresh s := by
  cases op with
  | send p => cases handles
  | _ => trivial

theorem Happens.work_lt {s s' : Link μ} {op : LinkOp μ} {outs : List (LinkOut μ)}
    (happens : Happens s op s' outs) (handles : op.handles = true) : s'.work < s.work := by
  cases happens with
  | refused | accepted | unwritten | retry | queued | broken | cleaned | connect => cases handles
  | process head =>
    simp [Link.work, head, Forward.work]
    omega
  | publish head =>
    simp [Link.work, head, Forward.work, Answer.work]
    omega
  | @pubrel x dup forward head =>
    have answer : ((handlePubrels s.inboundMsgs x dup).2.1.map Answer.work).sum ≤ 1 := by
      unfold handlePubrels
      split
      · cases dup <;> simp [Answer.work]
      · simp [Answer.work]
    simp only [Link.work, head, List.map_cons, List.sum_cons, List.map_append, List.sum_append,
      Forward.work]
    omega
  | @pubrec x answers head =>
    have answer : ((handlePubrecs s.outboundMsgs x).2.map Forward.work).sum ≤ 2 := by
      unfold handlePubrecs
      split
      · simp
      · split_ifs <;> simp [Forward.work]
    simp only [Link.work, head, List.map_cons, List.sum_cons, List.map_append, List.sum_append,
      Answer.work]
    omega
  | pubcomp head =>
    simp [Link.work, head, Answer.work]

theorem Happens.stays {s s' : Link μ} {op : LinkOp μ} {outs : List (LinkOut μ)}
    (happens : Happens s op s' outs) (handles : op.handles = true) :
    s'.connected = s.connected ∧ s'.disconnecting = s.disconnecting := by
  cases happens with
  | refused | accepted | unwritten | retry | queued | broken | cleaned | connect => cases handles
  | _ => exact ⟨rfl, rfl⟩

/-- However the packets are handled, the ends come to rest. -/
theorem handling_length_le {s s' : Link μ} {ops : List (LinkOp μ)} {outs : List (LinkOut μ)}
    (handles : ∀ op ∈ ops, op.handles = true) (goes : run linkStep s ops = .ok (s', outs)) :
    ops.length ≤ s.work :=
  run_length_le (fun _ => True) Link.work trivial
    (fun _ op hop _ _ _ taken =>
      ⟨trivial, (linkStep_happens taken).work_lt (handles op hop)⟩) goes

theorem Link.AtRest.quiet {s : Link μ} (h : s.AtRest) : s.forward = [] ∧ s.answers = [] := by
  constructor
  · have stuck := h .receive rfl
    rcases hf : s.forward with - | ⟨⟨x, p, dup⟩ | ⟨x, dup⟩, forward⟩
    · rfl
    · simp [linkStep, Link.receive, hf] at stuck
    · simp [linkStep, Link.receive, hf] at stuck
  · have stuck := h .answered rfl
    rcases ha : s.answers with - | ⟨x | x, answers⟩
    · rfl
    · simp [linkStep, Link.answered, ha] at stuck
    · simp [linkStep, Link.answered, ha] at stuck

/-- At rest all messages are processed, or there is no room for them. -/
theorem Link.AtRest.commands {s : Link μ} (h : s.AtRest) (online : s.online) :
    s.commands = [] ∨ maxMsgId - 1 ≤ s.outboundMsgs.length := by
  by_contra! busy
  obtain ⟨more, room⟩ := busy
  obtain ⟨⟨x, p⟩, commands, hc⟩ := List.exists_cons_of_ne_nil more
  have stuck := h (.process false) rfl
  simp [linkStep, Link.process, hc, online.1, online.2, room] at stuck

/-- At rest every message was handed over. -/
theorem Link.AtRest.delivered {strict : Prop} {s : Link μ} (h : s.AtRest) (inv : s.Inv)
    (tokens : s.Tokens strict) (online : s.online) {m : Messages μ}
    (hm : m ∈ s.outboundMsgs) : s.holds m = false ∧ ¬ strict := by
  obtain ⟨forward, answers⟩ := h.quiet
  have mine : (s.view m.msgid).outbound = some m := Keyed.get_of_mem inv.distinct hm
  have token := tokens.token online m.msgid
  have noForward : (s.view m.msgid).forward = [] := by simp [Link.view, forward]
  have noAnswer : (s.view m.msgid).answers = [] := by simp [Link.view, answers]
  cases waits : m.nextMessageType with
  | pubrec =>
    have underWay := token.pubrec mine waits
    simp [noForward, noAnswer] at underWay
  | pubcomp =>
    by_cases gone : (s.view m.msgid).inbound = none
    · refine ⟨?_, fun hs => ?_⟩
      · have absent : Keyed.get Prod.fst s.inboundMsgs m.msgid = none := gone
        simp [Link.holds, waits, absent]
      · have underWay := token.pubcomp mine waits gone hs
        simp [noAnswer] at underWay
    · have underWay := token.pubrel mine waits gone
      simp [noForward] at underWay

/-- At rest all messages are delivered and complete, if every one waits for an answer. -/
theorem Link.AtRest.complete {s : Link μ} (h : s.AtRest) (inv : s.Inv) (tokens : s.Tokens True)
    (online : s.online) : s.undelivered = [] ∧ s.unconfirmed = [] := by
  have empty : s.outboundMsgs = [] := by
    rw [List.eq_nil_iff_forall_not_mem]
    exact fun m hm => (h.delivered inv tokens online hm).2 trivial
  have processed : s.commands = [] := by
    rcases h.commands online with processed | full
    · exact processed
    · rw [empty, List.length_nil] at full
      exact absurd full (by decide)
  simp [Link.undelivered, Link.unconfirmed, processed, empty]

theorem handling_online {s s' : Link μ} {ops : List (LinkOp μ)} {outs : List (LinkOut μ)}
    (online : s.online) (handles : ∀ op ∈ ops, op.handles = true)
    (goes : run linkStep s ops = .ok (s', outs)) : s'.online := by
  refine run_invariant Link.online online (fun m hm hpre taken => ?_) goes
  obtain ⟨connected, disconnecting⟩ :=
    (linkStep_happens taken).stays (handles m.input (trace_input_mem hm))
  exact ⟨connected.trans hpre.1, disconnecting.trans hpre.2⟩

/-- The ends are connected, every connection started with all retries, and no message was given the
id of one in `outboundMsgs`.  However they go on to handle what is there, they come to rest, and all
messages that were processed have been delivered then; those that were not processed are waiting for
room. -/
theorem qos2_delivers (ops more : List (LinkOp μ)) {s s' : Link μ} {outs outs' : List (LinkOut μ)}
    (fresh : ∀ m ∈ linkTrace ops, m.input.Fresh m.pre)
    (full : ∀ due, .connect due ∈ ops → ∀ x, due x = true)
    (reached : run linkStep initLink ops = .ok (s, outs)) (online : s.online)
    (handles : ∀ op ∈ more, op.handles = true) (goes : run linkStep s more = .ok (s', outs')) :
    more.length ≤ s.work ∧
      (s'.AtRest → s'.undelivered = s'.commands.map Prod.snd ∧
        (s'.commands = [] ∨ maxMsgId - 1 ≤ s'.outboundMsgs.length)) := by
  have stays := handling_online online handles goes
  obtain ⟨inv, tokens⟩ : s'.Inv ∧ s'.Tokens False := by
    refine run_invariant (fun s => s.Inv ∧ s.Tokens False)
      (Link.Tokens.reached reached fresh full) ?_ goes
    rintro m hm ⟨inv, tokens⟩ taken
    have handling := handles m.input (trace_input_mem hm)
    refine ⟨(inv.step (LinkOp.Fresh.of_handles handling) taken).1,
      tokens.step inv (linkStep_happens taken) ?_ False.elim⟩
    rintro due hdue
    rw [hdue] at handling
    cases handling
  refine ⟨handling_length_le handles goes, fun rest => ⟨?_, rest.commands stays⟩⟩
  have none : s'.outboundMsgs.filter s'.holds = [] := by
    rw [List.filter_eq_nil_iff]
    intro m hm
    simp [(rest.delivered inv tokens stays hm).1]
  rw [Link.undelivered, none, List.map_nil, List.append_nil]

/-- The connection breaks behind PUBREC, and the message is sent again. -/
theorem qos2_delivers_sample :
    ∃ (s s' : Link ℕ) (outs outs' : List (LinkOut ℕ)),
      run linkStep initLink (sampleLinkOps.take 5 ++ [.disconnect false, .connect fun _ => true]) =
          .ok (s, outs) ∧
        run linkStep s [.receive] = .ok (s', outs') ∧ [(.receive : LinkOp ℕ)].length ≤ s.work ∧
        (s'.AtRest → s'.undelivered = s'.commands.map Prod.snd ∧
          (s'.commands = [] ∨ maxMsgId - 1 ≤ s'.outboundMsgs.length)) :=
  ⟨_, _, _, _, rfl, rfl,
    qos2_delivers (sampleLinkOps.take 5 ++ [.disconnect false, .connect fun _ => true]) [.receive]
      (by decide +kernel) (by simp +contextual [sampleLinkOps]) rfl ⟨rfl, rfl⟩
      (by simp [LinkOp.handles]) rfl⟩

/-- The ends are connected, and no connection has broken without its session being cleaned.  However
they go on to handle what is there, they come to rest, and all messages are delivered and complete
then. -/
theorem qos2_completes (ops more : List (LinkOp μ)) {s s' : Link μ} {outs outs' : List (LinkOut μ)}
    (kept : .disconnect false ∉ ops) (reached : run linkStep initLink ops = .ok (s, outs))
    (online : s.online) (handles : ∀ op ∈ more, op.handles = true)
    (goes : run linkStep s more = .ok (s', outs')) :
    more.length ≤ s.work ∧ (s'.AtRest → s'.undelivered = [] ∧ s'.unconfirmed = []) := by
  have stays := handling_online online handles goes
  have cared : s'.Cared := by
    refine run_invariant Link.Cared (Link.Cared.reached reached kept)
      (fun m hm h taken => h.step taken ?_) goes
    intro hop
    have handling := handles m.input (trace_input_mem hm)
    rw [hop] at handling
    cases handling
  rcases cared with closing | ⟨inv, tokens, -⟩
  · cases closing.symm.trans stays.2
  · exact ⟨handling_length_le handles goes, fun rest => rest.complete inv tokens stays⟩

theorem qos2_completes_sample :
    ∃ (s s' : Link ℕ) (outs outs' : List (LinkOut ℕ)),
      run linkStep initLink sampleLinkOps = .ok (s, outs) ∧
        run linkStep s [.answered] = .ok (s', outs') ∧ [(.answered : LinkOp ℕ)].length ≤ s.work ∧
        (s'.AtRest → s'.undelivered = [] ∧ s'.unconfirmed = []) :=
  ⟨_, _, _, _, rfl, rfl,
    qos2_completes sampleLinkOps [.answered] (by simp [sampleLinkOps]) rfl ⟨rfl, rfl⟩
      (by simp [LinkOp.handles]) rfl⟩

/-! ### A PUBCOMP that is lost -/

/-- The message was handed over, and no PUBCOMP is under way. -/
structure View.Forgotten (x : ℕ) (p : μ) (v : View μ) : Prop where
  mine : v.outbound = some ⟨x, p, .pubcomp⟩
  gone : v.inbound = none
  missing : .pubcomp x ∉ v.answers

theorem View.Forgotten.local {x : ℕ} {p : μ} {v v' : View μ} (h : v.Forgotten x p)
    (phase : Phase x v.outbound v.inbound v.forward v.answers) (step : Local x v v') :
    v'.Forgotten x p := by
  obtain ⟨mine, gone, missing⟩ := h
  cases step with
  | same => exact ⟨mine, gone, missing⟩
  | start q free => cases free.symm.trans mine
  | publish q dup fs head =>
    -- the sender sends no copy any more
    rw [head] at phase
    obtain ⟨type, hout, rfl | stored, -⟩ := phase.publish
    · cases hout.symm.trans mine
    · simp [gone] at stored
  | stale dup fs head absent =>
    rw [head] at phase
    obtain ⟨rfl, -⟩ := phase.pubrel
    exact ⟨mine, gone, by simpa using missing⟩
  | deliver dup fs head stored => exact absurd gone stored
  | release m as head hm waits =>
    cases hm.symm.trans mine
    cases waits
  | receipt as head unexpected => exact ⟨mine, gone, by simpa [head] using missing⟩
  | complete m as head hm waits => simp [head] at missing
  | ignored as head unexpected => simp [head] at missing
  | again m hm => exact ⟨mine, gone, missing⟩

theorem View.Forgotten.step {x : ℕ} {p : μ} {s s' : Link μ}
    (h : (s.view x).Forgotten x p)
    (inv : s.Inv) {op : LinkOp μ} {outs : List (LinkOut μ)} (happens : Happens s op s' outs)
    (kept : op ≠ .disconnect true) : (s'.view x).Forgotten x p := by
  by_cases written : op = .process true
  · obtain ⟨mine, gone, missing⟩ := h
    subst written
    cases happens with
    | unwritten head =>
      refine ⟨?_, gone, missing⟩
      show Keyed.get Messages.msgid (s.outboundMsgs ++ [_]) x = _
      rw [Keyed.get_append, show Keyed.get Messages.msgid s.outboundMsgs x = _ from mine]
      rfl
  · by_cases up : s.connected = true ∧ s'.connected = true
    · exact h.local (inv.phase x) (inv.local happens up.1 up.2 written x)
    · obtain ⟨mine, gone, missing⟩ := h
      have busy (h : s.forward ≠ [] ∨ s.answers ≠ []) (stays : s'.connected = s.connected) :
          (s'.view x).Forgotten x p := absurd ⟨inv.online h, stays.trans (inv.online h)⟩ up
      cases happens with
      | refused q => exact ⟨mine, gone, missing⟩
      | broken => exact ⟨mine, gone, by simp [Link.view]⟩
      | cleaned => exact absurd rfl kept
      | connect due offline => exact ⟨mine, gone, missing⟩
      | accepted q online => exact absurd ⟨online, online⟩ up
      | process head online => exact absurd ⟨online, online⟩ up
      | unwritten head online => exact absurd rfl written
      | retry due online => exact absurd ⟨online, online⟩ up
      | queued online => exact absurd ⟨online, online⟩ up
      | publish head => exact busy (.inl (by simp [head])) rfl
      | pubrel head => exact busy (.inl (by simp [head])) rfl
      | pubrec head => exact busy (.inr (by simp [head])) rfl
      | pubcomp head => exact busy (.inr (by simp [head])) rfl

theorem View.Forgotten.response {x : ℕ} {p : μ} {s s' : Link μ} (h : (s.view x).Forgotten x p)
    (inv : s.Inv) {op : LinkOp μ} {outs : List (LinkOut μ)} (happens : Happens s op s' outs)
    (kept : op ≠ .disconnect true) :
    Keyed.get Prod.fst s'.responses x = Keyed.get Prod.fst s.responses x := by
  cases happens with
  | cleaned => exact absurd rfl kept
  | process head =>
    refine (Keyed.get_concat (inv.fresh_response head) x).trans (if_neg ?_)
    rintro rfl
    cases (inv.fresh head).symm.trans h.mine
  | @pubcomp y answers head =>
    refine Keyed.get_erase_ne ?_ s.responses
    rintro rfl
    exact h.missing (by simp [Link.view, head])
  | _ => rfl

/-- PUBCOMP is under way for a message that was handed over. -/
theorem Phase.completes {x : ℕ} {o : Option (Messages μ)} {i : Option (ℕ × μ)}
    {fs : List (Forward μ)} {as : List Answer} (h : Phase x o i fs as) (mem : .pubcomp x ∈ as) :
    ∃ p, o = some ⟨x, p, .pubcomp⟩ ∧ i = none := by
  have noReceipt {as : List Answer} (receipts : Receipts x as) : .pubcomp x ∉ as := by
    intro hmem
    cases receipts _ hmem
  cases h with
  | idle | sending => cases mem
  | stored _ _ receipts => exact absurd mem (noReceipt receipts)
  | releasing _ _ _ receipts => exact absurd mem (noReceipt receipts)
  | released p => exact ⟨p, rfl, rfl⟩

/-- The connection breaks while a PUBCOMP is under way.  However the ends go on, and however often
the sender sends PUBREL again, the message stays in `outboundMsgs` and the application is not told of
its completion, until the session is cleaned; as long as no message is given the id of one that is
stored. -/
theorem lost_pubcomp (ops more : List (LinkOp μ)) {s s' : Link μ} {outs outs' : List (LinkOut μ)}
    {x : ℕ} (fresh : ∀ m ∈ linkTrace ops, m.input.Fresh m.pre)
    (fresh' : ∀ m ∈ trace linkStep s (.disconnect false :: more), m.input.Fresh m.pre)
    (reached : run linkStep initLink ops = .ok (s, outs)) (underWay : .pubcomp x ∈ s.answers)
    (kept : .disconnect true ∉ more)
    (goes : run linkStep s (.disconnect false :: more) = .ok (s', outs')) :
    ∃ p, ⟨x, p, .pubcomp⟩ ∈ s.outboundMsgs ∧ ⟨x, p, .pubcomp⟩ ∈ s'.outboundMsgs ∧
      ((x, p) ∈ s'.responses ↔ (x, p) ∈ s.responses) := by
  have inv : s.Inv := run_invariant Link.Inv initLink_inv
    (fun m mem hpre taken => (hpre.step (fresh m mem) taken).1) reached
  have answer : .pubcomp x ∈ (s.view x).answers := by simp [Link.view, underWay]
  obtain ⟨p, mine, gone⟩ := (inv.phase x).completes answer
  have before := (Keyed.get_mem mine).1
  obtain ⟨t, _, _, broken, continued, -⟩ := run_cons_eq_ok.1 goes
  rw [trace_cons broken] at fresh'
  have start : t.Inv ∧ (t.view x).Forgotten x p ∧
      Keyed.get Prod.fst t.responses x = Keyed.get Prod.fst s.responses x := by
    have anew : (LinkOp.disconnect false).Fresh s := trivial
    refine ⟨(inv.step anew broken).1, ?_⟩
    cases linkStep_happens broken
    exact ⟨⟨mine, gone, by simp [Link.view]⟩, rfl⟩
  obtain ⟨inv', forgotten, response⟩ : s'.Inv ∧ (s'.view x).Forgotten x p ∧
      Keyed.get Prod.fst s'.responses x = Keyed.get Prod.fst s.responses x := by
    refine run_invariant (fun s' => s'.Inv ∧ (s'.view x).Forgotten x p ∧
      Keyed.get Prod.fst s'.responses x = Keyed.get Prod.fst s.responses x) start ?_ continued
    rintro m mem ⟨inv, forgotten, response⟩ taken
    have cleans : m.input ≠ .disconnect true := fun hop => kept (hop ▸ trace_input_mem mem)
    have happens := linkStep_happens taken
    exact ⟨(inv.step (fresh' m (List.mem_cons_of_mem _ mem)) taken).1,
      forgotten.step inv happens cleans, (forgotten.response inv happens cleans).trans response⟩
  refine ⟨p, before, (Keyed.get_mem forgotten.mine).1, fun mem => ?_, fun mem => ?_⟩
  · have found := Keyed.get_of_mem inv'.responses_distinct mem
    exact (Keyed.get_mem (response.symm.trans found)).1
  · have found := Keyed.get_of_mem inv.responses_distinct mem
    exact (Keyed.get_mem (response.trans found)).1

/-- The sender connects again and sends PUBREL, which the receiver ignores. -/
theorem lost_pubcomp_sample :
    ∃ (s s' : Link ℕ) (outs outs' : List (LinkOut ℕ)),
      run linkStep initLink sampleLinkOps = .ok (s, outs) ∧
        run linkStep s [.disconnect false, .connect fun _ => true, .receive] = .ok (s', outs') ∧
        (1, 7) ∈ s.responses ∧
        ∃ p, ⟨1, p, .pubcomp⟩ ∈ s.outboundMsgs ∧ ⟨1, p, .pubcomp⟩ ∈ s'.outboundMsgs ∧
          ((1, p) ∈ s'.responses ↔ (1, p) ∈ s.responses) :=
  ⟨_, _, _, _, rfl, rfl, by decide,
    lost_pubcomp sampleLinkOps [.connect fun _ => true, .receive] (by decide +kernel)
      (by decide +kernel) rfl (by decide) (by simp) rfl⟩

end Siproxy.Mqtt
