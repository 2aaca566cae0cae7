import Mathlib.Data.List.Perm.Subperm
import Siproxy.Lib.Keyed
import Siproxy.Lib.Machine
import Siproxy.Mqtt.MsgId

/-!
# Publishing with QoS 2

`siproxy` publishes with QoS 2, and subscribes with it.  The two ends of a connection that both run
the handlers of `MQTTProtocolClient.c`, one direction of it: the sender stores a message in
`outboundMsgs` and sends PUBLISH, the receiver stores it in `inboundMsgs` and answers PUBREC, the
sender answers PUBREL, and on it the receiver answers PUBCOMP and hands the message to the
application.  Packets travel in order.  A connection may break at any time, which loses the packets
that are under way, and a message for which no answer has come may be sent again at any time.  Where
PUBLISH cannot be written, the application is told so, but the message stays in `outboundMsgs`.

Each end is written with its functions on its lists; `linkStep` interleaves them.
-/

namespace Siproxy.Mqtt

open Machine

variable {μ : Type}

/-- `nextMessageType` of a message that is sent. -/
inductive AckType where
  | pubrec
  | pubcomp
  deriving DecidableEq

/-- `struct Messages` in `outboundMsgs`, with QoS 2. -/
structure Messages (μ : Type) where
  msgid : ℕ
  publish : μ
  nextMessageType : AckType
  deriving DecidableEq

/-- A packet to the receiver. -/
inductive Forward (μ : Type) where
  | publish (msgid : ℕ) (publish : μ) (dup : Bool)
  | pubrel (msgid : ℕ) (dup : Bool)
  deriving DecidableEq

/-- A packet to the sender. -/
inductive Answer where
  | pubrec (msgid : ℕ)
  | pubcomp (msgid : ℕ)
  deriving DecidableEq

/-! ### The sender -/

/-- `MQTTProtocol_startPublish`: the message is stored, and PUBLISH sent. -/
def startPublish (outboundMsgs : List (Messages μ)) (msgid : ℕ) (publish : μ) :
    List (Messages μ) × List (Forward μ) :=
  (outboundMsgs ++ [⟨msgid, publish, .pubrec⟩], [.publish msgid publish false])

/-- The message is released. -/
def Messages.release (m : Messages μ) : Messages μ := { m with nextMessageType := .pubcomp }

/-- `MQTTProtocol_handlePubrecs`. -/
def handlePubrecs (outboundMsgs : List (Messages μ)) (msgid : ℕ) :
    List (Messages μ) × List (Forward μ) :=
  match Keyed.get Messages.msgid outboundMsgs msgid with
  | none => (outboundMsgs, [])
  | some m =>
    if m.nextMessageType ≠ .pubrec then (outboundMsgs, [])
    else
      (Keyed.modifyFirst Messages.msgid msgid Messages.release outboundMsgs, [.pubrel msgid false])

/-- `MQTTProtocol_handlePubcomps`. -/
def handlePubcomps (outboundMsgs : List (Messages μ)) (msgid : ℕ) : List (Messages μ) :=
  match Keyed.get Messages.msgid outboundMsgs msgid with
  | none => outboundMsgs
  | some m =>
    if m.nextMessageType ≠ .pubcomp then outboundMsgs
    else Keyed.erase Messages.msgid outboundMsgs msgid

/-- What `MQTTProtocol_retries` sends for a message: PUBLISH with the flag `dup`, or PUBREL without
it. -/
def Messages.retry (m : Messages μ) : Forward μ :=
  match m.nextMessageType with
  | .pubrec => .publish m.msgid m.publish true
  | .pubcomp => .pubrel m.msgid false

/-- `MQTTProtocol_retries`; `due` are the messages that it gets to and that are old enough. -/
def retries (outboundMsgs : List (Messages μ)) (due : ℕ → Bool) : List (Forward μ) :=
  (outboundMsgs.filter fun m => due m.msgid).map Messages.retry

/-! ### The receiver -/

/-- `MQTTProtocol_handlePublishes`: the message is stored, in the place of one with its id if there
is one, and PUBREC sent. -/
def handlePublishes (inboundMsgs : List (ℕ × μ)) (msgid : ℕ) (publish : μ) :
    List (ℕ × μ) × List Answer :=
  (match Keyed.get Prod.fst inboundMsgs msgid with
    | some _ => Keyed.modifyFirst Prod.fst msgid (fun m => (m.1, publish)) inboundMsgs
    | none => inboundMsgs ++ [(msgid, publish)],
    [.pubrec msgid])

/-- `MQTTProtocol_handlePubrels`; also returns what the application gets. -/
def handlePubrels (inboundMsgs : List (ℕ × μ)) (msgid : ℕ) (dup : Bool) :
    List (ℕ × μ) × List Answer × List μ :=
  match Keyed.get Prod.fst inboundMsgs msgid with
  | none => (inboundMsgs, if dup then [.pubcomp msgid] else [], [])
  | some m => (Keyed.erase Prod.fst inboundMsgs msgid, [.pubcomp msgid], [m.2])

/-! ### The connection -/

/-- The two ends and the packets between them.  `commands` are the messages that
`MQTTAsync_processCommand` has not got to, and `responses` those that the application has not been
told of. -/
structure Link (μ : Type) where
  connected : Bool
  /-- A DISCONNECT of `MQTTAsync_disconnect_internal` is in front of the commands. -/
  disconnecting : Bool
  msgID : ℕ
  commands : List (ℕ × μ)
  responses : List (ℕ × μ)
  outboundMsgs : List (Messages μ)
  forward : List (Forward μ)
  inboundMsgs : List (ℕ × μ)
  answers : List Answer

def initLink : Link μ := ⟨false, false, 0, [], [], [], [], [], []⟩

/-- A step at one of the ends. -/
inductive LinkOp (μ : Type) where
  /-- The application calls `MQTTAsync_sendMessage`. -/
  | send (publish : μ)
  /-- `MQTTAsync_processCommand`; `failed` if `rc` of `MQTTProtocol_startPublish` is
  `SOCKET_ERROR`. -/
  | process (failed : Bool)
  /-- The receiver gets a packet, and the sender. -/
  | receive
  | answered
  | retry (due : ℕ → Bool)
  /-- `MQTTAsync_disconnect_internal`: another write has failed, or a read.  What was not written is
  lost with the connection. -/
  | disconnectInternal
  /-- `MQTTAsync_closeSession` at both ends, with `cleansession` or without. -/
  | disconnect (cleansession : Bool)
  /-- `MQTTAsync_completeConnection`; `due` are the messages that the retries get to. -/
  | connect (due : ℕ → Bool)

/-- What is seen from outside. -/
inductive LinkOut (μ : Type) where
  | accepted (publish : μ)
  | delivered (publish : μ)
  /-- `onSuccess` of a message, and `onFailure`. -/
  | completed (publish : μ)
  | failed (publish : μ)
  /-- What `MQTTAsync_cleanSession` throws away. -/
  | cleaned (publish : μ)
  deriving DecidableEq

/-- The ids that `MQTTAsync_assignMsgId` passes over. -/
def Link.used (s : Link μ) : List ℕ := s.commands.map Prod.fst ++ s.responses.map Prod.fst

/-- The next id is not that of a message in `outboundMsgs`.  `MQTTAsync_assignMsgId` looks for it in
the commands and the responses only, where a message is missing whose PUBLISH was not written. -/
def Link.Fresh (s : Link μ) : Prop :=
  ∀ r ∈ assignMsgId maxMsgId s.used s.msgID, r.1 ∉ s.outboundMsgs.map Messages.msgid

instance (s : Link μ) : Decidable s.Fresh :=
  inferInstanceAs (Decidable (∀ r ∈ assignMsgId maxMsgId s.used s.msgID,
    r.1 ∉ s.outboundMsgs.map Messages.msgid))

/-- `MQTTAsync_send`: a message is refused if there is no connection or no id. -/
def Link.send (s : Link μ) (publish : μ) : Option (Link μ × List (LinkOut μ)) :=
  if s.connected = false then some (s, [])
  else
    (assignMsgId maxMsgId s.used s.msgID).map fun (msgid, last) =>
      if msgid = 0 then (s, [])
      else
        ({ s with msgID := last, commands := s.commands ++ [(msgid, publish)] },
          [.accepted publish])

/-- `MQTTAsync_processCommand` with a message. -/
def Link.process (s : Link μ) (failed : Bool) : Option (Link μ × List (LinkOut μ)) :=
  match s.commands with
  | [] => none
  | (msgid, publish) :: commands =>
    if s.connected ∧ s.disconnecting = false ∧ s.outboundMsgs.length < maxMsgId - 1 then
      let (outboundMsgs, sent) := startPublish s.outboundMsgs msgid publish
      if failed then
        -- the command is freed, and the message stays where it was stored
        some ({ s with
          commands := commands, outboundMsgs := outboundMsgs, disconnecting := true },
          [.failed publish])
      else
        some ({ s with
          commands := commands
          responses := s.responses ++ [(msgid, publish)]
          outboundMsgs := outboundMsgs
          forward := s.forward ++ sent }, [])
    else none

/-- The receiver handles a packet. -/
def Link.receive (s : Link μ) : Option (Link μ × List (LinkOut μ)) :=
  match s.forward with
  | [] => none
  | .publish msgid publish _ :: forward =>
    let (inboundMsgs, sent) := handlePublishes s.inboundMsgs msgid publish
    some ({ s with
      forward := forward, inboundMsgs := inboundMsgs, answers := s.answers ++ sent }, [])
  | .pubrel msgid dup :: forward =>
    let (inboundMsgs, sent, delivered) := handlePubrels s.inboundMsgs msgid dup
    some ({ s with
      forward := forward, inboundMsgs := inboundMsgs, answers := s.answers ++ sent },
      delivered.map .delivered)

/-- The sender handles a packet; on PUBCOMP `MQTTAsync_cycle` also looks for the response. -/
def Link.answered (s : Link μ) : Option (Link μ × List (LinkOut μ)) :=
  match s.answers with
  | [] => none
  | .pubrec msgid :: answers =>
    let (outboundMsgs, sent) := handlePubrecs s.outboundMsgs msgid
    some ({ s with
      answers := answers, outboundMsgs := outboundMsgs, forward := s.forward ++ sent }, [])
  | .pubcomp msgid :: answers =>
    some ({ s with
      answers := answers
      outboundMsgs := handlePubcomps s.outboundMsgs msgid
      responses := Keyed.erase Prod.fst s.responses msgid },
      ((Keyed.get Prod.fst s.responses msgid).map fun r => .completed r.2).toList)

/-- The connection breaks. -/
def Link.disconnect (s : Link μ) (cleansession : Bool) : Link μ × List (LinkOut μ) :=
  if cleansession then
    (initLink, (s.commands.map Prod.snd ++ s.outboundMsgs.map Messages.publish).map .cleaned)
  else
    ({ s with connected := false, disconnecting := false, forward := [], answers := [] }, [])

/-- One step. -/
def linkStep (s : Link μ) : LinkOp μ → Except Unit (Link μ × List (LinkOut μ))
  | .send publish => (s.send publish).elim (.error ()) .ok
  | .process failed => (s.process failed).elim (.error ()) .ok
  | .receive => s.receive.elim (.error ()) .ok
  | .answered => s.answered.elim (.error ()) .ok
  | .retry due =>
    if s.connected then
      .ok ({ s with forward := s.forward ++ retries s.outboundMsgs due }, [])
    else .error ()
  | .disconnectInternal =>
    if s.connected then .ok ({ s with disconnecting := true }, []) else .error ()
  | .disconnect cleansession => .ok (s.disconnect cleansession)
  | .connect due =>
    if s.connected then .error ()
    else
      .ok ({ s with connected := true, forward := retries s.outboundMsgs due }, [])

/-- Everything that a step can do. -/
inductive Happens (s : Link μ) : LinkOp μ → Link μ → List (LinkOut μ) → Prop
  | refused (p : μ) : Happens s (.send p) s []
  | accepted (p : μ) {msgid last : ℕ} (online : s.connected = true)
      (assigned : assignMsgId maxMsgId s.used s.msgID = some (msgid, last)) (nonzero : msgid ≠ 0) :
      Happens s (.send p) { s with msgID := last, commands := s.commands ++ [(msgid, p)] }
        [.accepted p]
  | process {msgid : ℕ} {p : μ} {commands : List (ℕ × μ)}
      (head : s.commands = (msgid, p) :: commands) (online : s.connected = true)
      (going : s.disconnecting = false) (room : s.outboundMsgs.length < maxMsgId - 1) :
      Happens s (.process false) { s with
        commands := commands
        responses := s.responses ++ [(msgid, p)]
        outboundMsgs := s.outboundMsgs ++ [⟨msgid, p, .pubrec⟩]
        forward := s.forward ++ [.publish msgid p false] } []
  | unwritten {msgid : ℕ} {p : μ} {commands : List (ℕ × μ)}
      (head : s.commands = (msgid, p) :: commands) (online : s.connected = true) :
      Happens s (.process true) { s with
        commands := commands
        outboundMsgs := s.outboundMsgs ++ [⟨msgid, p, .pubrec⟩]
        disconnecting := true } [.failed p]
  | publish {x : ℕ} {p : μ} {dup : Bool} {forward : List (Forward μ)}
      (head : s.forward = .publish x p dup :: forward) :
      Happens s .receive { s with
        forward := forward
        inboundMsgs := (handlePublishes s.inboundMsgs x p).1
        answers := s.answers ++ [.pubrec x] } []
  | pubrel {x : ℕ} {dup : Bool} {forward : List (Forward μ)}
      (head : s.forward = .pubrel x dup :: forward) :
      Happens s .receive { s with
        forward := forward
        inboundMsgs := (handlePubrels s.inboundMsgs x dup).1
        answers := s.answers ++ (handlePubrels s.inboundMsgs x dup).2.1 }
        ((handlePubrels s.inboundMsgs x dup).2.2.map .delivered)
  | pubrec {x : ℕ} {answers : List Answer} (head : s.answers = .pubrec x :: answers) :
      Happens s .answered { s with
        answers := answers
        outboundMsgs := (handlePubrecs s.outboundMsgs x).1
        forward := s.forward ++ (handlePubrecs s.outboundMsgs x).2 } []
  | pubcomp {x : ℕ} {answers : List Answer} (head : s.answers = .pubcomp x :: answers) :
      Happens s .answered { s with
        answers := answers
        outboundMsgs := handlePubcomps s.outboundMsgs x
        responses := Keyed.erase Prod.fst s.responses x }
        ((Keyed.get Prod.fst s.responses x).map fun r => .completed r.2).toList
  | retry (due : ℕ → Bool) (online : s.connected = true) :
      Happens s (.retry due) { s with forward := s.forward ++ retries s.outboundMsgs due } []
  | queued (online : s.connected = true) :
      Happens s .disconnectInternal { s with disconnecting := true } []
  | broken :
      Happens s (.disconnect false)
        { s with connected := false, disconnecting := false, forward := [], answers := [] } []
  | cleaned :
      Happens s (.disconnect true) initLink
        ((s.commands.map Prod.snd ++ s.outboundMsgs.map Messages.publish).map .cleaned)
  | connect (due : ℕ → Bool) (offline : s.connected = false) :
      Happens s (.connect due)
        { s with connected := true, forward := retries s.outboundMsgs due } []

section Happens

variable {s s' : Link μ} {outs : List (LinkOut μ)}

theorem Link.send_happens {p : μ} (taken : s.send p = some (s', outs)) :
    Happens s (.send p) s' outs := by
  unfold Link.send at taken
  split_ifs at taken with offline
  · cases taken
    exact .refused p
  · cases assigned : assignMsgId maxMsgId s.used s.msgID with
    | none =>
      rw [assigned] at taken
      cases taken
    | some r =>
      obtain ⟨msgid, last⟩ := r
      simp only [assigned, Option.map_some] at taken
      split_ifs at taken with zero
      · cases taken
        exact .refused p
      · cases taken
        exact .accepted p (eq_true_of_ne_false offline) assigned zero

theorem Link.process_happens {failed : Bool} (taken : s.process failed = some (s', outs)) :
    Happens s (.process failed) s' outs := by
  cases head : s.commands with
  | nil =>
    simp only [Link.process, head] at taken
    cases taken
  | cons c commands =>
    simp only [Link.process, head, startPublish] at taken
    split_ifs at taken with ready lost
    · subst lost
      cases taken
      exact .unwritten head ready.1
    · obtain rfl : failed = false := eq_false_of_ne_true lost
      cases taken
      exact .process head ready.1 ready.2.1 ready.2.2

theorem Link.receive_happens (taken : s.receive = some (s', outs)) :
    Happens s .receive s' outs := by
  cases head : s.forward with
  | nil =>
    simp only [Link.receive, head] at taken
    cases taken
  | cons f forward =>
    cases f with
    | publish x p dup =>
      simp only [Link.receive, head] at taken
      cases taken
      exact .publish head
    | pubrel x dup =>
      simp only [Link.receive, head] at taken
      cases taken
      exact .pubrel head

theorem Link.answered_happens (taken : s.answered = some (s', outs)) :
    Happens s .answered s' outs := by
  cases head : s.answers with
  | nil =>
    simp only [Link.answered, head] at taken
    cases taken
  | cons a answers =>
    cases a with
    | pubrec x =>
      simp only [Link.answered, head] at taken
      cases taken
      exact .pubrec head
    | pubcomp x =>
      simp only [Link.answered, head] at taken
      cases taken
      exact .pubcomp head

/-- A step that is possible only where there is something to do. -/
theorem some_of_elim {α : Type} {o : Option α} {r : α}
    (h : o.elim (.error ()) (Except.ok : α → Except Unit α) = .ok r) : o = some r := by
  cases o with
  | none => cases h
  | some a => rw [Except.ok.inj h]

theorem linkStep_happens {op : LinkOp μ} (taken : linkStep s op = .ok (s', outs)) :
    Happens s op s' outs := by
  cases op with
  | send p => exact Link.send_happens (some_of_elim taken)
  | process failed => exact Link.process_happens (some_of_elim taken)
  | receive => exact Link.receive_happens (some_of_elim taken)
  | answered => exact Link.answered_happens (some_of_elim taken)
  | retry due =>
    simp only [linkStep] at taken
    split_ifs at taken with online
    cases taken
    exact .retry due online
  | disconnectInternal =>
    simp only [linkStep] at taken
    split_ifs at taken with online
    cases taken
    exact .queued online
  | disconnect cleansession =>
    cases cleansession with
    | true =>
      simp only [linkStep, Link.disconnect, if_true] at taken
      cases taken
      exact .cleaned
    | false =>
      simp only [linkStep, Link.disconnect, Bool.false_eq_true, if_false] at taken
      cases taken
      exact .broken
  | connect due =>
    simp only [linkStep] at taken
    split_ifs at taken with online
    cases taken
    exact .connect due (Bool.eq_false_iff.2 online)

end Happens

/-- A recorded step. -/
abbrev LinkMove (μ : Type) := Move (Link μ) (LinkOp μ) (LinkOut μ)

abbrev linkTrace (ops : List (LinkOp μ)) : List (LinkMove μ) := trace linkStep initLink ops

/-! ### What can be under way for an id -/

def Forward.msgid : Forward μ → ℕ
  | .publish msgid _ _ => msgid
  | .pubrel msgid _ => msgid

def Answer.msgid : Answer → ℕ
  | .pubrec msgid => msgid
  | .pubcomp msgid => msgid

@[simp]
theorem Forward.msgid_publish (msgid : ℕ) (publish : μ) (dup : Bool) :
    (Forward.publish msgid publish dup).msgid = msgid := rfl

@[simp]
theorem Forward.msgid_pubrel (msgid : ℕ) (dup : Bool) :
    (Forward.pubrel msgid dup : Forward μ).msgid = msgid := rfl

@[simp]
theorem Answer.msgid_pubrec (msgid : ℕ) : (Answer.pubrec msgid).msgid = msgid := rfl

@[simp]
theorem Answer.msgid_pubcomp (msgid : ℕ) : (Answer.pubcomp msgid).msgid = msgid := rfl

/-- Releases of the id, all without the flag `dup`. -/
def Releases (msgid : ℕ) (fs : List (Forward μ)) : Prop := ∀ f ∈ fs, f = .pubrel msgid false

/-- Copies of the message. -/
def Copies (msgid : ℕ) (publish : μ) (fs : List (Forward μ)) : Prop :=
  ∀ f ∈ fs, ∃ dup, f = .publish msgid publish dup

/-- Receipts of the id. -/
def Receipts (msgid : ℕ) (as : List Answer) : Prop := ∀ a ∈ as, a = .pubrec msgid

/-- What both ends have stored for an id, and the packets about it that are under way. -/
inductive Phase (msgid : ℕ) : Option (Messages μ) → Option (ℕ × μ) → List (Forward μ) →
    List Answer → Prop
  /-- The id is free; releases may be left over from its last use. -/
  | idle {fs : List (Forward μ)} (late : Releases msgid fs) : Phase msgid none none fs []
  | sending (publish : μ) {late fs : List (Forward μ)} (hlate : Releases msgid late)
      (copies : Copies msgid publish fs) :
      Phase msgid (some ⟨msgid, publish, .pubrec⟩) none (late ++ fs) []
  | stored (publish : μ) {fs : List (Forward μ)} (copies : Copies msgid publish fs)
      {as : List Answer} (receipts : Receipts msgid as) :
      Phase msgid (some ⟨msgid, publish, .pubrec⟩) (some (msgid, publish)) fs as
  | releasing (publish : μ) {fs rs : List (Forward μ)} (copies : Copies msgid publish fs)
      (releases : Releases msgid rs) {as : List Answer} (receipts : Receipts msgid as) :
      Phase msgid (some ⟨msgid, publish, .pubcomp⟩) (some (msgid, publish)) (fs ++ rs) as
  /-- The message was handed over, and there is at most one PUBCOMP. -/
  | released (publish : μ) {fs : List (Forward μ)} (releases : Releases msgid fs)
      {as : List Answer} (receipts : Receipts msgid as) (completes : Bool) :
      Phase msgid (some ⟨msgid, publish, .pubcomp⟩) none fs
        (as ++ if completes then [.pubcomp msgid] else [])

section Phase

variable {x : ℕ} {o : Option (Messages μ)} {i : Option (ℕ × μ)} {fs : List (Forward μ)}
  {as : List Answer}

theorem Releases.not_publish {p : μ} {dup : Bool} {rest : List (Forward μ)}
    (h : Releases x (.publish x p dup :: rest)) : False := by
  have head := h _ List.mem_cons_self
  cases head

theorem Copies.not_pubrel {p : μ} {dup : Bool} {rest : List (Forward μ)}
    (h : Copies x p (.pubrel x dup :: rest)) : False := by
  obtain ⟨_, head⟩ := h _ List.mem_cons_self
  cases head

theorem Releases.concat (h : Releases x fs) : Releases x (fs ++ [.pubrel x false]) := by
  intro f hf
  rcases List.mem_append.1 hf with hf | hf
  · exact h f hf
  · exact List.mem_singleton.1 hf

theorem Copies.concat {p : μ} (h : Copies x p fs) (dup : Bool) :
    Copies x p (fs ++ [.publish x p dup]) := by
  intro f hf
  rcases List.mem_append.1 hf with hf | hf
  · exact h f hf
  · exact ⟨dup, List.mem_singleton.1 hf⟩

theorem Receipts.concat (h : Receipts x as) : Receipts x (as ++ [.pubrec x]) := by
  intro a ha
  rcases List.mem_append.1 ha with ha | ha
  · exact h a ha
  · exact List.mem_singleton.1 ha

theorem Phase.fresh (x : ℕ) : Phase x (none : Option (Messages μ)) none [] [] := by
  have noRelease : Releases x ([] : List (Forward μ)) := by simp [Releases]
  exact .idle noRelease

/-- The receiver gets a copy of a message: it is the one that the sender has stored, and has not been
handed over. -/
theorem Phase.publish {p : μ} {dup : Bool} (h : Phase x o i (.publish x p dup :: fs) as) :
    ∃ type, o = some ⟨x, p, type⟩ ∧ (type = .pubrec ∨ i.isSome) ∧
      Phase x o (some (x, p)) fs (as ++ [.pubrec x]) := by
  generalize hfs : Forward.publish x p dup :: fs = all at h
  cases h with
  | idle late => exact (hfs ▸ late).not_publish.elim
  | @sending q late copies hlate hcopies =>
    cases late with
    | cons l late =>
      obtain ⟨rfl, -⟩ := List.cons.inj hfs
      exact hlate.not_publish.elim
    | nil =>
      rw [List.nil_append] at hfs
      subst hfs
      obtain ⟨_, head⟩ := hcopies _ List.mem_cons_self
      cases head
      exact ⟨.pubrec, rfl, .inl rfl, .stored p (fun f hf => hcopies f (List.mem_cons_of_mem _ hf))
        (by simp [Receipts])⟩
  | stored q copies receipts =>
    subst hfs
    obtain ⟨_, head⟩ := copies _ List.mem_cons_self
    cases head
    exact ⟨.pubrec, rfl, .inl rfl, .stored p (fun f hf => copies f (List.mem_cons_of_mem _ hf))
      receipts.concat⟩
  | @releasing q copies rs hcopies releases _ receipts =>
    cases copies with
    | nil =>
      rw [List.nil_append] at hfs
      exact (hfs ▸ releases).not_publish.elim
    | cons c copies =>
      obtain ⟨rfl, rfl⟩ := List.cons.inj hfs
      obtain ⟨_, head⟩ := hcopies _ List.mem_cons_self
      cases head
      exact ⟨.pubcomp, rfl, .inr rfl, .releasing p
        (fun f hf => hcopies f (List.mem_cons_of_mem _ hf)) releases receipts.concat⟩
  | released q releases receipts => exact (hfs ▸ releases).not_publish.elim

/-- The receiver gets a release: the message was handed over before, or it is now. -/
theorem Phase.pubrel {dup : Bool} (h : Phase x o i (.pubrel x dup :: fs) as) :
    dup = false ∧ (i = none ∧ Phase x o none fs as ∨
      ∃ p, i = some (x, p) ∧ o = some ⟨x, p, .pubcomp⟩ ∧
        Phase x o none fs (as ++ [.pubcomp x])) := by
  generalize hfs : Forward.pubrel x dup :: fs = all at h
  cases h with
  | idle late =>
    subst hfs
    cases late _ List.mem_cons_self
    exact ⟨rfl, .inl ⟨rfl, .idle fun f hf => late f (List.mem_cons_of_mem _ hf)⟩⟩
  | @sending q late copies hlate hcopies =>
    cases late with
    | nil => exact (hfs ▸ hcopies : Copies x q (.pubrel x dup :: fs)).not_pubrel.elim
    | cons l late =>
      obtain ⟨rfl, rfl⟩ := List.cons.inj hfs
      cases hlate _ List.mem_cons_self
      exact ⟨rfl, .inl ⟨rfl, .sending q (fun f hf => hlate f (List.mem_cons_of_mem _ hf)) hcopies⟩⟩
  | stored q copies => exact (hfs ▸ copies).not_pubrel.elim
  | @releasing q copies rs hcopies releases _ receipts =>
    cases copies with
    | cons c copies =>
      obtain ⟨rfl, -⟩ := List.cons.inj hfs
      exact hcopies.not_pubrel.elim
    | nil =>
      rw [List.nil_append] at hfs
      subst hfs
      cases releases _ List.mem_cons_self
      exact ⟨rfl, .inr ⟨q, rfl, rfl, .released q
        (fun f hf => releases f (List.mem_cons_of_mem _ hf)) receipts true⟩⟩
  | released q releases receipts completes =>
    subst hfs
    cases releases _ List.mem_cons_self
    exact ⟨rfl, .inl ⟨rfl, .released q (fun f hf => releases f (List.mem_cons_of_mem _ hf)) receipts
      completes⟩⟩

/-- The sender gets a receipt: it answers with a release, or has done so before. -/
theorem Phase.pubrec (h : Phase x o i fs (.pubrec x :: as)) :
    ∃ p, o = some ⟨x, p, .pubrec⟩ ∧ i = some (x, p) ∧
        Phase x (some ⟨x, p, .pubcomp⟩) i (fs ++ [.pubrel x false]) as ∨
      o = some ⟨x, p, .pubcomp⟩ ∧ Phase x o i fs as := by
  generalize has : Answer.pubrec x :: as = all at h
  cases h with
  | idle => cases has
  | sending => cases has
  | stored p copies receipts =>
    subst has
    have tail : Receipts x as := fun a ha => receipts a (List.mem_cons_of_mem _ ha)
    exact ⟨p, .inl ⟨rfl, rfl, .releasing p copies (by simp [Releases]) tail⟩⟩
  | releasing p copies releases receipts =>
    subst has
    have tail : Receipts x as := fun a ha => receipts a (List.mem_cons_of_mem _ ha)
    exact ⟨p, .inr ⟨rfl, .releasing p copies releases tail⟩⟩
  | @released p _ releases bs receipts completes =>
    cases bs with
    | nil => cases completes <;> cases has
    | cons b bs =>
      obtain ⟨rfl, rfl⟩ := List.cons.inj has
      have tail : Receipts x bs := fun a ha => receipts a (List.mem_cons_of_mem _ ha)
      exact ⟨p, .inr ⟨rfl, .released p releases tail completes⟩⟩

/-- The sender gets PUBCOMP: the message was handed over, and its id becomes free. -/
theorem Phase.pubcomp (h : Phase x o i fs (.pubcomp x :: as)) :
    ∃ p, o = some ⟨x, p, .pubcomp⟩ ∧ i = none ∧ as = [] ∧ Phase x (none : Option (Messages μ)) none
      fs [] := by
  have noReceipt {bs : List Answer} (receipts : Receipts x (.pubcomp x :: bs)) : False := by
    have head := receipts _ List.mem_cons_self
    cases head
  generalize has : Answer.pubcomp x :: as = all at h
  cases h with
  | idle => cases has
  | sending => cases has
  | stored _ _ receipts => exact (noReceipt (has ▸ receipts)).elim
  | releasing _ _ _ receipts => exact (noReceipt (has ▸ receipts)).elim
  | @released p _ releases bs receipts completes =>
    cases bs with
    | cons b bs =>
      obtain ⟨rfl, -⟩ := List.cons.inj has
      exact (noReceipt receipts).elim
    | nil =>
      cases completes with
      | false => cases has
      | true =>
        cases has
        exact ⟨p, rfl, rfl, rfl, .idle releases⟩

theorem Phase.retry {m : Messages μ} (h : Phase x (some m) i fs as) :
    Phase x (some m) i (fs ++ [m.retry]) as := by
  cases h with
  | sending p hlate copies =>
    rw [List.append_assoc]
    exact .sending p hlate (copies.concat true)
  | stored p copies receipts => exact .stored p (copies.concat true) receipts
  | releasing p copies releases receipts =>
    rw [List.append_assoc]
    exact .releasing p copies releases.concat receipts
  | released p releases receipts completes =>
    exact .released p releases.concat receipts completes

theorem Phase.lose (h : Phase x o i fs as) : Phase x o i [] [] := by
  have noForward : Releases x ([] : List (Forward μ)) := by simp [Releases]
  have noAnswer : Receipts x [] := by simp [Receipts]
  cases h with
  | idle => exact .idle noForward
  | sending p => exact .sending p noForward (by simp [Copies])
  | stored p => exact .stored p (by simp [Copies]) noAnswer
  | releasing p =>
    have noCopy : Copies x p [] := by simp [Copies]
    exact .releasing p noCopy noForward noAnswer
  | released p => exact .released p noForward noAnswer false

theorem Phase.start (h : Phase x none i fs as) (p : μ) :
    Phase x (some ⟨x, p, .pubrec⟩) i (fs ++ [.publish x p false]) as := by
  cases h with
  | idle late => exact .sending p late (by simp [Copies])

/-- A message is stored with an id that is free, and PUBLISH is not written. -/
theorem Phase.unwritten (h : Phase x none i fs as) (p : μ) :
    Phase x (some ⟨x, p, .pubrec⟩) i fs as := by
  cases h with
  | @idle fs late =>
    have noCopy : Copies x p [] := by simp [Copies]
    simpa using Phase.sending p late noCopy

end Phase

/-! ### What a step does to one id -/

/-- What concerns one id. -/
structure View (μ : Type) where
  outbound : Option (Messages μ)
  inbound : Option (ℕ × μ)
  forward : List (Forward μ)
  answers : List Answer

/-- What both ends have stored for an id, and the packets about it, in order. -/
def Link.view (s : Link μ) (msgid : ℕ) : View μ where
  outbound := Keyed.get Messages.msgid s.outboundMsgs msgid
  inbound := Keyed.get Prod.fst s.inboundMsgs msgid
  forward := s.forward.filter (·.msgid = msgid)
  answers := s.answers.filter (·.msgid = msgid)

/-- What a step can do to an id while the connection is up. -/
inductive Local (x : ℕ) (v : View μ) : View μ → Prop
  | same : Local x v v
  | start (p : μ) (free : v.outbound = none) :
      Local x v { v with
        outbound := some ⟨x, p, .pubrec⟩, forward := v.forward ++ [.publish x p false] }
  | publish (p : μ) (dup : Bool) (fs : List (Forward μ)) (head : v.forward = .publish x p dup :: fs) :
      Local x v { v with inbound := some (x, p), forward := fs, answers := v.answers ++ [.pubrec x] }
  /-- A release of a message that is not there. -/
  | stale (dup : Bool) (fs : List (Forward μ)) (head : v.forward = .pubrel x dup :: fs)
      (missing : v.inbound = none) :
      Local x v { v with
        forward := fs, answers := v.answers ++ if dup then [.pubcomp x] else [] }
  | deliver (dup : Bool) (fs : List (Forward μ)) (head : v.forward = .pubrel x dup :: fs)
      (stored : v.inbound ≠ none) :
      Local x v { v with inbound := none, forward := fs, answers := v.answers ++ [.pubcomp x] }
  | release (m : Messages μ) (as : List Answer) (head : v.answers = .pubrec x :: as)
      (mine : v.outbound = some m) (waits : m.nextMessageType = .pubrec) :
      Local x v { v with
        outbound := some m.release, forward := v.forward ++ [.pubrel x false], answers := as }
  /-- A receipt that is not waited for. -/
  | receipt (as : List Answer) (head : v.answers = .pubrec x :: as)
      (unexpected : ∀ m ∈ v.outbound, m.nextMessageType ≠ .pubrec) :
      Local x v { v with answers := as }
  | complete (m : Messages μ) (as : List Answer) (head : v.answers = .pubcomp x :: as)
      (mine : v.outbound = some m) (waits : m.nextMessageType = .pubcomp) :
      Local x v { v with outbound := none, answers := as }
  | ignored (as : List Answer) (head : v.answers = .pubcomp x :: as)
      (unexpected : ∀ m ∈ v.outbound, m.nextMessageType ≠ .pubcomp) :
      Local x v { v with answers := as }
  | again (m : Messages μ) (mine : v.outbound = some m) :
      Local x v { v with forward := v.forward ++ [m.retry] }

theorem Phase.local {x : ℕ} {v v' : View μ}
    (h : Phase x v.outbound v.inbound v.forward v.answers) (step : Local x v v') :
    Phase x v'.outbound v'.inbound v'.forward v'.answers := by
  cases step with
  | same => exact h
  | start p free =>
    rw [free] at h
    exact h.start p
  | publish p dup fs head =>
    rw [head] at h
    obtain ⟨_, -, -, next⟩ := h.publish
    exact next
  | stale dup fs head missing =>
    rw [head, missing] at h
    obtain ⟨rfl, ⟨-, next⟩ | ⟨_, hin, -, -⟩⟩ := h.pubrel
    · simpa [missing] using next
    · cases hin
  | deliver dup fs head stored =>
    rw [head] at h
    obtain ⟨-, ⟨hin, -⟩ | ⟨_, -, -, next⟩⟩ := h.pubrel
    · exact absurd hin stored
    · exact next
  | release m as head mine waits =>
    rw [head, mine] at h
    obtain ⟨p, ⟨hout, -, next⟩ | ⟨hout, -⟩⟩ := h.pubrec
    · cases hout
      exact next
    · cases hout
      cases waits
  | receipt as head unexpected =>
    rw [head] at h
    obtain ⟨p, ⟨hout, -, -⟩ | ⟨-, next⟩⟩ := h.pubrec
    · exact absurd rfl (unexpected _ hout)
    · exact next
  | complete m as head mine waits =>
    rw [head] at h
    obtain ⟨p, -, hin, rfl, next⟩ := h.pubcomp
    rwa [hin]
  | ignored as head unexpected =>
    rw [head] at h
    obtain ⟨p, hout, -, -, -⟩ := h.pubcomp
    exact absurd rfl (unexpected _ hout)
  | again m mine =>
    rw [mine] at h
    simpa [mine] using h.retry

/-- The ids of all messages that are stored at the sender. -/
def Link.stored (s : Link μ) : List ℕ :=
  s.commands.map Prod.fst ++ s.outboundMsgs.map Messages.msgid

/-- What the responses are for. -/
def Messages.response (m : Messages μ) : ℕ × μ := (m.msgid, m.publish)

/-- What holds in every state. -/
structure Link.Inv (s : Link μ) : Prop where
  /-- A message whose PUBLISH was not written has no response. -/
  responses : s.responses.Sublist (s.outboundMsgs.map Messages.response)
  ids : s.stored.Nodup
  isMsgId : ∀ msgid ∈ s.stored, IsMsgId msgid
  last : s.msgID ≤ maxMsgId
  inbound : Keyed.Distinct Prod.fst s.inboundMsgs
  phase : ∀ msgid, Phase msgid (s.view msgid).outbound (s.view msgid).inbound
    (s.view msgid).forward (s.view msgid).answers
  offline : s.connected = false → s.forward = [] ∧ s.answers = []

theorem initLink_inv : (initLink : Link μ).Inv where
  responses := List.nil_sublist _
  ids := List.nodup_nil
  isMsgId := by simp [Link.stored, initLink]
  last := Nat.zero_le _
  inbound := List.nodup_nil
  phase := fun msgid => .fresh msgid
  offline := fun _ => ⟨rfl, rfl⟩

end Siproxy.Mqtt
