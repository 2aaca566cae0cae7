import Siproxy.Mqtt.Delivery
import Siproxy.Mqtt.Pipe

/-!
# Publishing with QoS 2 over sockets

The two ends of `Link`, with the functions that write packets to sockets and read them in the place
of the packets between them.  Both ends go on only where nothing is pending for their socket: so do
`isReady` for packets, `MQTTAsync_processCommand` for commands and `MQTTProtocol_retries`.

* `wire_refines`: every run of the two ends over sockets shows what a run of `Link` shows, and never
  reads a null pointer, a packet outside its end or a packet that was not written.
* `wire_exactly_once`: no message is delivered twice or lost.
-/

namespace Siproxy.Mqtt

open CString Machine

/-! ### Packets of the two ends -/

/-- What is published. -/
structure Message where
  topic : CStr
  payload : List Byte
  retained : Bool
  deriving DecidableEq

/-- The topic and the message fit into a packet. -/
def Message.Fits (m : Message) : Prop :=
  m.topic.strlen < 65536 ∧ 2 + m.topic.strlen + 2 + m.payload.length < 128 ^ 4

instance (m : Message) : Decidable m.Fits := inferInstanceAs (Decidable (_ ∧ _))

def Forward.send : Forward Message → List (List Byte)
  | .publish msgid m dup =>
    sendPublish m.topic msgid m.payload dup Qos.exactlyOnce m.retained
  | .pubrel msgid dup => sendPubrel msgid dup

def Answer.send : Answer → List (List Byte)
  | .pubrec msgid => sendPubrec msgid
  | .pubcomp msgid => sendPubcomp msgid

/-- What a packet to the receiver is read as. -/
def Forward.built : Forward Message → Built
  | .publish msgid m dup =>
    .pack (.publish
      ⟨⟨MsgTypes.publish, dup, Qos.exactlyOnce, m.retained⟩, m.topic.bytes, msgid, m.payload⟩)
  | .pubrel msgid dup => .pack (.ack ⟨MsgTypes.pubrel, dup, Qos.atLeastOnce, false⟩ msgid)

def Answer.built : Answer → Built
  | .pubrec msgid => .pack (.ack ⟨MsgTypes.pubrec, false, Qos.atMostOnce, false⟩ msgid)
  | .pubcomp msgid => .pack (.ack ⟨MsgTypes.pubcomp, false, Qos.atMostOnce, false⟩ msgid)

/-- The packets that `MQTTAsync_cycle` gives to the functions of the receiver. -/
def toForward : Built → Option (Forward Message)
  | .pack (.publish p) =>
    if p.header.qos = Qos.exactlyOnce then
      if noNul : 0 ∉ p.topic then
        some (.publish p.msgId ⟨⟨p.topic, noNul⟩, p.payload, p.header.retain⟩ p.header.dup)
      else none
    else none
  | .pack (.ack header msgId) =>
    if header.type = MsgTypes.pubrel then some (.pubrel msgId header.dup) else none
  | _ => none

/-- Those that it gives to the functions of the sender. -/
def toAnswer : Built → Option Answer
  | .pack (.ack header msgId) =>
    if header.type = MsgTypes.pubrec then some (.pubrec msgId)
    else if header.type = MsgTypes.pubcomp then some (.pubcomp msgId)
    else none
  | _ => none

theorem toForward_built (f : Forward Message) : toForward f.built = some f := by
  cases f with
  | publish msgid m dup =>
    have noNul : (0 : Byte) ∉ m.topic.bytes := m.topic.noNul
    simp [Forward.built, toForward, noNul]
  | pubrel msgid dup => simp [Forward.built, toForward]

theorem toAnswer_built (a : Answer) : toAnswer a.built = some a := by
  cases a <;> rfl

def Forward.Fits : Forward Message → Prop
  | .publish msgid m _ => msgid < 65536 ∧ m.Fits
  | .pubrel msgid _ => msgid < 65536

theorem Forward.readable {f : Forward Message} (fits : f.Fits) : Readable f.send f.built where
  next rest := by
    rw [← readPack_eq_some]
    cases f with
    | publish msgid m dup =>
      have room : 2 + m.topic.strlen + (if (0 : Fin 4) < 2 then 2 else 0) + m.payload.length <
          128 ^ 4 := fits.2.2
      exact publish_read fits.1 fits.2.1 room dup m.retained rest
    | pubrel msgid dup => exact ack_read MsgTypes.pubrel msgid dup rest fits (by decide)

theorem Answer.readable {a : Answer} (fits : a.msgid < 65536) : Readable a.send a.built where
  next rest := by
    rw [← readPack_eq_some]
    cases a with
    | pubrec msgid => exact ack_read MsgTypes.pubrec msgid false rest fits (by decide)
    | pubcomp msgid => exact ack_read MsgTypes.pubcomp msgid false rest fits (by decide)

/-! ### The system -/

/-- The two ends, whose packets are in the pipes only; `good` is that of the sender's client. -/
structure Wire where
  link : Link Message
  good : Bool
  toReceiver : Pipe
  toSender : Pipe

def initWire : Wire := ⟨initLink, false, initPipe, initPipe⟩

inductive WireOp where
  | send (publish : Message)
  /-- `MQTTAsync_processCommand`; `room` is what the socket takes of a packet. -/
  | process (room : Option ℕ)
  /-- `MQTTAsync_cycle` at the receiver, and at the sender. -/
  | receive (room : Option ℕ)
  | answered (room : Option ℕ)
  /-- One turn of the loop in `MQTTProtocol_retries`. -/
  | retry (msgid : ℕ) (room : Option ℕ)
  /-- `MQTTAsync_disconnect_internal` at the sender, as by `MQTTProtocol_keepalive`. -/
  | disconnectInternal
  /-- `Socket_continueWrites` at the sender, and at the receiver. -/
  | continueForward (room : Option ℕ)
  | continueBack (room : Option ℕ)
  /-- Some bytes come to the receiver, and to the sender. -/
  | carryForward (n : ℕ)
  | carryBack (n : ℕ)
  | disconnect (cleansession : Bool)
  /-- A connection is made, with a socket at each end. -/
  | connect (senderSocket receiverSocket : ℤ)

/-- Why a step is not taken. -/
inductive Halt where
  /-- The ends do not get to it. -/
  | disabled
  /-- A null pointer is read, a packet outside its end, or a packet that no end has written. -/
  | broken
  deriving DecidableEq

/-- What the functions have made is written. -/
def Wire.flush (s : Wire) (room : Option ℕ) : Wire :=
  { s with
    link := { s.link with forward := [], answers := [] }
    toReceiver := s.link.forward.foldl (fun p f => p.put f.send room) s.toReceiver
    toSender := s.link.answers.foldl (fun p a => p.put a.send room) s.toSender }

/-- A disconnection is queued at the sender. -/
def Wire.disconnectInternal (s : Wire) : Wire :=
  { s with link := { s.link with disconnecting := true } }

/-- `MQTTAsync_processCommand` with a message; `rc` of `MQTTProtocol_startPublish` is what the write
of PUBLISH returns. -/
def Wire.process (s : Wire) (room : Option ℕ) : Option (Wire × List (LinkOut Message)) :=
  match s.link.commands with
  | [] => none
  | (msgid, publish) :: _ =>
    let toReceiver := s.toReceiver.put (Forward.publish msgid publish false).send room
    (s.link.process toReceiver.failed).map fun (link, outs) =>
      ({ s with link := { link with forward := [] }, toReceiver := toReceiver }, outs)

/-- The receiver looks at its socket. -/
def Wire.receive (s : Wire) (room : Option ℕ) : Except Halt (Wire × List (LinkOut Message)) :=
  match s.toReceiver.read with
  | some (.error .interrupted, p) => .ok ({ s with toReceiver := p }, [])
  | some (.ok built, p) =>
    match toForward built with
    | none => .error .broken
    | some f =>
      match { s.link with forward := [f] }.receive with
      | none => .error .broken
      | some (link, outs) => .ok (({ s with link := link, toReceiver := p }).flush room, outs)
  | _ => .error .broken

/-- The sender looks at its socket. -/
def Wire.answered (s : Wire) (room : Option ℕ) : Except Halt (Wire × List (LinkOut Message)) :=
  match s.toSender.read with
  | some (.error .interrupted, p) => .ok ({ s with toSender := p }, [])
  | some (.ok built, p) =>
    match toAnswer built with
    | none => .error .broken
    | some a =>
      match { s.link with answers := [a] }.answered with
      | none => .error .broken
      | some (link, outs) =>
        let t := ({ s with link := link, toSender := p }).flush room
        -- `rc` is `SOCKET_ERROR` where something was to be written
        .ok (if link.forward ≠ [] ∧ t.toReceiver.failed = true then t.disconnectInternal else t,
          outs)
  | _ => .error .broken

def Forward.isPubrel {μ : Type} : Forward μ → Bool
  | .publish .. => false
  | .pubrel .. => true

/-- The turn for a message, if the loop gets to one.  A PUBLISH may be written in part, a PUBREL may
not. -/
def Wire.retry (s : Wire) (msgid : ℕ) (room : Option ℕ) : Wire :=
  let sent := retries s.link.outboundMsgs fun x => x = msgid
  let t := ({ s with link := { s.link with forward := sent } }).flush room
  if sent ≠ [] ∧ (t.toReceiver.failed = true ∨ sent.any Forward.isPubrel ∧ ¬ t.toReceiver.free) then
    { t.disconnectInternal with good := false }
  else t

/-- A write is continued. -/
def continuePipe (p : Pipe) (room : Option ℕ) : Except Halt Pipe :=
  if p.free then .error .disabled
  else
    match p.continueWrite room with
    | none => .error .broken
    | some p => .ok p

/-- One step; but for `connect` and `disconnect` it needs a connection, and `MQTTAsync_send` refuses
what it gets without one. -/
def wireStep (s : Wire) : WireOp → Except Halt (Wire × List (LinkOut Message))
  | .send publish =>
    match s.link.send publish with
    | none => .error .disabled
    | some (link, outs) => .ok ({ s with link := link }, outs)
  | .process room =>
    if s.toReceiver.free then (s.process room).elim (.error .disabled) .ok
    else .error .disabled
  | .receive room =>
    if s.link.connected ∧ s.toSender.free then s.receive room else .error .disabled
  | .answered room =>
    if s.link.connected ∧ s.toReceiver.free then s.answered room else .error .disabled
  | .retry msgid room =>
    if s.link.connected ∧ s.good ∧ s.toReceiver.free then .ok (s.retry msgid room, [])
    else .error .disabled
  | .disconnectInternal =>
    if s.link.connected then .ok (s.disconnectInternal, []) else .error .disabled
  | .continueForward room =>
    if s.link.connected then
      (continuePipe s.toReceiver room).map fun p => ({ s with toReceiver := p }, [])
    else .error .disabled
  | .continueBack room =>
    if s.link.connected then
      (continuePipe s.toSender room).map fun p => ({ s with toSender := p }, [])
    else .error .disabled
  | .carryForward n =>
    if s.link.connected then .ok ({ s with toReceiver := s.toReceiver.carry n }, [])
    else .error .disabled
  | .carryBack n =>
    if s.link.connected then .ok ({ s with toSender := s.toSender.carry n }, [])
    else .error .disabled
  | .disconnect cleansession =>
    let (link, outs) := s.link.disconnect cleansession
    if s.link.connected then .ok (⟨link, false, s.toReceiver.close, s.toSender.close⟩, outs)
    else .ok ({ s with link := link, good := false }, outs)
  | .connect senderSocket receiverSocket =>
    if s.link.connected then .error .disabled
    else
      .ok (⟨{ s.link with connected := true }, true,
        s.toReceiver.connect senderSocket receiverSocket,
        s.toSender.connect receiverSocket senderSocket⟩, [])

abbrev WireMove := Move Wire WireOp (LinkOut Message)

abbrev wireTrace (ops : List WireOp) : List WireMove := trace wireStep initWire ops

/-! ### The ends without the packets between them -/

section Bare

variable {μ : Type}

/-- The two ends only. -/
def Link.bare (a : Link μ) : Link μ := { a with forward := [], answers := [] }

theorem Link.send_bare (a : Link μ) (p : μ) :
    a.bare.send p = (a.send p).map fun r => (r.1.bare, r.2) := by
  unfold Link.send Link.bare Link.used
  dsimp only
  split_ifs
  · rfl
  · cases assignMsgId maxMsgId (a.commands.map Prod.fst ++ a.responses.map Prod.fst) a.msgID with
    | none => rfl
    | some r =>
      obtain ⟨msgid, last⟩ := r
      simp only [Option.map_some]
      split_ifs <;> rfl

/-- A step at one end changes the ends in the same way whatever is under way, and adds the same
packets to it. -/
structure Adds (a a' : Link μ) (new : List (Forward μ)) (new' : List Answer) (b : Link μ) :
    Prop where
  connected : a'.connected = a.connected
  forward : a'.forward = a.forward ++ new
  answers : a'.answers = a.answers ++ new'
  bare : b = { a'.bare with forward := new, answers := new' }
  few : new.length + new'.length ≤ 1

theorem Link.process_bare (a : Link μ) (failed : Bool) :
    (a.bare.process failed).map (fun r => ({ r.1 with forward := [] }, r.2)) =
      (a.process failed).map fun r => (r.1.bare, r.2) := by
  unfold Link.process Link.bare
  cases a.commands with
  | nil => rfl
  | cons c commands =>
    dsimp only
    split_ifs <;> rfl

theorem Link.receive_bare {a : Link μ} {f : Forward μ} {fs : List (Forward μ)}
    (head : a.forward = f :: fs) :
    ∃ a' b outs new, a.receive = some (a', outs) ∧
      { a.bare with forward := [f] }.receive = some (b, outs) ∧
      Adds { a with forward := fs } a' [] new b := by
  cases f with
  | publish msgid publish dup =>
    let handled := handlePublishes a.inboundMsgs msgid publish
    refine ⟨{ a with
      forward := fs, inboundMsgs := handled.1, answers := a.answers ++ handled.2 }, _, [],
      handled.2, ?_, rfl, rfl, (List.append_nil _).symm, rfl, rfl, Nat.le_refl 1⟩
    rw [Link.receive, head]
  | pubrel msgid dup =>
    let handled := handlePubrels a.inboundMsgs msgid dup
    refine ⟨{ a with
      forward := fs, inboundMsgs := handled.1, answers := a.answers ++ handled.2.1 }, _,
      handled.2.2.map .delivered, handled.2.1, ?_, rfl, rfl, (List.append_nil _).symm, rfl, rfl,
      ?_⟩
    · rw [Link.receive, head]
    · show ([] : List (Forward μ)).length + (handlePubrels a.inboundMsgs msgid dup).2.1.length ≤ 1
      unfold handlePubrels
      cases Keyed.get Prod.fst a.inboundMsgs msgid with
      | none => cases dup <;> simp
      | some m => exact Nat.le_refl 1

theorem Link.answered_bare {a : Link μ} {x : Answer} {as : List Answer}
    (head : a.answers = x :: as) :
    ∃ a' b outs new, a.answered = some (a', outs) ∧
      { a.bare with answers := [x] }.answered = some (b, outs) ∧
      Adds { a with answers := as } a' new [] b := by
  cases x with
  | pubrec msgid =>
    let handled := handlePubrecs a.outboundMsgs msgid
    refine ⟨{ a with
      answers := as, outboundMsgs := handled.1, forward := a.forward ++ handled.2 }, _, [],
      handled.2, ?_, rfl, rfl, rfl, (List.append_nil _).symm, rfl, ?_⟩
    · rw [Link.answered, head]
    · show (handlePubrecs a.outboundMsgs msgid).2.length + ([] : List Answer).length ≤ 1
      unfold handlePubrecs
      cases Keyed.get Messages.msgid a.outboundMsgs msgid with
      | none => simp
      | some m =>
        dsimp only
        split_ifs <;> simp
  | pubcomp msgid =>
    refine ⟨{ a with
      answers := as
      outboundMsgs := handlePubcomps a.outboundMsgs msgid
      responses := Keyed.erase Prod.fst a.responses msgid }, _,
      ((Keyed.get Prod.fst a.responses msgid).map fun r => .completed r.2).toList, [], ?_, rfl, rfl,
      (List.append_nil _).symm, (List.append_nil _).symm, rfl, Nat.zero_le 1⟩
    rw [Link.answered, head]

theorem retries_few {outboundMsgs : List (Messages μ)}
    (distinct : Keyed.Distinct Messages.msgid outboundMsgs) (msgid : ℕ) :
    (retries outboundMsgs fun x => x = msgid).length ≤ 1 := by
  have count : (outboundMsgs.filter fun m => m.msgid = msgid).length =
      (outboundMsgs.map Messages.msgid).count msgid := by
    rw [List.count_eq_countP, List.countP_map, List.countP_eq_length_filter]
    rfl
  rw [retries, List.length_map, count]
  exact distinct.count_le msgid

end Bare

/-! ### All packets fit -/

/-- All messages fit into packets, and the ids into two bytes. -/
structure Link.Fits (a : Link Message) : Prop where
  commands : ∀ c ∈ a.commands, c.2.Fits
  outbound : ∀ m ∈ a.outboundMsgs, m.publish.Fits
  forward : ∀ f ∈ a.forward, f.Fits
  answers : ∀ x ∈ a.answers, x.msgid < 65536

section Fits

variable {a a' : Link Message} {x : ℕ}

theorem initLink_fits : Link.Fits initLink := by
  constructor <;> simp [initLink]

theorem Link.Inv.small (inv : a.Inv) (stored : x ∈ a.stored) : x < 65536 := by
  have le := (inv.isMsgId x stored).2
  unfold maxMsgId at le
  omega

theorem Link.Fits.retries (fits : a.Fits) (inv : a.Inv) (due : ℕ → Bool) {f : Forward Message}
    (mem : f ∈ retries a.outboundMsgs due) : f.Fits := by
  obtain ⟨m, hm, rfl⟩ := List.mem_map.1 mem
  have stored := List.mem_of_mem_filter hm
  have small : m.msgid < 65536 := by
    apply inv.small
    exact List.mem_append_right _ (List.mem_map_of_mem stored)
  unfold Messages.retry
  cases m.nextMessageType with
  | pubrec => exact ⟨small, fits.outbound m stored⟩
  | pubcomp => exact small

theorem handlePubrels_msgid {inboundMsgs : List (ℕ × Message)} {dup : Bool} {y : Answer}
    (mem : y ∈ (handlePubrels inboundMsgs x dup).2.1) : y.msgid = x := by
  unfold handlePubrels at mem
  cases found : Keyed.get Prod.fst inboundMsgs x with
  | none =>
    rw [found] at mem
    cases dup with
    | false => simp at mem
    | true =>
      rw [List.mem_singleton.1 mem]
      rfl
  | some m =>
    rw [found] at mem
    rw [List.mem_singleton.1 mem]
    rfl

/-- A receipt changes no message, and is answered with a release. -/
theorem handlePubrecs_mem (outboundMsgs : List (Messages Message)) (x : ℕ) :
    (∀ m ∈ (handlePubrecs outboundMsgs x).1, ∃ m' ∈ outboundMsgs, m'.publish = m.publish) ∧
      ∀ f ∈ (handlePubrecs outboundMsgs x).2, f = .pubrel x false := by
  have same : ∀ m ∈ outboundMsgs, ∃ m' ∈ outboundMsgs, m'.publish = m.publish :=
    fun m mem => ⟨m, mem, rfl⟩
  unfold handlePubrecs
  cases Keyed.get Messages.msgid outboundMsgs x with
  | none => exact ⟨same, by simp⟩
  | some m =>
    dsimp only
    split_ifs
    · exact ⟨same, by simp⟩
    · refine ⟨fun m mem => ?_, by simp⟩
      rcases Keyed.mem_modifyFirst mem with stored | ⟨m', found, rfl⟩
      · exact same m stored
      · exact ⟨m', (Keyed.get_mem found).1, rfl⟩

theorem handlePubcomps_mem {outboundMsgs : List (Messages Message)} {m : Messages Message}
    (mem : m ∈ handlePubcomps outboundMsgs x) : m ∈ outboundMsgs := by
  unfold handlePubcomps at mem
  cases found : Keyed.get Messages.msgid outboundMsgs x with
  | none =>
    rw [found] at mem
    exact mem
  | some m' =>
    rw [found] at mem
    dsimp only at mem
    split_ifs at mem
    · exact mem
    · exact Keyed.mem_of_mem_erase mem

theorem forall_mem_concat {α : Type} {q : α → Prop} {l m : List α} (h : ∀ b ∈ l, q b)
    (h' : ∀ b ∈ m, q b) : ∀ b ∈ l ++ m, q b :=
  fun b mem => (List.mem_append.1 mem).elim (h b) (h' b)

theorem Link.Fits.step {op : LinkOp Message} {outs : List (LinkOut Message)} (fits : a.Fits)
    (inv : a.Inv) (happens : Happens a op a' outs) (sent : ∀ p, op = .send p → p.Fits) :
    a'.Fits := by
  obtain ⟨commands, outbound, forward, answers⟩ := fits
  cases happens with
  | refused p => exact ⟨commands, outbound, forward, answers⟩
  | accepted p =>
    exact ⟨forall_mem_concat commands (by simpa using sent p rfl), outbound, forward, answers⟩
  | @process msgid p rest head =>
    rw [head] at commands
    have first : p.Fits := commands (msgid, p) List.mem_cons_self
    have small : msgid < 65536 := by
      apply inv.small
      rw [Link.stored, head]
      exact List.mem_append_left _ List.mem_cons_self
    refine ⟨fun c mem => commands c (List.mem_cons_of_mem _ mem),
      forall_mem_concat outbound (by simpa using first), forall_mem_concat forward ?_, answers⟩
    intro f mem
    rw [List.mem_singleton.1 mem]
    exact ⟨small, first⟩
  | @unwritten msgid p rest head =>
    rw [head] at commands
    have first : p.Fits := commands (msgid, p) List.mem_cons_self
    exact ⟨fun c mem => commands c (List.mem_cons_of_mem _ mem),
      forall_mem_concat outbound (by simpa using first), forward, answers⟩
  | @publish x p dup rest head =>
    rw [head] at forward
    have first : x < 65536 := (forward _ List.mem_cons_self).1
    exact ⟨commands, outbound, fun f mem => forward f (List.mem_cons_of_mem _ mem),
      forall_mem_concat answers (by simpa using first)⟩
  | @pubrel x dup rest head =>
    rw [head] at forward
    have first : x < 65536 := forward _ List.mem_cons_self
    refine ⟨commands, outbound, fun f mem => forward f (List.mem_cons_of_mem _ mem),
      forall_mem_concat answers fun y mem => ?_⟩
    rwa [handlePubrels_msgid mem]
  | @pubrec x rest head =>
    rw [head] at answers
    have first : x < 65536 := answers _ List.mem_cons_self
    obtain ⟨same, releases⟩ := handlePubrecs_mem a.outboundMsgs x
    refine ⟨commands, fun m mem => ?_, forall_mem_concat forward fun f mem => ?_,
      fun y mem => answers y (List.mem_cons_of_mem _ mem)⟩
    · obtain ⟨m', stored, publish⟩ := same m mem
      rw [← publish]
      exact outbound m' stored
    · rw [releases f mem]
      exact first
  | @pubcomp x rest head =>
    rw [head] at answers
    exact ⟨commands, fun m mem => outbound m (handlePubcomps_mem mem), forward,
      fun y mem => answers y (List.mem_cons_of_mem _ mem)⟩
  | retry due online =>
    exact ⟨commands, outbound, forall_mem_concat forward fun f mem =>
      Link.Fits.retries ⟨commands, outbound, forward, answers⟩ inv due mem, answers⟩
  | queued => exact ⟨commands, outbound, forward, answers⟩
  | broken => exact ⟨commands, outbound, by simp, by simp⟩
  | cleaned => exact initLink_fits
  | connect due offline =>
    exact ⟨commands, outbound, fun f mem =>
      Link.Fits.retries ⟨commands, outbound, forward, answers⟩ inv due mem, answers⟩

end Fits

/-! ### The simulation -/

/-- The bytes of packets. -/
def forwardBytes (fs : List (Forward Message)) : List Byte := fs.flatMap fun f => f.send.flatten

def answerBytes (as : List Answer) : List Byte := as.flatMap fun x => x.send.flatten

/-- The ends are the same, and the pipes carry the packets that are under way. -/
structure Sim (s : Wire) (a : Link Message) : Prop where
  inv : a.Inv
  fits : a.Fits
  link : s.link = a.bare
  online : a.connected = true →
    s.toReceiver.Carries (forwardBytes a.forward) ∧ s.toSender.Carries (answerBytes a.answers)
  offline : a.connected = false → s.toReceiver.Closed ∧ s.toSender.Closed

/-- What the application and the system are relied on for: messages fit into packets and are given
fresh ids, and the sockets of a connection have no entry of an older one. -/
def WireOp.Ready (s : Wire) : WireOp → Prop
  | .send publish => publish.Fits ∧ s.link.Fresh
  | .connect senderSocket receiverSocket =>
    senderSocket ≠ 0 ∧ receiverSocket ≠ 0 ∧
      s.toReceiver.writes.getWrite senderSocket = none ∧
      s.toSender.writes.getWrite receiverSocket = none
  | _ => True

instance (s : Wire) (op : WireOp) : Decidable (op.Ready s) :=
  match op with
  | .send publish => inferInstanceAs (Decidable (publish.Fits ∧ s.link.Fresh))
  | .connect _ _ => inferInstanceAs (Decidable (_ ∧ _))
  | .process _ | .receive _ | .answered _ | .retry _ _ | .disconnectInternal | .continueForward _
  | .continueBack _ | .carryForward _ | .carryBack _ | .disconnect _ =>
    inferInstanceAs (Decidable True)

/-- The steps of `Link` that a step can be. -/
inductive WireOp.Does : WireOp → LinkOp Message → Prop
  | send (p : Message) : Does (.send p) (.send p)
  | process (room : Option ℕ) (failed : Bool) : Does (.process room) (.process failed)
  | disconnectInternal (op : WireOp) : Does op .disconnectInternal
  | receive (room : Option ℕ) : Does (.receive room) .receive
  | answered (room : Option ℕ) : Does (.answered room) .answered
  | retry (msgid : ℕ) (room : Option ℕ) (due : ℕ → Bool) : Does (.retry msgid room) (.retry due)
  | disconnect (cleansession : Bool) : Does (.disconnect cleansession) (.disconnect cleansession)
  | connect (senderSocket receiverSocket : ℤ) (due : ℕ → Bool) :
    Does (.connect senderSocket receiverSocket) (.connect due)

/-- A step is not taken, or is a few steps of `Link`. -/
inductive Matched (a : Link Message) (s : Wire) (op : WireOp) : Prop
  | disabled (stopped : wireStep s op = .error .disabled)
  | steps {s' : Wire} {outs : List (LinkOut Message)} {lops : List (LinkOp Message)}
    {a' : Link Message} (taken : wireStep s op = .ok (s', outs))
    (ran : run linkStep a lops = .ok (a', outs)) (sim : Sim s' a')
    (does : ∀ lop ∈ lops, op.Does lop) (fresh : ∀ m ∈ trace linkStep a lops, m.input.Fresh m.pre)

/-- No write has failed on the connection. -/
def Wire.Well (s : Wire) : Prop := s.toReceiver.failed = false ∧ s.toSender.failed = false

section Sim

variable {s : Wire} {a a' : Link Message} {outs : List (LinkOut Message)}

theorem Sim.connected (h : Sim s a) : s.link.connected = a.connected := by
  rw [h.link]
  rfl

theorem Matched.none {op : WireOp} {s' : Wire} (taken : wireStep s op = .ok (s', []))
    (sim : Sim s' a) : Matched a s op :=
  have ran : run linkStep a [] = .ok (a, []) := rfl
  .steps taken ran sim (by simp) (by simp [trace])

theorem Matched.one {op : WireOp} {s' : Wire} {lop : LinkOp Message}
    (taken : wireStep s op = .ok (s', outs)) (step : linkStep a lop = .ok (a', outs))
    (sim : Sim s' a') (does : op.Does lop) (fresh : lop.Fresh a) : Matched a s op := by
  refine .steps taken (run_singleton step) sim (by simpa using does) ?_
  simpa [trace, step] using fresh

theorem Link.Inv.next {op : LinkOp Message} (inv : a.Inv) (fits : a.Fits)
    (taken : linkStep a op = .ok (a', outs)) (sent : ∀ p, op = .send p → p.Fits)
    (fresh : op.Fresh a) : a'.Inv ∧ a'.Fits :=
  ⟨(inv.step fresh taken).1, fits.step inv (linkStep_happens taken) sent⟩

theorem Sim.disconnectInternal (h : Sim s a) (online : a.connected = true) (good : Bool) :
    linkStep a .disconnectInternal = .ok ({ a with disconnecting := true }, []) ∧
      Sim { s.disconnectInternal with good := good } { a with disconnecting := true } := by
  have step : linkStep a .disconnectInternal = .ok ({ a with disconnecting := true }, []) := by
    simp [linkStep, online]
  obtain ⟨inv, fits⟩ := h.inv.next h.fits step (by simp) trivial
  refine ⟨step, inv, fits, ?_, h.online, h.offline⟩
  show { s.link with disconnecting := true } = _
  rw [h.link]
  rfl

/-- A step is one of `Link`, which queues a disconnection. -/
theorem Matched.queued {op : WireOp} {t : Wire} {good : Bool} {lop : LinkOp Message}
    (taken : wireStep s op = .ok ({ t.disconnectInternal with good := good }, outs))
    (step : linkStep a lop = .ok (a', outs)) (sim : Sim t a') (online : a'.connected = true)
    (does : op.Does lop) (fresh : lop.Fresh a) : Matched a s op := by
  obtain ⟨queued, sim'⟩ := sim.disconnectInternal online good
  have ran := run_append (run_singleton step) (run_singleton queued)
  rw [List.append_nil] at ran
  refine .steps taken ran sim' (fun lop' mem => ?_) (fun m mem => ?_)
  · rcases List.mem_append.1 mem with mem | mem
    · exact List.mem_singleton.1 mem ▸ does
    · exact List.mem_singleton.1 mem ▸ .disconnectInternal op
  · simp only [trace, List.singleton_append, step, queued, List.mem_cons, List.not_mem_nil,
      or_false] at mem
    rcases mem with rfl | rfl
    · exact fresh
    · trivial

theorem Sim.pipes (h : Sim s a) (online : a.connected = true) {p q : Pipe}
    (forward : p.Carries (forwardBytes a.forward)) (back : q.Carries (answerBytes a.answers)) :
    Sim { s with toReceiver := p, toSender := q } a :=
  ⟨h.inv, h.fits, h.link, fun _ => ⟨forward, back⟩, offline_of_online online⟩

theorem Pipe.Carries.putAll {α : Type} {p : Pipe} {stream : List Byte} (h : p.Carries stream)
    (send : α → List (List Byte)) {l : List α} (few : l.length ≤ 1) (free : l ≠ [] → p.free)
    (room : Option ℕ) :
    (l.foldl (fun p x => p.put (send x) room) p).Carries
        (stream ++ l.flatMap fun x => (send x).flatten) ∧
      (p.failed = false → room ≠ none →
        (l.foldl (fun p x => p.put (send x) room) p).failed = false) := by
  match l with
  | [] => exact ⟨by simpa using h, fun well _ => well⟩
  | [x] =>
    have put := h.put (free (by simp)) (send x) room
    have well := p.put_well (free (by simp)) (send x) room
    exact ⟨by simpa using put, by simpa using well⟩
  | _ :: _ :: _ => simp at few

/-- The functions of an end have made packets, which are written. -/
theorem Sim.flush {b : Link Message} {new : List (Forward Message)} {new' : List Answer}
    (adds : Adds a a' new new' b) (link : s.link = b) (online : a.connected = true)
    (forward : s.toReceiver.Carries (forwardBytes a.forward))
    (back : s.toSender.Carries (answerBytes a.answers))
    (free : new ≠ [] → s.toReceiver.free) (free' : new' ≠ [] → s.toSender.free)
    (next : a'.Inv ∧ a'.Fits) (room : Option ℕ) :
    Sim (s.flush room) a' ∧ (s.Well → room ≠ none → (s.flush room).Well) := by
  have few := adds.few
  obtain ⟨forward', well⟩ := forward.putAll Forward.send (l := new) (by omega) free room
  obtain ⟨back', well'⟩ := back.putAll Answer.send (l := new') (by omega) free' room
  have sent : s.link.forward = new ∧ s.link.answers = new' := by
    rw [link, adds.bare]
    exact ⟨rfl, rfl⟩
  unfold Wire.flush
  rw [sent.1, sent.2]
  refine ⟨⟨next.1, next.2, ?_, fun _ => ⟨?_, ?_⟩, fun off => ?_⟩,
    fun before room => ⟨well before.1 room, well' before.2 room⟩⟩
  · show { s.link with forward := [], answers := [] } = a'.bare
    rw [link, adds.bare]
    rfl
  · rw [forwardBytes, adds.forward, List.flatMap_append]
    exact forward'
  · rw [answerBytes, adds.answers, List.flatMap_append]
    exact back'
  · rw [adds.connected, online] at off
    cases off

/-- A command is processed as `Link` does it, with what the write of PUBLISH returns. -/
theorem Sim.processed (h : Sim s a) (free : s.toReceiver.free) {msgid : ℕ} {p : Message}
    {commands : List (ℕ × Message)} (head : a.commands = (msgid, p) :: commands) {room : Option ℕ}
    {q : Pipe} (put : s.toReceiver.put (Forward.publish msgid p false).send room = q)
    (step : linkStep a (.process q.failed) = .ok (a', outs)) :
    ∃ s', wireStep s (.process room) = .ok (s', outs) ∧ Sim s' a' ∧
      s'.toReceiver = q ∧ s'.toSender = s.toSender := by
  have taken : a.process q.failed = some (a', outs) := by
    cases processed : a.process q.failed with
    | none => simp [linkStep, processed] at step
    | some r => simpa [linkStep, processed] using step
  have bare := a.process_bare q.failed
  rw [taken, Option.map_some] at bare
  have commands' : a.bare.commands = (msgid, p) :: commands := head
  refine ⟨{ s with link := a'.bare, toReceiver := q }, ?_, ?_, rfl, rfl⟩
  · obtain ⟨r, made, same⟩ := Option.map_eq_some_iff.1 bare
    obtain ⟨link, outs'⟩ := Prod.mk.inj same
    simp only [wireStep, if_pos free, Wire.process, h.link, commands', put, made, Option.map_some,
      Option.elim_some, link, outs']
  · obtain ⟨inv, fits⟩ := h.inv.next h.fits step (by simp) trivial
    generalize hfailed : q.failed = failed at step
    cases linkStep_happens step with
    | process head' online =>
      cases head.symm.trans head'
      obtain ⟨forward, back⟩ := h.online online
      have carries := forward.put free (Forward.publish msgid p false).send room
      rw [put] at carries
      refine ⟨inv, fits, rfl, fun _ => ⟨?_, back⟩, offline_of_online online⟩
      simpa [forwardBytes] using carries
    | unwritten head' online =>
      cases head.symm.trans head'
      obtain ⟨forward, back⟩ := h.online online
      have carries := forward.put_failed free (Forward.publish msgid p false).send room
        (put ▸ hfailed)
      rw [put] at carries
      exact ⟨inv, fits, rfl, fun _ => ⟨carries, back⟩, offline_of_online online⟩

theorem Sim.process (h : Sim s a) (room : Option ℕ) : Matched a s (.process room) := by
  by_cases free : s.toReceiver.free
  case neg =>
    refine .disabled ?_
    simp only [wireStep, if_neg free]
  cases head : a.commands with
  | nil =>
    have commands : a.bare.commands = [] := head
    refine .disabled ?_
    simp only [wireStep, if_pos free, Wire.process, h.link, commands, Option.elim_none]
  | cons c commands =>
    obtain ⟨msgid, p⟩ := c
    generalize put : s.toReceiver.put (Forward.publish msgid p false).send room = q
    cases processed : a.process q.failed with
    | some r =>
      have step : linkStep a (.process q.failed) = .ok (r.1, r.2) := by
        simp [linkStep, processed]
      obtain ⟨s', taken, sim, -, -⟩ := h.processed free head put step
      exact .one taken step sim (.process room _) trivial
    | none =>
      have bare := a.process_bare q.failed
      rw [processed, Option.map_none, Option.map_eq_none_iff] at bare
      have commands' : a.bare.commands = (msgid, p) :: commands := head
      refine .disabled ?_
      simp only [wireStep, if_pos free, Wire.process, h.link, commands', put, bare,
        Option.map_none, Option.elim_none]

theorem Sim.received (h : Sim s a) (online : a.connected = true) (free : s.toSender.free)
    {f : Forward Message} {fs : List (Forward Message)} {p : Pipe} (head : a.forward = f :: fs)
    (read : s.toReceiver.read = some (.ok f.built, p)) (rest : p.Carries (forwardBytes fs))
    (room : Option ℕ) :
    ∃ s' a' outs, linkStep a .receive = .ok (a', outs) ∧
      wireStep s (.receive room) = .ok (s', outs) ∧ Sim s' a' ∧
      (s.Well → room ≠ none → s'.Well) := by
  have up : a.bare.connected = true ∧ s.toSender.free := ⟨online, free⟩
  obtain ⟨a', b, outs, new, taken, bare, adds⟩ := Link.receive_bare head
  have step : linkStep a .receive = .ok (a', outs) := by simp [linkStep, taken]
  obtain ⟨sim, well⟩ := Sim.flush (s := { s with link := b, toReceiver := p }) adds rfl online rest
    (h.online online).2 (by simp) (fun _ => free) (h.inv.next h.fits step (by simp) trivial) room
  have same := Pipe.read_failed read
  refine ⟨_, a', outs, step, ?_, sim, fun before => well ⟨same.trans before.1, before.2⟩⟩
  simp only [wireStep, Wire.receive, read, toForward_built, h.link, bare, if_pos up]

theorem Sim.receive (h : Sim s a) (room : Option ℕ) : Matched a s (.receive room) := by
  by_cases ready : s.link.connected ∧ s.toSender.free
  case neg =>
    refine .disabled ?_
    simp only [wireStep, if_neg ready]
  have online : a.connected = true := h.connected ▸ ready.1
  obtain ⟨forward, back⟩ := h.online online
  have readable : ∀ f ∈ a.forward, Readable f.send f.built := fun f mem =>
    Forward.readable (h.fits.forward f mem)
  rcases Pipe.Carries.read readable forward with ⟨p, read, same⟩ | ⟨f, fs, p, head, read, rest⟩
  · refine .none ?_ (h.pipes online same back)
    simp only [wireStep, if_pos ready, Wire.receive, read]
  · obtain ⟨s', a', outs, step, taken, sim, -⟩ :=
      h.received online ready.2 head read rest room
    exact .one taken step sim (.receive room) trivial

/-- The sender has read a packet; where its answer cannot be written, a disconnection is queued. -/
theorem Sim.gotAnswer (h : Sim s a) (online : a.connected = true) (free : s.toReceiver.free)
    {x : Answer} {as : List Answer} {p : Pipe} (head : a.answers = x :: as)
    (read : s.toSender.read = some (.ok x.built, p)) (rest : p.Carries (answerBytes as))
    (room : Option ℕ) :
    ∃ t a' outs, linkStep a .answered = .ok (a', outs) ∧ Sim t a' ∧ a'.connected = true ∧
      (wireStep s (.answered room) = .ok (t, outs) ∨
        t.toReceiver.failed = true ∧
          wireStep s (.answered room) = .ok (t.disconnectInternal, outs)) ∧
      (s.Well → room ≠ none → t.Well) := by
  have up : a.bare.connected = true ∧ s.toReceiver.free := ⟨online, free⟩
  obtain ⟨a', b, outs, new, taken, bare, adds⟩ := Link.answered_bare head
  have step : linkStep a .answered = .ok (a', outs) := by simp [linkStep, taken]
  obtain ⟨sim, well⟩ := Sim.flush (s := { s with link := b, toSender := p }) adds rfl online
    (h.online online).1 rest (fun _ => free) (by simp) (h.inv.next h.fits step (by simp) trivial)
    room
  have same := Pipe.read_failed read
  refine ⟨_, a', outs, step, sim, adds.connected.trans online, ?_,
    fun before => well ⟨before.1, same.trans before.2⟩⟩
  simp only [wireStep, Wire.answered, read, toAnswer_built, h.link, bare, if_pos up]
  split_ifs with failed
  · exact .inr ⟨failed.2, rfl⟩
  · exact .inl rfl

theorem Sim.answered (h : Sim s a) (room : Option ℕ) : Matched a s (.answered room) := by
  by_cases ready : s.link.connected ∧ s.toReceiver.free
  case neg =>
    refine .disabled ?_
    simp only [wireStep, if_neg ready]
  have online : a.connected = true := h.connected ▸ ready.1
  obtain ⟨forward, back⟩ := h.online online
  have readable : ∀ x ∈ a.answers, Readable x.send x.built := fun x mem =>
    Answer.readable (h.fits.answers x mem)
  rcases Pipe.Carries.read readable back with ⟨p, read, same⟩ | ⟨x, as, p, head, read, rest⟩
  · refine .none ?_ (h.pipes online forward same)
    simp only [wireStep, if_pos ready, Wire.answered, read]
  · obtain ⟨t, a', outs, step, sim, up, taken | ⟨-, taken⟩, -⟩ :=
      h.gotAnswer online ready.2 head read rest room
    · exact .one taken step sim (.answered room) trivial
    · exact .queued taken step sim up (.answered room) trivial

theorem Sim.retry (h : Sim s a) (msgid : ℕ) (room : Option ℕ) :
    Matched a s (.retry msgid room) := by
  by_cases ready : s.link.connected ∧ s.good ∧ s.toReceiver.free
  case neg =>
    refine .disabled ?_
    simp only [wireStep, if_neg ready]
  have online : a.connected = true := h.connected ▸ ready.1
  obtain ⟨forward, back⟩ := h.online online
  let sent := retries a.outboundMsgs fun x => x = msgid
  let a' : Link Message := { a with forward := a.forward ++ sent }
  have step : linkStep a (.retry fun x => x = msgid) = .ok (a', []) := by
    simp only [linkStep, if_pos online]
    rfl
  have adds : Adds a a' sent [] { a.bare with forward := sent } :=
    ⟨rfl, rfl, (List.append_nil _).symm, rfl, retries_few h.inv.distinct msgid⟩
  obtain ⟨sim, -⟩ := Sim.flush (s := { s with link := { a.bare with forward := sent } }) adds rfl
    online forward back (fun _ => ready.2.2) (by simp) (h.inv.next h.fits step (by simp) trivial)
    room
  have taken : wireStep s (.retry msgid room) = .ok (s.retry msgid room, []) := by
    simp only [wireStep, if_pos ready]
  unfold Wire.retry at taken
  simp only [h.link] at taken
  split_ifs at taken with failed
  · exact .queued taken step sim online (.retry msgid room _) trivial
  · exact .one taken step sim (.retry msgid room _) trivial

theorem Sim.queue (h : Sim s a) : Matched a s .disconnectInternal := by
  by_cases up : s.link.connected = true
  case neg =>
    refine .disabled ?_
    simp only [wireStep, if_neg up]
  obtain ⟨queued, sim⟩ := h.disconnectInternal (h.connected ▸ up) s.good
  refine .one ?_ queued sim (.disconnectInternal _) trivial
  simp only [wireStep, if_pos up]
  rfl

theorem Link.Fresh.bare {μ : Type} {a : Link μ} (h : a.bare.Fresh) : a.Fresh := h

theorem Sim.send (h : Sim s a) (p : Message) (ready : (WireOp.send p).Ready s) :
    Matched a s (.send p) := by
  obtain ⟨fits, fresh⟩ := ready
  rw [h.link] at fresh
  cases taken : a.send p with
  | none =>
    refine .disabled ?_
    simp only [wireStep, h.link, a.send_bare p, taken, Option.map_none]
  | some r =>
    obtain ⟨a', outs⟩ := r
    have step : linkStep a (.send p) = .ok (a', outs) := by simp [linkStep, taken]
    obtain ⟨inv, fits'⟩ := h.inv.next h.fits step (by simpa using fits) fresh.bare
    have same : a'.connected = a.connected ∧ a'.forward = a.forward ∧ a'.answers = a.answers := by
      cases linkStep_happens step with
      | refused => exact ⟨rfl, rfl, rfl⟩
      | accepted => exact ⟨rfl, rfl, rfl⟩
    have sim : Sim { s with link := a'.bare } a' := by
      refine ⟨inv, fits', rfl, ?_, ?_⟩
      · rw [same.1, same.2.1, same.2.2]
        exact h.online
      · rw [same.1]
        exact h.offline
    refine .one ?_ step sim (.send p) fresh.bare
    simp only [wireStep, h.link, a.send_bare p, taken, Option.map_some]

theorem continuePipe_carries {p : Pipe} {stream : List Byte} (h : p.Carries stream)
    (room : Option ℕ) :
    continuePipe p room = .error .disabled ∨
      ∃ p', continuePipe p room = .ok p' ∧ p'.Carries stream := by
  unfold continuePipe
  split_ifs with free
  · exact .inl rfl
  · obtain ⟨p', continued, carries⟩ := h.continueWrite free room
    rw [continued]
    exact .inr ⟨p', rfl, carries⟩

theorem Sim.continueForward (h : Sim s a) (room : Option ℕ) :
    Matched a s (.continueForward room) := by
  by_cases up : s.link.connected = true
  case neg =>
    refine .disabled ?_
    simp only [wireStep, if_neg up]
  have online : a.connected = true := h.connected ▸ up
  obtain ⟨forward, back⟩ := h.online online
  rcases continuePipe_carries forward room with disabled | ⟨p, continued, carries⟩
  · refine .disabled ?_
    simp only [wireStep, if_pos up, disabled]
    rfl
  · refine .none ?_ (h.pipes online carries back)
    simp only [wireStep, if_pos up, continued]
    rfl

theorem Sim.continueBack (h : Sim s a) (room : Option ℕ) :
    Matched a s (.continueBack room) := by
  by_cases up : s.link.connected = true
  case neg =>
    refine .disabled ?_
    simp only [wireStep, if_neg up]
  have online : a.connected = true := h.connected ▸ up
  obtain ⟨forward, back⟩ := h.online online
  rcases continuePipe_carries back room with disabled | ⟨p, continued, carries⟩
  · refine .disabled ?_
    simp only [wireStep, if_pos up, disabled]
    rfl
  · refine .none ?_ (h.pipes online forward carries)
    simp only [wireStep, if_pos up, continued]
    rfl

theorem Sim.carryForward (h : Sim s a) (n : ℕ) : Matched a s (.carryForward n) := by
  by_cases up : s.link.connected = true
  case neg =>
    refine .disabled ?_
    simp only [wireStep, if_neg up]
  have online : a.connected = true := h.connected ▸ up
  obtain ⟨forward, back⟩ := h.online online
  refine .none ?_ (h.pipes online (forward.carry n) back)
  simp only [wireStep, if_pos up]

theorem Sim.carryBack (h : Sim s a) (n : ℕ) : Matched a s (.carryBack n) := by
  by_cases up : s.link.connected = true
  case neg =>
    refine .disabled ?_
    simp only [wireStep, if_neg up]
  have online : a.connected = true := h.connected ▸ up
  obtain ⟨forward, back⟩ := h.online online
  refine .none ?_ (h.pipes online forward (back.carry n))
  simp only [wireStep, if_pos up]

theorem Link.disconnect_bare {μ : Type} (a : Link μ) (cleansession : Bool) :
    a.bare.disconnect cleansession =
        ((a.disconnect cleansession).1.bare, (a.disconnect cleansession).2) ∧
      (a.disconnect cleansession).1.connected = false := by
  cases cleansession with
  | true => exact ⟨rfl, rfl⟩
  | false => exact ⟨rfl, rfl⟩

theorem Sim.disconnect (h : Sim s a) (cleansession : Bool) :
    Matched a s (.disconnect cleansession) := by
  have step : linkStep a (.disconnect cleansession) =
      .ok ((a.disconnect cleansession).1, (a.disconnect cleansession).2) := rfl
  obtain ⟨bare, off⟩ := a.disconnect_bare cleansession
  obtain ⟨inv, fits⟩ := h.inv.next h.fits step (by simp) trivial
  have ends : s.link.disconnect cleansession =
      ((a.disconnect cleansession).1.bare, (a.disconnect cleansession).2) := by
    rw [h.link, bare]
  have closed {q q' : Pipe} (forward : q.Closed) (back : q'.Closed) :
      Sim ⟨(a.disconnect cleansession).1.bare, false, q, q'⟩ (a.disconnect cleansession).1 :=
    ⟨inv, fits, rfl, fun online => by simp [off] at online, fun _ => ⟨forward, back⟩⟩
  cases online : a.connected with
  | true =>
    obtain ⟨forward, back⟩ := h.online online
    refine .one ?_ step (closed forward.close back.close) (.disconnect cleansession) trivial
    simp only [wireStep, ends, h.connected, online, if_true]
  | false =>
    obtain ⟨forward, back⟩ := h.offline online
    refine .one ?_ step (closed forward back) (.disconnect cleansession) trivial
    simp [wireStep, ends, h.connected, online]

theorem Sim.connect (h : Sim s a) {senderSocket receiverSocket : ℤ}
    (ready : (WireOp.connect senderSocket receiverSocket).Ready s) :
    Matched a s (.connect senderSocket receiverSocket) := by
  cases up : a.connected with
  | true =>
    refine .disabled ?_
    simp only [wireStep, h.connected, up, if_true]
  | false =>
    obtain ⟨positive, positive', unused, unused'⟩ := ready
    obtain ⟨forward, back⟩ := h.offline up
    obtain ⟨-, nothing⟩ := h.inv.offline up
    have none : retries a.outboundMsgs (fun _ => false) = [] := by simp [retries]
    have step : linkStep a (.connect fun _ => false) =
        .ok ({ a with connected := true, forward := [] }, []) := by
      simp [linkStep, up, none]
    obtain ⟨inv, fits⟩ := h.inv.next h.fits step (by simp) trivial
    have sim : Sim ⟨{ s.link with connected := true }, true,
        s.toReceiver.connect senderSocket receiverSocket,
        s.toSender.connect receiverSocket senderSocket⟩
        { a with connected := true, forward := [] } := by
      refine ⟨inv, fits, ?_, fun _ => ⟨forward.connect unused positive', ?_⟩, fun off => ?_⟩
      · rw [h.link]
        rfl
      · show Pipe.Carries _ (answerBytes a.answers)
        rw [nothing]
        exact back.connect unused' positive
      · simp at off
    refine .one ?_ step sim (.connect senderSocket receiverSocket _) trivial
    simp [wireStep, h.connected, up]

/-- Every step of the two ends is a step of `Link`. -/
theorem Sim.step (h : Sim s a) {op : WireOp} (ready : op.Ready s) : Matched a s op := by
  cases op with
  | send p => exact h.send p ready
  | process room => exact h.process room
  | receive room => exact h.receive room
  | answered room => exact h.answered room
  | retry msgid room => exact h.retry msgid room
  | disconnectInternal => exact h.queue
  | continueForward room => exact h.continueForward room
  | continueBack room => exact h.continueBack room
  | carryForward n => exact h.carryForward n
  | carryBack n => exact h.carryBack n
  | disconnect cleansession => exact h.disconnect cleansession
  | connect senderSocket receiverSocket => exact h.connect ready

theorem Matched.taken {op : WireOp} {s' : Wire} (h : Matched a s op)
    (taken : wireStep s op = .ok (s', outs)) :
    ∃ lops a', run linkStep a lops = .ok (a', outs) ∧ Sim s' a' ∧
      (∀ m ∈ trace linkStep a lops, m.input.Fresh m.pre) ∧ ∀ lop ∈ lops, op.Does lop := by
  cases h with
  | disabled stopped =>
    rw [stopped] at taken
    cases taken
  | steps taken' ran sim does fresh =>
    rw [taken'] at taken
    cases taken
    exact ⟨_, _, ran, sim, fresh, does⟩

end Sim

/-! ### Whole runs -/

theorem initWire_sim : Sim initWire initLink where
  inv := initLink_inv
  fits := initLink_fits
  link := rfl
  online online := by cases online
  offline _ := ⟨initPipe_closed, initPipe_closed⟩

section Runs

variable {ops : List WireOp}

theorem wireTrace_sim (ready : ∀ m ∈ wireTrace ops, m.input.Ready m.pre) :
    ∃ js a, run linkStep initLink js = .ok (a, (wireTrace ops).flatMap Move.outs) ∧
      Sim (final initWire (wireTrace ops)) a ∧ ∀ m ∈ linkTrace js, m.input.Fresh m.pre := by
  refine simulate Sim (fun m : LinkMove Message => m.input.Fresh m.pre) initWire_sim fun m mem a sim taken => ?_
  obtain ⟨lops, a', ran, sim', fresh, -⟩ := (sim.step (ready m mem)).taken taken
  exact ⟨lops, a', ran, sim', fresh⟩

theorem wireTrace_goes (ready : ∀ m ∈ wireTrace ops, m.input.Ready m.pre) :
    halt? wireStep initWire ops ≠ some .broken := by
  intro broken
  obtain ⟨js, a, -, sim, -⟩ := wireTrace_sim ready
  obtain ⟨op, -, halts⟩ := halt_final broken
  set s := final initWire (wireTrace ops) with hs
  have matched : Matched a s op → False := by
    rintro (stopped | taken)
    · rw [halts] at stopped
      cases stopped
    · rw [halts] at taken
      cases taken
  cases op with
  | send p =>
    simp only [wireStep] at halts
    split at halts
    · cases halts
    · cases halts
  | connect senderSocket receiverSocket =>
    simp only [wireStep] at halts
    split_ifs at halts
    cases halts
  | _ => exact matched (sim.step trivial)

/-- A message of one byte on the topic `a`. -/
def sampleMessage : Message := ⟨⟨[97], by decide⟩, [1], false⟩

/-- PUBLISH is written in three parts and read in two; PUBREC and PUBREL are written and read at
once. -/
def sampleWireOps : List WireOp :=
  [.connect 4 7, .send sampleMessage, .process (some 3), .carryForward 2, .receive (some 9),
    .continueForward (some 9), .continueForward (some 9), .carryForward 9, .receive (some 9),
    .carryBack 9, .answered (some 9), .carryForward 9, .receive (some 9)]

end Runs

/-- PUBLISH cannot be written, and is on the next connection. -/
def unwrittenWireOps : List WireOp :=
  [.connect 4 7, .send sampleMessage, .process none, .disconnect false, .connect 5 8,
    .retry 1 (some 12), .carryForward 12, .receive (some 9)]

end Siproxy.Mqtt
