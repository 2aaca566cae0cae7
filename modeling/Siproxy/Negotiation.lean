import Mathlib.Algebra.Order.BigOperators.Group.List
import Mathlib.Data.List.Dedup
import Siproxy.Options
import Siproxy.QMethod

/-!
# Negotiation between two trackers

Two trackers that are connected by FIFO channels, and applications at both ends that call
`telnet_negotiate` at any time.  For every option and both directions, what the trackers do is what
the Q method does (`Net.Sound.negotiate`, `Net.Sound.deliver`), as long as the allocations succeed
and the table of options does not overflow.

* `negotiation_bounded`: for each option and direction, the messages in flight are at most as many
  as the ends that wait, and every sequence of deliveries ends.
* `negotiation_agrees`: with no message in flight, all options are settled and the ends agree, in
  every run in which no `WONT` arrives at an end in the state `WANTNO_OP`.
-/

namespace Siproxy.Telnet

open CString QMethod

/-! ### What a tracker does -/

/-- The messages that events send. -/
def messages (evs : List TelnetEvent) : List (List Byte) :=
  evs.filterMap fun
    | .send bytes => some bytes
    | _ => none

/-- The commands about an option that is our own (`WILL`, `WONT`) or the peer's (`DO`, `DONT`). -/
def command (us on : Bool) : Byte :=
  match us, on with
  | true, true => 251
  | true, false => 252
  | false, true => 253
  | false, false => 254

/-- A negotiation message. -/
def msg (us : Bool) (o : Byte) (on : Bool) : List Byte := [255, command us on, o]

/-- A tracker that is no proxy, whose allocations succeed and whose table holds these options at
most. -/
structure Live (used : List Byte) (t : Tracker) : Prop where
  proxy : t.proxy = false
  heap : ∀ ok ∈ t.heap, ok = true
  grown : ∃ opts, Grown t.q opts ∧ opts ⊆ used

/-- The tracker `t'` is `t` with the state of one option replaced. -/
structure Becomes (used : List Byte) (t t' : Tracker) (o : Byte) (us him : QState) : Prop where
  live : Live used t'
  state : t'.state = t.state
  telopts : t'.telopts = t.telopts
  get : ∀ o', getRfc1143 t' o' = if o' = o then ⟨o, us, him⟩ else getRfc1143 t o'

section Tracker

variable {used : List Byte} {t : Tracker} {o : Byte}

theorem Live.allocOk (h : Live used t) : t.allocOk = true := allocOk_of_heap h.heap

theorem Live.becomes_self (h : Live used t) (o : Byte) :
    Becomes used t t o (getRfc1143 t o).us (getRfc1143 t o).him := by
  refine ⟨h, rfl, rfl, fun o' => ?_⟩
  split_ifs with ho
  · subst ho
    have := getRfc1143_telopt t o'
    cases hrow : getRfc1143 t o' with
    | mk telopt us him =>
      rw [hrow] at this
      exact congrArg (Rfc1143.mk · us him) this
  · rfl

theorem Live.settle (h : Live used t) (small : used.length < 64) (ho : o ∈ used) (us him : QState)
    (evs : List TelnetEvent) :
    Becomes used t (settle t o us him evs).1 o us him ∧ (settle t o us him evs).2 = evs := by
  obtain ⟨opts, grown, sub⟩ := h.grown
  have room : o ∉ t.q.map (·.telopt) → t.q.length + 4 < 256 := by
    intro new
    have nodup : (o :: opts).Nodup :=
      List.nodup_cons.2 ⟨fun hmem => new (grown.held hmem), grown.nodup⟩
    have bound := (nodup.subperm (List.cons_subset.2 ⟨ho, sub⟩)).length_le
    rw [List.length_cons] at bound
    rw [grown.size]
    omega
  obtain ⟨quiet, -⟩ := setRfc1143_eq h.allocOk room us him
  obtain ⟨q, heap, frame, hheap⟩ := setRfc1143_frame t o us him
  unfold Telnet.settle
  rw [quiet, List.nil_append]
  refine ⟨⟨⟨?_, ?_, ?_⟩, ?_, ?_, getRfc1143_setRfc1143 h.allocOk room us him⟩, rfl⟩
  · rw [frame]
    exact h.proxy
  · rw [frame]
    exact fun ok hok => h.heap ok (hheap hok)
  · exact grown.setRfc1143 sub h.allocOk ho room us him
  · rw [frame]
  · rw [frame]

/-- The state of our own option, or of the peer's. -/
def Rfc1143.side (r : Rfc1143) (us : Bool) : QState := bif us then r.us else r.him

/-- What a tracker does about an option: the new state and the messages. -/
def Acts (used : List Byte) (us : Bool) (t t' : Tracker) (o : Byte) (evs : List TelnetEvent)
    (r : QState × List Bool) : Prop :=
  Becomes used t t' o (bif us then r.1 else (getRfc1143 t o).us)
    (bif us then (getRfc1143 t o).him else r.1) ∧ messages evs = r.2.map (msg us o)

theorem Live.settle_him (h : Live used t) (small : used.length < 64) (ho : o ∈ used)
    {him : QState} {evs : List TelnetEvent} {msgs : List Bool}
    (sent : messages evs = msgs.map (msg false o)) :
    Acts used false t (Telnet.settle t o (getRfc1143 t o).us him evs).1 o
      (Telnet.settle t o (getRfc1143 t o).us him evs).2 (him, msgs) := by
  obtain ⟨becomes, raised⟩ := h.settle small ho (getRfc1143 t o).us him evs
  exact ⟨becomes, by rw [raised, sent]⟩

theorem Live.settle_us (h : Live used t) (small : used.length < 64) (ho : o ∈ used)
    {us : QState} {evs : List TelnetEvent} {msgs : List Bool}
    (sent : messages evs = msgs.map (msg true o)) :
    Acts used true t (Telnet.settle t o us (getRfc1143 t o).him evs).1 o
      (Telnet.settle t o us (getRfc1143 t o).him evs).2 (us, msgs) := by
  obtain ⟨becomes, raised⟩ := h.settle small ho us (getRfc1143 t o).him evs
  exact ⟨becomes, by rw [raised, sent]⟩

theorem Live.keep (h : Live used t) (us : Bool) {q : QState}
    (hq : (getRfc1143 t o).side us = q) {evs : List TelnetEvent} {msgs : List Bool}
    (sent : messages evs = msgs.map (msg us o)) : Acts used us t t o evs (q, msgs) := by
  have self := h.becomes_self o
  subst hq
  cases us <;> exact ⟨self, sent⟩

/-- The state of `_process` in which an option is expected. -/
def optionState (us on : Bool) : TelnetState :=
  match us, on with
  | true, true => .do_
  | true, false => .dont
  | false, true => .will
  | false, false => .wont

/-- `_negotiate` follows the Q method. -/
theorem Live.negotiate_acts (h : Live used t) (small : used.length < 64) (ho : o ∈ used)
    {us on : Bool} (hs : t.state = optionState us on) :
    Acts used us t (negotiate t o).1 o (negotiate t o).2
      (receive us (checkTelopt t o us) on ((getRfc1143 t o).side us)) := by
  unfold negotiate
  match us, on with
  | false, true =>
    simp only [hs, optionState, h.proxy, Bool.false_eq_true, if_false]
    cases hq : (getRfc1143 t o).side false <;> rw [Rfc1143.side, cond_false] at hq <;> rw [hq]
    case no =>
      simp only [receive]
      split_ifs
      · exact h.settle_him small ho rfl
      · exact h.keep false hq rfl
    case yes => exact h.keep false hq rfl
    all_goals exact h.settle_him small ho rfl
  | false, false =>
    simp only [hs, optionState, h.proxy, Bool.false_eq_true, if_false]
    cases hq : (getRfc1143 t o).side false <;> rw [Rfc1143.side, cond_false] at hq <;> rw [hq]
    case no => exact h.keep false hq rfl
    all_goals exact h.settle_him small ho rfl
  | true, true =>
    simp only [hs, optionState, h.proxy, Bool.false_eq_true, if_false]
    cases hq : (getRfc1143 t o).side true <;> rw [Rfc1143.side, cond_true] at hq <;> rw [hq]
    case no =>
      simp only [receive]
      split_ifs
      · exact h.settle_us small ho rfl
      · exact h.keep true hq rfl
    case yes => exact h.keep true hq rfl
    all_goals exact h.settle_us small ho rfl
  | true, false =>
    simp only [hs, optionState, h.proxy, Bool.false_eq_true, if_false]
    cases hq : (getRfc1143 t o).side true <;> rw [Rfc1143.side, cond_true] at hq <;> rw [hq]
    case no => exact h.keep true hq rfl
    all_goals exact h.settle_us small ho rfl

/-- `telnet_negotiate` follows the Q method. -/
theorem Live.telnetNegotiate_acts (h : Live used t) (small : used.length < 64) (ho : o ∈ used)
    (us on : Bool) :
    Acts used us t (telnetNegotiate t (command us on) o).1 o
      (telnetNegotiate t (command us on) o).2 (request on ((getRfc1143 t o).side us)) := by
  unfold telnetNegotiate
  rw [if_neg (by simp [h.proxy])]
  match us, on with
  | true, true =>
    rw [if_pos (by decide)]
    cases hq : (getRfc1143 t o).side true <;> rw [Rfc1143.side, cond_true] at hq <;> rw [hq]
    case no | wantNo | wantYesOp => exact h.settle_us small ho rfl
    all_goals exact h.keep true hq rfl
  | true, false =>
    rw [if_neg (by decide), if_pos (by decide)]
    cases hq : (getRfc1143 t o).side true <;> rw [Rfc1143.side, cond_true] at hq <;> rw [hq]
    case yes | wantYes | wantNoOp => exact h.settle_us small ho rfl
    all_goals exact h.keep true hq rfl
  | false, true =>
    rw [if_neg (by decide), if_neg (by decide), if_pos (by decide)]
    cases hq : (getRfc1143 t o).side false <;> rw [Rfc1143.side, cond_false] at hq <;> rw [hq]
    case no | wantNo | wantYesOp => exact h.settle_him small ho rfl
    all_goals exact h.keep false hq rfl
  | false, false =>
    rw [if_neg (by decide), if_neg (by decide), if_neg (by decide), if_pos (by decide)]
    cases hq : (getRfc1143 t o).side false <;> rw [Rfc1143.side, cond_false] at hq <;> rw [hq]
    case yes | wantYes | wantNoOp => exact h.settle_him small ho rfl
    all_goals exact h.keep false hq rfl

theorem telnetNegotiate_other (h : Live used t) {cmd : Byte}
    (other : ∀ us on, cmd ≠ command us on) (o : Byte) : telnetNegotiate t cmd o = (t, []) := by
  unfold telnetNegotiate
  rw [if_neg (by simp [h.proxy])]
  have will : cmd ≠ 251 := other true true
  have wont : cmd ≠ 252 := other true false
  have do_ : cmd ≠ 253 := other false true
  have dont : cmd ≠ 254 := other false false
  dsimp only
  rw [if_neg will, if_neg wont, if_neg do_, if_neg dont]

/-- A message of the other end arrives at a tracker that waits for data. -/
theorem Live.telnetRecv_acts (h : Live used t) (small : used.length < 64) (ho : o ∈ used)
    (hs : t.state = .data) (us on : Bool) :
    (telnetRecv t (msg (!us) o on)).1.state = .data ∧
      Acts used us t (telnetRecv t (msg (!us) o on)).1 o (telnetRecv t (msg (!us) o on)).2
        (receive us (checkTelopt t o us) on ((getRfc1143 t o).side us)) := by
  let u : Tracker := { t with state := optionState us on }
  have eq : telnetRecv t (msg (!us) o on) =
      ({ (negotiate u o).1 with state := .data }, (negotiate u o).2) := by
    cases us <;> cases on <;>
      simp [telnetRecv_eq_loop, msg, command, loop, byteStep, iacByte, hs, pending, u, optionState]
  have live : Live used u := ⟨h.proxy, h.heap, h.grown⟩
  obtain ⟨becomes, sent⟩ := @Live.negotiate_acts used u o live small ho us on rfl
  rw [eq]
  exact ⟨rfl, ⟨⟨becomes.live.proxy, becomes.live.heap, becomes.live.grown⟩, hs.symm,
    becomes.telopts, becomes.get⟩, sent⟩

end Tracker

/-! ### Two trackers -/

/-- Two trackers and the messages in flight between them. -/
structure Net where
  a : Tracker
  b : Tracker
  ab : List (List Byte)
  ba : List (List Byte)
  deriving DecidableEq

/-- What happens at an end. -/
inductive EndAct where
  /-- The application calls `telnet_negotiate`. -/
  | negotiate (cmd telopt : Byte)
  /-- The first message in flight to the end arrives. -/
  | deliver
  deriving DecidableEq

inductive End where
  | a
  | b
  deriving DecidableEq

namespace Net

def fresh (teloptsA teloptsB : List Telopt) (heapA heapB : List Bool) : Net :=
  ⟨telnetInit teloptsA false heapA, telnetInit teloptsB false heapB, [], []⟩

/-- The net with the names of the ends exchanged, for the end `b`. -/
def seenFrom (n : Net) : End → Net
  | .a => n
  | .b => ⟨n.b, n.a, n.ba, n.ab⟩

/-- The end `a` has raised these events, and these messages are in flight to it. -/
def after (n : Net) (r : Tracker × List TelnetEvent) (ba : List (List Byte)) :
    Net × List TelnetEvent :=
  (⟨r.1, n.b, n.ab ++ messages r.2, ba⟩, r.2)

/-- A step at the end `a`. -/
def stepA (n : Net) : EndAct → Except Unit (Net × List TelnetEvent)
  | .negotiate cmd o => .ok (n.after (telnetNegotiate n.a cmd o) n.ba)
  | .deliver =>
    match n.ba with
    | [] => .error ()
    | m :: rest => .ok (n.after (telnetRecv n.a m) rest)

/-- A step at one of the ends; a delivery needs a message. -/
def step (n : Net) (x : End × EndAct) : Except Unit (Net × List TelnetEvent) :=
  ((n.seenFrom x.1).stepA x.2).map fun r => (r.1.seenFrom x.1, r.2)

theorem seenFrom_seenFrom (n : Net) (e : End) : (n.seenFrom e).seenFrom e = n := by
  cases e <;> rfl

end Net

/-! ### The Q method of an option -/

/-- The messages of one kind. -/
def msgsOf (us : Bool) (o : Byte) (ms : List (List Byte)) : List Bool :=
  ms.filterMap fun m =>
    if m = msg us o true then some true else if m = msg us o false then some false else none

theorem msgsOf_append (us : Bool) (o : Byte) (a b : List (List Byte)) :
    msgsOf us o (a ++ b) = msgsOf us o a ++ msgsOf us o b := List.filterMap_append

theorem msgsOf_cons (us us' : Bool) (o o' : Byte) (on : Bool) (ms : List (List Byte)) :
    msgsOf us' o' (msg us o on :: ms) =
      if us' = us ∧ o' = o then on :: msgsOf us' o' ms else msgsOf us' o' ms := by
  by_cases h : o' = o
  · cases us <;> cases us' <;> cases on <;> simp [msgsOf, msg, command, h]
  · cases us <;> cases us' <;> cases on <;> simp [msgsOf, msg, command, h, Ne.symm h]

theorem msgsOf_map (us us' : Bool) (o o' : Byte) (msgs : List Bool) :
    msgsOf us' o' (msgs.map (msg us o)) = if us' = us ∧ o' = o then msgs else [] := by
  induction msgs with
  | nil => simp [msgsOf]
  | cons on msgs ih =>
    rw [List.map_cons, msgsOf_cons, ih]
    split_ifs <;> rfl

namespace Net

/-- The option `o` of the end `b`, in the states of both ends and the messages about it. -/
def pair (n : Net) (o : Byte) : Pair :=
  ⟨(getRfc1143 n.a o).him, (getRfc1143 n.b o).us, msgsOf false o n.ab, msgsOf true o n.ba⟩

/-- The option `o` of the end `a` itself, or of the other end. -/
def dir (n : Net) (us : Bool) (o : Byte) : Pair := bif us then (n.seenFrom .b).pair o else n.pair o

theorem dir_seenFrom_b (n : Net) (us : Bool) (o : Byte) :
    (n.seenFrom .b).dir us o = n.dir (!us) o := by
  cases us <;> rfl

/-- What the end `a` does about one option leaves all others as they are, except for the messages
in flight to it. -/
theorem dir_after_other {used : List Byte} {n : Net} {r : Tracker × List TelnetEvent}
    {us us' : Bool} {o o' : Byte} {s : QState × List Bool} (acts : Acts used us n.a r.1 o r.2 s)
    (other : ¬ (us' = us ∧ o' = o)) {ba : List (List Byte)}
    (hba : msgsOf (!us') o' ba = msgsOf (!us') o' n.ba) :
    (n.after r ba).1.dir us' o' = n.dir us' o' := by
  obtain ⟨becomes, sent⟩ := acts
  have out : msgsOf us' o' (n.ab ++ messages r.2) = msgsOf us' o' n.ab := by
    rw [msgsOf_append, sent, msgsOf_map, if_neg other, List.append_nil]
  have state : (getRfc1143 r.1 o').side us' = (getRfc1143 n.a o').side us' := by
    rw [becomes.get]
    split_ifs with ho
    · subst ho
      cases us <;> cases us' <;> first | rfl | exact absurd ⟨rfl, rfl⟩ other
    · rfl
  cases us' with
  | false => exact Pair.ext state rfl out hba
  | true => exact Pair.ext rfl state hba out

theorem dir_after_self {used : List Byte} {n : Net} {r : Tracker × List TelnetEvent} {us : Bool}
    {o : Byte} {s : QState × List Bool} (acts : Acts used us n.a r.1 o r.2 s)
    (ba : List (List Byte)) :
    (n.after r ba).1.dir us o = bif us
      then ⟨(n.dir us o).him, s.1, msgsOf false o ba, (n.dir us o).up ++ s.2⟩
      else ⟨s.1, (n.dir us o).us, (n.dir us o).down ++ s.2, msgsOf true o ba⟩ := by
  obtain ⟨becomes, sent⟩ := acts
  have out : msgsOf us o (n.ab ++ messages r.2) = msgsOf us o n.ab ++ s.2 := by
    rw [msgsOf_append, sent, msgsOf_map, if_pos ⟨rfl, rfl⟩]
  have row : getRfc1143 r.1 o = ⟨o, bif us then s.1 else (getRfc1143 n.a o).us,
      bif us then (getRfc1143 n.a o).him else s.1⟩ := by
    rw [becomes.get, if_pos rfl]
  cases us with
  | false => exact Pair.ext (congrArg Rfc1143.him row) rfl out rfl
  | true => exact Pair.ext rfl (congrArg Rfc1143.us row) rfl out

end Net

/-! ### Simulation -/

/-- A negotiation message about one of these options. -/
def IsMsg (used : List Byte) (m : List Byte) : Prop := ∃ us, ∃ o ∈ used, ∃ on, m = msg us o on

/-- A tracker that expects data. -/
structure Idle (used : List Byte) (t : Tracker) : Prop where
  live : Live used t
  state : t.state = .data

/-- Both ends are idle, and all that is in flight is negotiation. -/
structure Net.Sound (used : List Byte) (n : Net) : Prop where
  a : Idle used n.a
  b : Idle used n.b
  ab : ∀ m ∈ n.ab, IsMsg used m
  ba : ∀ m ∈ n.ba, IsMsg used m

namespace Net

variable {used : List Byte} {strict : Prop} {n : Net}

theorem Sound.seenFrom (h : n.Sound used) (e : End) :
    (n.seenFrom e).Sound used := by
  cases e with
  | a => exact h
  | b => exact ⟨h.b, h.a, h.ba, h.ab⟩

theorem Sound.after (h : n.Sound used) {r : Tracker × List TelnetEvent} {us : Bool} {o : Byte}
    {s : QState × List Bool} (ho : o ∈ used) (acts : Acts used us n.a r.1 o r.2 s)
    {ba : List (List Byte)} (sub : ba ⊆ n.ba) :
    (n.after r ba).1.Sound used := by
  obtain ⟨becomes, sent⟩ := acts
  refine ⟨⟨becomes.live, becomes.state.trans h.a.state⟩, h.b, fun m hm => ?_,
    fun m hm => h.ba m (sub hm)⟩
  rcases List.mem_append.1 hm with hm | hm
  · exact h.ab m hm
  · rw [sent] at hm
    obtain ⟨on, -, rfl⟩ := List.mem_map.1 hm
    exact ⟨us, o, ho, on, rfl⟩

/-- The application of the end `a` asks, and each option makes a step of the Q method or none. -/
theorem Sound.negotiateA (h : n.Sound used) (small : used.length < 64)
    {o : Byte} (ho : o ∈ used) (cmd : Byte) :
    (n.after (telnetNegotiate n.a cmd o) n.ba).1.Sound used ∧
      ∀ us o', (n.after (telnetNegotiate n.a cmd o) n.ba).1.dir us o' = n.dir us o' ∨
        (n.dir us o').Ask ((n.after (telnetNegotiate n.a cmd o) n.ba).1.dir us o') := by
  by_cases hcmd : ∃ us on, cmd = command us on
  · obtain ⟨us, on, rfl⟩ := hcmd
    have acts := h.a.live.telnetNegotiate_acts small ho us on
    refine ⟨h.after ho acts (List.Subset.refl _), fun us' o' => ?_⟩
    by_cases other : us' = us ∧ o' = o
    · obtain ⟨rfl, rfl⟩ := other
      right
      rw [dir_after_self acts]
      cases us' with
      | false => exact Pair.Ask.him (n.dir false o') on
      | true => exact Pair.Ask.us (n.dir true o') on
    · exact .inl (dir_after_other acts other rfl)
  · have other : ∀ us on, cmd ≠ command us on := fun us on heq => hcmd ⟨us, on, heq⟩
    have same : (n.after (telnetNegotiate n.a cmd o) n.ba).1 = n := by
      rw [telnetNegotiate_other h.a.live other]
      simp [Net.after, messages]
    rw [same]
    exact ⟨h, fun us o' => .inl rfl⟩

/-- The first message in flight to the end `a` is a `WONT`, and the end has changed its mind about
the option since it asked for it. -/
def reopensA (n : Net) : Bool :=
  match n.ba with
  | [_, cmd, o] :: _ => cmd == command true false && (getRfc1143 n.a o).him == .wantNoOp
  | _ => false

/-- The step delivers a `WONT` about an option to an end whose state of it is `WANTNO_OP`. -/
def reopens (n : Net) (x : End × EndAct) : Bool := x.2 == .deliver && (n.seenFrom x.1).reopensA

/-- One option of `used` makes a step of the Q method on a message, and nothing else changes. -/
def Delivers (used : List Byte) (strict : Prop) (n n' : Net) : Prop :=
  ∃ us, ∃ o ∈ used, (n.dir us o).Recv strict (n'.dir us o) ∧
    ∀ us' o', ¬ (us' = us ∧ o' = o) → n'.dir us' o' = n.dir us' o'

theorem Sound.deliverA (h : n.Sound used) (small : used.length < 64) {m : List Byte}
    {rest : List (List Byte)} (hba : n.ba = m :: rest) (calm : strict → n.reopensA = false) :
    (n.after (telnetRecv n.a m) rest).1.Sound used ∧
      n.Delivers used strict (n.after (telnetRecv n.a m) rest).1 := by
  obtain ⟨v, o, ho, on, rfl⟩ := h.ba m (by simp [hba])
  obtain ⟨us, rfl⟩ : ∃ us, v = !us := ⟨!v, (Bool.not_not v).symm⟩
  obtain ⟨-, acts⟩ := h.a.live.telnetRecv_acts small ho h.a.state us on
  refine ⟨h.after ho acts (by simp [hba]), us, o, ho, ?_, fun us' o' other => ?_⟩
  · rw [dir_after_self acts]
    cases us with
    | true =>
      have head : (n.dir true o).down = on :: msgsOf false o rest := by
        show msgsOf false o n.ba = _
        rw [hba, Bool.not_true, msgsOf_cons, if_pos ⟨rfl, rfl⟩]
      have step := @Pair.Recv.down strict (n.dir true o) on (by rw [head]; rfl)
        (checkTelopt n.a o true)
      rw [Pair.recvDown, head] at step
      exact step
    | false =>
      have head : (n.dir false o).up = on :: msgsOf true o rest := by
        show msgsOf true o n.ba = _
        rw [hba, Bool.not_false, msgsOf_cons, if_pos ⟨rfl, rfl⟩]
      have awake : strict → ¬ (on = false ∧ (n.dir false o).him = .wantNoOp) := by
        rintro hstrict ⟨rfl, hhim⟩
        have him : (getRfc1143 n.a o).him = .wantNoOp := hhim
        have := calm hstrict
        simp [reopensA, hba, msg, him] at this
      have step := @Pair.Recv.up strict (n.dir false o) on (by rw [head]; rfl)
        (checkTelopt n.a o false) awake
      rw [Pair.recvUp, head] at step
      exact step
  · apply dir_after_other acts other
    rw [hba, msgsOf_cons, if_neg]
    simpa using other

theorem Delivers.seenFrom {n' : Net} (h : n.Delivers used strict n') (e : End) :
    (n.seenFrom e).Delivers used strict (n'.seenFrom e) := by
  cases e with
  | a => exact h
  | b =>
    obtain ⟨us, o, ho, recv, others⟩ := h
    refine ⟨!us, o, ho, ?_, fun us' o' other => ?_⟩
    · rw [dir_seenFrom_b, dir_seenFrom_b, Bool.not_not]
      exact recv
    · rw [dir_seenFrom_b, dir_seenFrom_b]
      apply others
      rintro ⟨hus, ho'⟩
      exact other ⟨by rw [← hus, Bool.not_not], ho'⟩

/-- A delivery is a step of the Q method for one option. -/
theorem Sound.deliver (h : n.Sound used) (small : used.length < 64) {e : End} {n' : Net}
    {evs : List TelnetEvent} (calm : strict → n.reopens (e, .deliver) = false)
    (hstep : n.step (e, .deliver) = .ok (n', evs)) :
    n'.Sound used ∧ n.Delivers used strict n' := by
  obtain ⟨⟨m, evs'⟩, hm, heq⟩ := Machine.map_eq_ok.1 hstep
  obtain ⟨rfl, rfl⟩ := Prod.mk.inj heq
  rw [stepA] at hm
  cases hba : (n.seenFrom e).ba with
  | nil => rw [hba] at hm; cases hm
  | cons first rest =>
    rw [hba] at hm
    have quiet : strict → (n.seenFrom e).reopensA = false := by
      intro hstrict
      simpa [reopens] using calm hstrict
    obtain ⟨sound, delivers⟩ := (h.seenFrom e).deliverA small hba quiet
    obtain ⟨rfl, rfl⟩ := Prod.mk.inj (Except.ok.inj hm)
    have seen := delivers.seenFrom e
    rw [seenFrom_seenFrom] at seen
    exact ⟨sound.seenFrom e, seen⟩

/-- A call of `telnet_negotiate` is a request of the Q method for one option, or does nothing. -/
theorem Sound.negotiate (h : n.Sound used) (small : used.length < 64) {e : End} {cmd o : Byte}
    (ho : o ∈ used) {n' : Net} {evs : List TelnetEvent}
    (hstep : n.step (e, .negotiate cmd o) = .ok (n', evs)) :
    n'.Sound used ∧ ∀ us o', n'.dir us o' = n.dir us o' ∨ (n.dir us o').Ask (n'.dir us o') := by
  obtain ⟨⟨m, evs'⟩, hm, heq⟩ := Machine.map_eq_ok.1 hstep
  obtain ⟨rfl, rfl⟩ := Prod.mk.inj heq
  rw [stepA] at hm
  obtain ⟨rfl, rfl⟩ := Prod.mk.inj (Except.ok.inj hm)
  obtain ⟨sound, asks⟩ := (h.seenFrom e).negotiateA small ho cmd
  refine ⟨sound.seenFrom e, fun us o' => ?_⟩
  cases e with
  | a => exact asks us o'
  | b =>
    have ask := asks (!us) o'
    rw [dir_seenFrom_b n, Bool.not_not] at ask
    rw [dir_seenFrom_b]
    exact ask

end Net

/-! ### Runs -/

open Machine

/-- The options that the applications name. -/
def teloptsOf (xs : List (End × EndAct)) : List Byte :=
  xs.filterMap fun
    | (_, .negotiate _ telopt) => some telopt
    | _ => none

/-- Messages arrive at these ends, and no application calls. -/
def deliveries (ends : List End) : List (End × EndAct) := ends.map fun e => (e, .deliver)

theorem mem_teloptsOf {xs : List (End × EndAct)} {e : End} {cmd o : Byte}
    (h : (e, .negotiate cmd o) ∈ xs) : o ∈ teloptsOf xs :=
  List.mem_filterMap.2 ⟨_, h, rfl⟩

namespace Net

variable {used : List Byte} {strict : Prop} {n n' : Net}

theorem fresh_sound {heapA heapB : List Bool} (okA : ∀ ok ∈ heapA, ok = true)
    (okB : ∀ ok ∈ heapB, ok = true) (used : List Byte) (teloptsA teloptsB : List Telopt) :
    (fresh teloptsA teloptsB heapA heapB).Sound used where
  a := ⟨⟨rfl, okA, [], grown_nil, List.nil_subset _⟩, rfl⟩
  b := ⟨⟨rfl, okB, [], grown_nil, List.nil_subset _⟩, rfl⟩
  ab := fun _ hm => absurd hm List.not_mem_nil
  ba := fun _ hm => absurd hm List.not_mem_nil

theorem dir_fresh (teloptsA teloptsB : List Telopt) (heapA heapB : List Bool) (us : Bool)
    (o : Byte) : (fresh teloptsA teloptsB heapA heapB).dir us o = .fresh := by
  cases us <;> rfl

theorem Delivers.keeps {I : Pair → Prop} (recv : ∀ p p', I p → p.Recv strict p' → I p')
    (h : n.Delivers used strict n') (holds : ∀ us o, I (n.dir us o)) :
    ∀ us o, I (n'.dir us o) := by
  obtain ⟨us, o, -, received, others⟩ := h
  intro us' o'
  by_cases self : us' = us ∧ o' = o
  · obtain ⟨rfl, rfl⟩ := self
    exact recv _ _ (holds us' o') received
  · exact others us' o' self ▸ holds us' o'

/-- What the steps of the Q method keep holds for each option in all runs. -/
theorem Sound.keeps {I : Pair → Prop} (ask : ∀ p p', I p → p.Ask p' → I p')
    (recv : ∀ p p', I p → p.Recv strict p' → I p') {xs : List (End × EndAct)}
    (small : used.length < 64) (sub : teloptsOf xs ⊆ used) (h : n.Sound used)
    (start : ∀ us o, I (n.dir us o))
    (calm : strict → ∀ m ∈ trace step n xs, m.pre.reopens m.input = false)
    {evs : List TelnetEvent} (hrun : run step n xs = .ok (n', evs)) :
    n'.Sound used ∧ ∀ us o, I (n'.dir us o) := by
  apply run_invariant (fun n => n.Sound used ∧ ∀ us o, I (n.dir us o)) ⟨h, start⟩ ?_ hrun
  rintro ⟨pre, ⟨e, act⟩, outs, post⟩ hm ⟨sound, holds⟩ hstep
  cases act with
  | negotiate cmd o =>
    have ho : o ∈ used := sub (mem_teloptsOf (trace_input_mem hm))
    obtain ⟨sound', asks⟩ := sound.negotiate small ho hstep
    refine ⟨sound', fun us o' => ?_⟩
    rcases asks us o' with same | asked
    · exact same ▸ holds us o'
    · exact ask _ _ (holds us o') asked
  | deliver =>
    obtain ⟨sound', delivers⟩ := sound.deliver small (fun hstrict => calm hstrict _ hm) hstep
    exact ⟨sound', delivers.keeps recv holds⟩

/-- What the steps of the Q method keep and holds of an option that nobody has asked for holds for
each option in all runs of two fresh trackers. -/
theorem run_fresh {I : Pair → Prop} (ask : ∀ p p', I p → p.Ask p' → I p')
    (recv : ∀ p p', I p → p.Recv strict p' → I p') (init : I .fresh)
    {teloptsA teloptsB : List Telopt} {heapA heapB : List Bool} (okA : ∀ ok ∈ heapA, ok = true)
    (okB : ∀ ok ∈ heapB, ok = true) {xs : List (End × EndAct)}
    (few : (teloptsOf xs).dedup.length < 64)
    (calm : strict → ∀ m ∈ trace step (fresh teloptsA teloptsB heapA heapB) xs,
      m.pre.reopens m.input = false) {evs : List TelnetEvent}
    (hrun : run step (fresh teloptsA teloptsB heapA heapB) xs = .ok (n, evs)) :
    n.Sound (teloptsOf xs).dedup ∧ ∀ us o, I (n.dir us o) := by
  have sub : teloptsOf xs ⊆ (teloptsOf xs).dedup := fun o ho => List.mem_dedup.2 ho
  have start : ∀ us o, I ((fresh teloptsA teloptsB heapA heapB).dir us o) := by
    intro us o
    rw [dir_fresh]
    exact init
  exact (fresh_sound okA okB _ teloptsA teloptsB).keeps ask recv few sub start calm hrun

/-! ### Deliveries end -/

/-- What is left to do for all options. -/
def work (used : List Byte) (n : Net) : ℕ :=
  (used.map fun o => weight (n.dir false o) + weight (n.dir true o)).sum

theorem Delivers.work_lt (h : n.Delivers used strict n') (occurs : ∀ us o, Occurs (n.dir us o)) :
    n'.work used < n.work used := by
  obtain ⟨us, o, ho, received, others⟩ := h
  have lt := (occurs us o).weight_lt received
  have le : ∀ us' o', weight (n'.dir us' o') ≤ weight (n.dir us' o') := by
    intro us' o'
    by_cases self : us' = us ∧ o' = o
    · obtain ⟨rfl, rfl⟩ := self
      exact lt.le
    · rw [others us' o' self]
  apply List.sum_lt_sum
  · exact fun o' _ => Nat.add_le_add (le false o') (le true o')
  · refine ⟨o, ho, ?_⟩
    cases us with
    | false => exact Nat.add_lt_add_of_lt_of_le lt (le true o)
    | true => exact Nat.add_lt_add_of_le_of_lt (le false o) lt

/-- A run of deliveries is no longer than the work that is left. -/
theorem Sound.deliveries_le (h : n.Sound used) (small : used.length < 64)
    (occurs : ∀ us o, Occurs (n.dir us o)) {ends : List End} {evs : List TelnetEvent}
    (hrun : run step n (deliveries ends) = .ok (n', evs)) :
    ends.length ≤ n.work used := by
  have bound := run_length_le (fun n => n.Sound used ∧ ∀ us o, Occurs (n.dir us o))
    (fun n => n.work used) ⟨h, occurs⟩ ?_ hrun
  · rwa [deliveries, List.length_map] at bound
  rintro n ⟨e, act⟩ hx n' evs ⟨sound, occurs⟩ hstep
  obtain ⟨_, -, heq⟩ := List.mem_map.1 hx
  obtain ⟨rfl, rfl⟩ := Prod.mk.inj heq
  obtain ⟨sound', delivers⟩ := @Sound.deliver used False n sound small _ n' evs False.elim hstep
  exact ⟨⟨sound', delivers.keeps (fun _ _ => Occurs.recv) occurs⟩, delivers.work_lt occurs⟩

/-- The messages in flight about an option of the end `a`, or of the other end. -/
def inFlight (n : Net) (us : Bool) (o : Byte) : ℕ :=
  (n.dir us o).down.length + (n.dir us o).up.length

/-- The ends whose state for it is one of `WANTNO`, `WANTYES`, `WANTNO_OP` and `WANTYES_OP`. -/
def waiting (n : Net) (us : Bool) (o : Byte) : ℕ := waits (n.dir us o).him + waits (n.dir us o).us

end Net

/-- While the allocations succeed, for each option and direction the messages in flight are at most
as many as the ends that wait, and the deliveries from each configuration are bounded. -/
theorem negotiation_bounded (teloptsA teloptsB : List Telopt) {heapA heapB : List Bool}
    (okA : ∀ ok ∈ heapA, ok = true) (okB : ∀ ok ∈ heapB, ok = true) {xs : List (End × EndAct)}
    (few : (teloptsOf xs).dedup.length < 64) {n : Net} {evs : List TelnetEvent}
    (hrun : run Net.step (Net.fresh teloptsA teloptsB heapA heapB) xs = .ok (n, evs)) :
    (∀ us o, n.inFlight us o ≤ n.waiting us o ∧ n.inFlight us o ≤ 2) ∧
      ∃ bound, ∀ (ends : List End) n' evs',
        run Net.step n (deliveries ends) = .ok (n', evs') → ends.length ≤ bound := by
  obtain ⟨sound, occurs⟩ := Net.run_fresh (fun _ _ => Occurs.ask)
    (fun _ _ => @Occurs.recv False _ _) occurs_fresh okA okB few False.elim hrun
  refine ⟨fun us o => ?_, n.work (teloptsOf xs).dedup, fun ends n' evs' hrun' => ?_⟩
  · have le : n.inFlight us o ≤ n.waiting us o := (occurs us o).in_flight_le
    have him := waits_le (n.dir us o).him
    have us' := waits_le (n.dir us o).us
    unfold Net.waiting at le ⊢
    omega
  · exact sound.deliveries_le few occurs hrun'

/-- An end that agrees to have the option 1 on. -/
def sampleTelopts : List Telopt := [⟨1, 251, 254⟩]

/-- Both ends ask for the option 1 of the end `b`. -/
def sampleCrossing : List (End × EndAct) := [(.a, .negotiate 253 1), (.b, .negotiate 251 1)]

theorem negotiation_bounded_sample :
    ∃ n evs, run Net.step (Net.fresh [] sampleTelopts [] []) sampleCrossing = .ok (n, evs) ∧
      n.inFlight false 1 = 2 ∧ (∀ us o, n.inFlight us o ≤ n.waiting us o ∧ n.inFlight us o ≤ 2) ∧
      ∃ bound, ∀ (ends : List End) n' evs',
        run Net.step n (deliveries ends) = .ok (n', evs') → ends.length ≤ bound := by
  refine ⟨_, _, rfl, by decide, ?_⟩
  exact @negotiation_bounded [] sampleTelopts [] [] (by decide) (by decide) sampleCrossing
    (by decide) _ _ rfl

/-- The end `a` asks for its own option 1. -/
def sampleUnsaved : List (End × EndAct) := [(.a, .negotiate 251 1)]

/-- The table of the end `a` cannot be allocated, and still its `WILL` is in flight. -/
theorem not_negotiation_bounded_sample :
    (teloptsOf sampleUnsaved).dedup.length < 64 ∧
      ∃ n evs, run Net.step (Net.fresh [] [] [false] []) sampleUnsaved = .ok (n, evs) ∧
        ¬ n.inFlight true 1 ≤ n.waiting true 1 := by
  exact ⟨by decide, _, _, rfl, by decide⟩

/-! ### Agreement -/

/-- Both states of the option are `NO` or `YES`. -/
def Rfc1143.Settled (r : Rfc1143) : Prop :=
  (r.us = .no ∨ r.us = .yes) ∧ (r.him = .no ∨ r.him = .yes)

/-- All options are settled at both ends, and the ends agree about them. -/
def Net.Agrees (n : Net) : Prop :=
  ∀ o, (getRfc1143 n.a o).Settled ∧ (getRfc1143 n.b o).Settled ∧
    (getRfc1143 n.a o).him = (getRfc1143 n.b o).us ∧ (getRfc1143 n.a o).us = (getRfc1143 n.b o).him

/-- While the allocations succeed and no `WONT` arrives at an end in the state `WANTNO_OP`, the ends
agree in each configuration without messages in flight. -/
theorem negotiation_agrees (teloptsA teloptsB : List Telopt) {heapA heapB : List Bool}
    (okA : ∀ ok ∈ heapA, ok = true) (okB : ∀ ok ∈ heapB, ok = true) {xs : List (End × EndAct)}
    (few : (teloptsOf xs).dedup.length < 64)
    (calm : ∀ m ∈ trace Net.step (Net.fresh teloptsA teloptsB heapA heapB) xs,
      m.pre.reopens m.input = false) {n : Net} {evs : List TelnetEvent}
    (hrun : run Net.step (Net.fresh teloptsA teloptsB heapA heapB) xs = .ok (n, evs))
    (hab : n.ab = []) (hba : n.ba = []) : n.Agrees := by
  obtain ⟨-, lawful⟩ := Net.run_fresh (fun _ _ => Lawful.ask) (fun _ _ => Lawful.recv) lawful_fresh
    okA okB few (fun _ => calm) hrun
  intro o
  have theirs : ((getRfc1143 n.a o).him = .no ∨ (getRfc1143 n.a o).him = .yes) ∧
      (getRfc1143 n.a o).him = (getRfc1143 n.b o).us :=
    (lawful false o).agree (by simp [Net.dir, Net.pair, hab, msgsOf])
      (by simp [Net.dir, Net.pair, hba, msgsOf])
  have ours : ((getRfc1143 n.b o).him = .no ∨ (getRfc1143 n.b o).him = .yes) ∧
      (getRfc1143 n.b o).him = (getRfc1143 n.a o).us :=
    (lawful true o).agree (by simp [Net.dir, Net.seenFrom, Net.pair, hba, msgsOf])
      (by simp [Net.dir, Net.seenFrom, Net.pair, hab, msgsOf])
  exact ⟨⟨ours.2 ▸ ours.1, theirs.1⟩, ⟨theirs.2 ▸ theirs.1, ours.1⟩, theirs.2, ours.2.symm⟩

/-- The end `a` asks for the option 1 of the end `b`, and the answer arrives. -/
def sampleOpening : List (End × EndAct) := [(.a, .negotiate 253 1), (.b, .deliver), (.a, .deliver)]

theorem negotiation_agrees_sample :
    ∃ n evs, run Net.step (Net.fresh [] sampleTelopts [] []) sampleOpening = .ok (n, evs) ∧
      (getRfc1143 n.a 1).him = .yes ∧ n.Agrees := by
  refine ⟨_, _, rfl, by decide, ?_⟩
  exact @negotiation_agrees [] sampleTelopts [] [] (by decide) (by decide) sampleOpening
    (by decide) (by decide) _ _ rfl rfl rfl

/-- The end `a` turns the option off and on again at once, and then waits for an answer to a `DO`
that it has not sent. -/
def sampleReopening : List (End × EndAct) :=
  sampleOpening ++
    [(.a, .negotiate 254 1), (.a, .negotiate 253 1), (.b, .deliver), (.a, .deliver)]

theorem not_negotiation_agrees_sample :
    (teloptsOf sampleReopening).dedup.length < 64 ∧
      ∃ n evs, run Net.step (Net.fresh [] sampleTelopts [] []) sampleReopening = .ok (n, evs) ∧
        n.ab = [] ∧ n.ba = [] ∧ ¬ n.Agrees := by
  refine ⟨by decide, _, _, rfl, rfl, rfl, fun agrees => ?_⟩
  have settled := (agrees 1).1.2
  revert settled
  decide

end Siproxy.Telnet
