import Mathlib.Data.Fintype.Basic
import Siproxy.Telnet

/-!
# The Q method

RFC 1143 for one option in one direction: one end keeps a state for the option of the other one
(`him`) and sends `DO` and `DONT`, and the other end keeps a state for its own option (`us`) and
sends `WILL` and `WONT`.  The messages in flight are two queues of Booleans, with `true` for `DO`
and `WILL`.

The method is used as `telnet.c` has it: an end that has asked for `WONT` or `DONT` and then changed
its mind asks again when the answer arrives, if it is the end that sends `WILL` and `WONT`
(`receive true`); the other end only believes that it has asked again (`receive false`).

* `Occurs` holds in all runs: the messages in flight are at most as many as the ends that wait.
* `Lawful` holds in the runs in which this difference plays no role: with no message in flight, the
  ends agree.
* Every message that is received lowers the `weight`.
-/

namespace Siproxy.QMethod

open Telnet

instance : Fintype QState where
  elems := {.no, .yes, .wantNo, .wantYes, .wantNoOp, .wantYesOp}
  complete s := by cases s <;> decide

/-! ### One end -/

/-- An application asks for an option to be on or off. -/
def request : Bool → QState → QState × List Bool
  | true, .no => (.wantYes, [true])
  | true, .wantNo => (.wantNoOp, [])
  | true, .wantYesOp => (.wantYes, [])
  | false, .yes => (.wantNo, [false])
  | false, .wantYes => (.wantYesOp, [])
  | false, .wantNoOp => (.wantNo, [])
  | _, q => (q, [])

/-- A message arrives at an end that supports the option or not; the flag tells whether the end asks
again when it has changed its mind. -/
def receive (again support : Bool) : Bool → QState → QState × List Bool
  | true, .no => if support then (.yes, [true]) else (.no, [false])
  | true, .yes => (.yes, [])
  | true, .wantNo => (.no, [])
  | true, .wantNoOp => (.yes, [])
  | true, .wantYes => (.yes, [])
  | true, .wantYesOp => (.wantNo, [false])
  | false, .no => (.no, [])
  | false, .yes => (.no, [false])
  | false, .wantNo => (.no, [])
  | false, .wantNoOp => (.wantYes, if again then [true] else [])
  | false, .wantYes => (.no, [])
  | false, .wantYesOp => (.no, [])

/-! ### Both ends -/

/-- The two ends and the messages in flight. -/
@[ext]
structure Pair where
  him : QState
  us : QState
  /-- `DO` and `DONT`. -/
  down : List Bool
  /-- `WILL` and `WONT`. -/
  up : List Bool
  deriving DecidableEq

namespace Pair

/-- No option is on, and nothing is in flight. -/
def fresh : Pair := ⟨.no, .no, [], []⟩

/-- `telnet_negotiate` with `DO` or `DONT`. -/
def askHim (p : Pair) (on : Bool) : Pair :=
  { p with him := (request on p.him).1, down := p.down ++ (request on p.him).2 }

/-- `telnet_negotiate` with `WILL` or `WONT`. -/
def askUs (p : Pair) (on : Bool) : Pair :=
  { p with us := (request on p.us).1, up := p.up ++ (request on p.us).2 }

/-- The first `DO` or `DONT` arrives. -/
def recvDown (p : Pair) (support on : Bool) : Pair :=
  { p with
    us := (receive true support on p.us).1
    down := p.down.tail
    up := p.up ++ (receive true support on p.us).2 }

/-- The first `WILL` or `WONT` arrives. -/
def recvUp (p : Pair) (support on : Bool) : Pair :=
  { p with
    him := (receive false support on p.him).1
    up := p.up.tail
    down := p.down ++ (receive false support on p.him).2 }

/-- An end asks. -/
inductive Ask : Pair → Pair → Prop
  | him (p : Pair) (on : Bool) : Ask p (p.askHim on)
  | us (p : Pair) (on : Bool) : Ask p (p.askUs on)

/-- A message arrives; if `strict`, it is not a `WONT` to an end that wants to change its mind. -/
inductive Recv (strict : Prop) : Pair → Pair → Prop
  | down {p : Pair} {on : Bool} (h : p.down.head? = some on) (support : Bool) :
      Recv strict p (p.recvDown support on)
  | up {p : Pair} {on : Bool} (h : p.up.head? = some on) (support : Bool)
      (calm : strict → ¬ (on = false ∧ p.him = .wantNoOp)) : Recv strict p (p.recvUp support on)

end Pair

/-! ### The states that occur -/

/-- A state, without a change of mind. -/
inductive Phase where
  | no
  | yes
  | leaving
  | entering
  deriving DecidableEq

/-- The phase of a state. -/
def phase : QState → Phase
  | .no => .no
  | .yes => .yes
  | .wantNo | .wantNoOp => .leaving
  | .wantYes | .wantYesOp => .entering

/-- The phases of `him` and `us` that occur with these messages in flight. -/
def occurring : List Bool → List Bool → List (Phase × Phase)
  | [], [] => [(.no, .no), (.no, .leaving), (.no, .entering), (.entering, .no), (.entering, .yes),
      (.yes, .entering), (.yes, .yes), (.leaving, .no)]
  | [], [true] => [(.no, .entering), (.entering, .entering), (.entering, .yes),
      (.leaving, .entering)]
  | [], [true, false] => [(.entering, .leaving)]
  | [], [false] => [(.leaving, .no), (.yes, .leaving), (.entering, .no), (.entering, .leaving)]
  | [], [false, true] => [(.entering, .entering), (.leaving, .entering)]
  | [true], [] => [(.entering, .no), (.entering, .leaving), (.entering, .entering),
      (.yes, .entering)]
  | [true], [true] => [(.entering, .entering)]
  | [true, false], [] => [(.leaving, .entering)]
  | [false], [] => [(.leaving, .entering), (.leaving, .yes), (.no, .leaving), (.no, .entering),
      (.entering, .leaving)]
  | [false], [false] => [(.leaving, .leaving)]
  | [false, true], [] => [(.entering, .leaving), (.entering, .entering)]
  | _, _ => []

/-- The messages that can be in flight. -/
def flights : List (List Bool × List Bool) :=
  [([], []), ([], [true]), ([], [true, false]), ([], [false]), ([], [false, true]), ([true], []),
    ([true], [true]), ([true, false], []), ([false], []), ([false], [false]), ([false, true], [])]

/-- A pair that occurs in some run. -/
def Occurs (p : Pair) : Prop := (phase p.him, phase p.us) ∈ occurring p.down p.up

instance : DecidablePred Occurs := fun p =>
  inferInstanceAs (Decidable ((phase p.him, phase p.us) ∈ occurring p.down p.up))

theorem Occurs.flight {p : Pair} (h : Occurs p) : (p.down, p.up) ∈ flights := by
  unfold Occurs occurring at h
  split at h <;> simp_all [flights]

/-- An end waits for an answer. -/
def waits (q : QState) : ℕ :=
  match phase q with
  | .leaving | .entering => 1
  | _ => 0

theorem waits_le (q : QState) : waits q ≤ 1 := by
  cases q <;> decide

/-- The messages in flight are at most as many as the ends that wait. -/
theorem Occurs.in_flight_le {p : Pair} (h : Occurs p) :
    p.down.length + p.up.length ≤ waits p.him + waits p.us := by
  have checked : ∀ s ∈ flights, ∀ him us, Occurs ⟨him, us, s.1, s.2⟩ →
      s.1.length + s.2.length ≤ waits him + waits us := by decide +kernel
  exact checked _ h.flight _ _ h

theorem occurs_fresh : Occurs .fresh := by decide

theorem Occurs.ask {p p' : Pair} (h : Occurs p) (ask : p.Ask p') : Occurs p' := by
  have him : ∀ s ∈ flights, ∀ him us, Occurs ⟨him, us, s.1, s.2⟩ → ∀ on,
      Occurs (Pair.askHim ⟨him, us, s.1, s.2⟩ on) := by decide +kernel
  have us : ∀ s ∈ flights, ∀ him us, Occurs ⟨him, us, s.1, s.2⟩ → ∀ on,
      Occurs (Pair.askUs ⟨him, us, s.1, s.2⟩ on) := by decide +kernel
  cases ask with
  | him on => exact him _ h.flight _ _ h on
  | us on => exact us _ h.flight _ _ h on

theorem Occurs.recv {strict : Prop} {p p' : Pair} (h : Occurs p) (recv : p.Recv strict p') :
    Occurs p' := by
  have down : ∀ s ∈ flights, ∀ him us, Occurs ⟨him, us, s.1, s.2⟩ → ∀ on ∈ s.1.head?,
      ∀ support, Occurs (Pair.recvDown ⟨him, us, s.1, s.2⟩ support on) := by decide +kernel
  have up : ∀ s ∈ flights, ∀ him us, Occurs ⟨him, us, s.1, s.2⟩ → ∀ on ∈ s.2.head?,
      ∀ support, Occurs (Pair.recvUp ⟨him, us, s.1, s.2⟩ support on) := by decide +kernel
  cases recv with
  | down hhead support => exact down _ h.flight _ _ h _ hhead support
  | up hhead support => exact up _ h.flight _ _ h _ hhead support

/-! ### Termination -/

/-- An end that has changed its mind. -/
def changes (q : QState) : ℕ :=
  match q with
  | .wantNoOp | .wantYesOp => 1
  | _ => 0

/-- What is left to do for an end with these messages in flight to it: each message may cause one
more, unless it is the answer that the end waits for. -/
def todo (q : QState) (msgs : List Bool) : ℕ :=
  4 * changes q + (2 * msgs.length - if msgs = [] then 0 else waits q)

/-- What is left to do. -/
def weight (p : Pair) : ℕ := todo p.him p.up + todo p.us p.down

theorem Occurs.weight_lt {strict : Prop} {p p' : Pair} (h : Occurs p) (recv : p.Recv strict p') :
    weight p' < weight p := by
  have down : ∀ s ∈ flights, ∀ him us, Occurs ⟨him, us, s.1, s.2⟩ → ∀ on ∈ s.1.head?, ∀ support,
      weight (Pair.recvDown ⟨him, us, s.1, s.2⟩ support on) < weight ⟨him, us, s.1, s.2⟩ := by
    decide +kernel
  have up : ∀ s ∈ flights, ∀ him us, Occurs ⟨him, us, s.1, s.2⟩ → ∀ on ∈ s.2.head?, ∀ support,
      weight (Pair.recvUp ⟨him, us, s.1, s.2⟩ support on) < weight ⟨him, us, s.1, s.2⟩ := by
    decide +kernel
  cases recv with
  | down hhead support => exact down _ h.flight _ _ h _ hhead support
  | up hhead support => exact up _ h.flight _ _ h _ hhead support

/-! ### Agreement -/

/-- The phases that occur when no `WONT` meets an end that has changed its mind: the messages in
flight are as many as the ends that wait. -/
def lawfulPhases : List Bool → List Bool → List (Phase × Phase)
  | [], [] => [(.no, .no), (.yes, .yes)]
  | [], [true] => [(.no, .entering), (.entering, .yes)]
  | [], [true, false] => [(.entering, .leaving)]
  | [], [false] => [(.leaving, .no), (.yes, .leaving), (.entering, .no)]
  | [], [false, true] => [(.entering, .entering), (.leaving, .entering)]
  | [true], [] => [(.yes, .entering), (.entering, .no)]
  | [true], [true] => [(.entering, .entering)]
  | [true, false], [] => [(.leaving, .entering)]
  | [false], [] => [(.no, .leaving), (.no, .entering), (.leaving, .yes)]
  | [false], [false] => [(.leaving, .leaving)]
  | [false, true], [] => [(.entering, .leaving), (.entering, .entering)]
  | _, _ => []

/-- A pair that occurs in such a run. -/
def Lawful (p : Pair) : Prop := (phase p.him, phase p.us) ∈ lawfulPhases p.down p.up

instance : DecidablePred Lawful := fun p =>
  inferInstanceAs (Decidable ((phase p.him, phase p.us) ∈ lawfulPhases p.down p.up))

theorem Lawful.flight {p : Pair} (h : Lawful p) : (p.down, p.up) ∈ flights := by
  unfold Lawful lawfulPhases at h
  split at h <;> simp_all [flights]

theorem lawful_fresh : Lawful .fresh := by decide

theorem Lawful.ask {p p' : Pair} (h : Lawful p) (ask : p.Ask p') : Lawful p' := by
  have him : ∀ s ∈ flights, ∀ him us, Lawful ⟨him, us, s.1, s.2⟩ → ∀ on,
      Lawful (Pair.askHim ⟨him, us, s.1, s.2⟩ on) := by decide +kernel
  have us : ∀ s ∈ flights, ∀ him us, Lawful ⟨him, us, s.1, s.2⟩ → ∀ on,
      Lawful (Pair.askUs ⟨him, us, s.1, s.2⟩ on) := by decide +kernel
  cases ask with
  | him on => exact him _ h.flight _ _ h on
  | us on => exact us _ h.flight _ _ h on

theorem Lawful.recv {p p' : Pair} (h : Lawful p) (recv : p.Recv True p') : Lawful p' := by
  have down : ∀ s ∈ flights, ∀ him us, Lawful ⟨him, us, s.1, s.2⟩ → ∀ on ∈ s.1.head?,
      ∀ support, Lawful (Pair.recvDown ⟨him, us, s.1, s.2⟩ support on) := by decide +kernel
  have up : ∀ s ∈ flights, ∀ him us, Lawful ⟨him, us, s.1, s.2⟩ → ∀ on ∈ s.2.head?,
      ¬ (on = false ∧ him = .wantNoOp) →
      ∀ support, Lawful (Pair.recvUp ⟨him, us, s.1, s.2⟩ support on) := by decide +kernel
  cases recv with
  | down hhead support => exact down _ h.flight _ _ h _ hhead support
  | up hhead support calm => exact up _ h.flight _ _ h _ hhead (calm trivial) support

/-- With no message in flight, the ends are settled and agree. -/
theorem Lawful.agree {p : Pair} (h : Lawful p) (down : p.down = []) (up : p.up = []) :
    (p.him = .no ∨ p.him = .yes) ∧ p.him = p.us := by
  have checked : ∀ him us, Lawful ⟨him, us, [], []⟩ →
      (him = .no ∨ him = .yes) ∧ him = us := by decide +kernel
  obtain ⟨him, us, _, _⟩ := p
  subst down up
  exact checked him us h

end Siproxy.QMethod
