import Mathlib.Data.Finset.Card
import Mathlib.Data.List.Dedup
import Siproxy.Lib.LastWrite
import Siproxy.Lib.Machine
import Siproxy.Options
import Siproxy.TelnetInput

/-!
# The option table over a whole run

The calls of `_set_rfc1143` that a tracker makes, as a log of writes: one call at most for a byte
received or a call of `telnet_negotiate`.  Each option that has no row yet takes four rows, and
`q_size` is an `unsigned char`, so that the table is lost with the sixty-fourth of them.

`option_map_iff`: in every state of a run, `_get_rfc1143` reads the last state that was set for an
option, exactly if fewer than 64 options got rows of their own.
-/

namespace Siproxy.Telnet

open CString LastWrite Machine

/-! ### The calls of `_set_rfc1143` -/

/-- A call of `_set_rfc1143`: the option and the states for us and for him. -/
abbrev SetCall := Byte × QState × QState

/-- The call that `_negotiate` makes, if any. -/
def negotiateCall (t : Tracker) (telopt : Byte) : Option SetCall :=
  let q := getRfc1143 t telopt
  if t.proxy then none
  else
    match t.state with
    | .will =>
      match q.him with
      | .no => if checkTelopt t telopt false then some (telopt, q.us, .yes) else none
      | .yes => none
      | .wantNo => some (telopt, q.us, .no)
      | .wantNoOp | .wantYes => some (telopt, q.us, .yes)
      | .wantYesOp => some (telopt, q.us, .wantNo)
    | .wont =>
      match q.him with
      | .no => none
      | .yes | .wantNo | .wantYes | .wantYesOp => some (telopt, q.us, .no)
      | .wantNoOp => some (telopt, q.us, .wantYes)
    | .do_ =>
      match q.us with
      | .no => if checkTelopt t telopt true then some (telopt, .yes, q.him) else none
      | .yes => none
      | .wantNo => some (telopt, .no, q.him)
      | .wantNoOp | .wantYes => some (telopt, .yes, q.him)
      | .wantYesOp => some (telopt, .wantNo, q.him)
    | .dont =>
      match q.us with
      | .no => none
      | .yes | .wantNo | .wantYes | .wantYesOp => some (telopt, .no, q.him)
      | .wantNoOp => some (telopt, .wantYes, q.him)
    | _ => none

/-- The call that `telnet_negotiate` makes, if any. -/
def telnetNegotiateCall (t : Tracker) (cmd telopt : Byte) : Option SetCall :=
  let q := getRfc1143 t telopt
  if t.proxy then none
  else if cmd = 251 then
    match q.us with
    | .no | .wantYesOp => some (telopt, .wantYes, q.him)
    | .wantNo => some (telopt, .wantNoOp, q.him)
    | _ => none
  else if cmd = 252 then
    match q.us with
    | .yes | .wantNoOp => some (telopt, .wantNo, q.him)
    | .wantYes => some (telopt, .wantYesOp, q.him)
    | _ => none
  else if cmd = 253 then
    match q.him with
    | .no | .wantYesOp => some (telopt, q.us, .wantYes)
    | .wantNo => some (telopt, q.us, .wantNoOp)
    | _ => none
  else if cmd = 254 then
    match q.him with
    | .yes | .wantNoOp => some (telopt, q.us, .wantNo)
    | .wantYes => some (telopt, q.us, .wantYesOp)
    | _ => none
  else none

/-- The tracker after a call, if there is one. -/
def Tracker.set? (t : Tracker) : Option SetCall → Tracker
  | none => t
  | some (telopt, us, him) => (setRfc1143 t telopt us him).1

/-- `_negotiate` changes the tracker by its call only. -/
theorem negotiate_fst (t : Tracker) (telopt : Byte) :
    (negotiate t telopt).1 = t.set? (negotiateCall t telopt) := by
  unfold negotiate negotiateCall
  by_cases hp : t.proxy = true
  · simp only [hp, if_true]
    split <;> rfl
  · simp only [hp, Bool.false_eq_true, if_false]
    cases t.state with
    | will =>
      cases (getRfc1143 t telopt).him with
      | no =>
        dsimp only
        split_ifs <;> rfl
      | _ => rfl
    | wont => cases (getRfc1143 t telopt).him <;> rfl
    | do_ =>
      cases (getRfc1143 t telopt).us with
      | no =>
        dsimp only
        split_ifs <;> rfl
      | _ => rfl
    | dont => cases (getRfc1143 t telopt).us <;> rfl
    | _ => rfl

theorem telnetNegotiate_fst (t : Tracker) (cmd telopt : Byte) :
    (telnetNegotiate t cmd telopt).1 = t.set? (telnetNegotiateCall t cmd telopt) := by
  unfold telnetNegotiate telnetNegotiateCall
  dsimp only
  split_ifs
  · rfl
  · cases (getRfc1143 t telopt).us <;> rfl
  · cases (getRfc1143 t telopt).us <;> rfl
  · cases (getRfc1143 t telopt).him <;> rfl
  · cases (getRfc1143 t telopt).him <;> rfl
  · rfl

/-- A call is about the option, and turns something on if both sides were off. -/
structure Sets (t : Tracker) (telopt : Byte) (call : Option SetCall) : Prop where
  option : ∀ c ∈ call, c.1 = telopt
  on : (getRfc1143 t telopt).us = .no → (getRfc1143 t telopt).him = .no →
    ∀ c ∈ call, c.2 ≠ (.no, .no)

theorem negotiateCall_sets (t : Tracker) (telopt : Byte) :
    Sets t telopt (negotiateCall t telopt) := by
  constructor
  · unfold negotiateCall
    dsimp only
    repeat' split
    all_goals simp
  · intro us him
    unfold negotiateCall
    simp only [us, him]
    repeat' split
    all_goals simp

theorem telnetNegotiateCall_sets (t : Tracker) (cmd telopt : Byte) :
    Sets t telopt (telnetNegotiateCall t cmd telopt) := by
  constructor
  · unfold telnetNegotiateCall
    dsimp only
    repeat' split
    all_goals simp
  · intro us him
    unfold telnetNegotiateCall
    simp only [us, him]
    split_ifs <;> simp

/-! ### Runs -/

/-- What is done with a tracker: it is given a byte, or `telnet_negotiate` is called. -/
inductive TableOp where
  | recv (b : Byte)
  | negotiate (cmd telopt : Byte)
  deriving DecidableEq

/-- The tracker after an operation. -/
def TableOp.apply (t : Tracker) : TableOp → Tracker
  | .recv b => advance t b
  | .negotiate cmd telopt => (telnetNegotiate t cmd telopt).1

/-- The call of `_set_rfc1143` in an operation, if any. -/
def TableOp.call (t : Tracker) : TableOp → Option SetCall
  | .recv b => if t.state.IsVerb then negotiateCall t b else none
  | .negotiate cmd telopt => telnetNegotiateCall t cmd telopt

/-- One operation; the outputs of the machine are the calls. -/
def tableStep (t : Tracker) (op : TableOp) : Except Empty (Tracker × List SetCall) :=
  .ok (op.apply t, (op.call t).toList)

/-- The calls of a run, in order. -/
def callsOf (tr : List (Move Tracker TableOp SetCall)) : List SetCall := tr.flatMap (·.outs)

theorem callsOf_concat (tr : List (Move Tracker TableOp SetCall))
    (m : Move Tracker TableOp SetCall) : callsOf (tr ++ [m]) = callsOf tr ++ m.outs := by
  simp [callsOf]

theorem apply_q (t : Tracker) (op : TableOp) :
    (op.apply t).q = (t.set? (op.call t)).q ∧ (op.apply t).heap ⊆ t.heap := by
  cases op with
  | recv b =>
    by_cases verb : t.state.IsVerb
    · have fst : advance t b = { (negotiate t b).1 with state := .data } :=
        congrArg Prod.fst (byteStep_verb verb 0 0 b)
      simp only [TableOp.apply, TableOp.call, if_pos verb, fst]
      exact ⟨congrArg Tracker.q (negotiate_fst t b), negotiate_heap t b⟩
    · obtain ⟨-, -, hq, hheap⟩ := byteStep_frame verb 0 0 b
      simp only [TableOp.apply, TableOp.call, if_neg verb]
      exact ⟨hq, hheap⟩
  | negotiate cmd telopt =>
    simp only [TableOp.apply, TableOp.call, telnetNegotiate_fst]
    refine ⟨trivial, ?_⟩
    cases telnetNegotiateCall t cmd telopt with
    | none => exact List.Subset.refl _
    | some c =>
      obtain ⟨q, heap, frame, sub⟩ := setRfc1143_frame t c.1 c.2.1 c.2.2
      rw [Tracker.set?, frame]
      exact sub

/-! ### The table and the log of the calls -/

/-- What `_get_rfc1143` returns for an option, if the table is a map. -/
def recorded (calls : List SetCall) (o : Byte) : Rfc1143 :=
  match after calls o with
  | some (us, him) => ⟨o, us, him⟩
  | none => ⟨o, .no, .no⟩

/-- `_get_rfc1143` returns for each option what was set last for it. -/
def Faithful (calls : List SetCall) (t : Tracker) : Prop := ∀ o, getRfc1143 t o = recorded calls o

/-- The options that have a row: those that were set and, since the rows that fill the table up
are zero, option `0`. -/
def HasRow (calls : List SetCall) (o : Byte) : Prop :=
  o ∈ calls.map Prod.fst ∨ (o = 0 ∧ calls ≠ [])

theorem hasRow_concat {calls : List SetCall} {c : SetCall} {o : Byte} :
    HasRow (calls ++ [c]) o ↔ HasRow calls o ∨ o = c.1 ∨ o = 0 := by
  have last : o ∈ (calls ++ [c]).map Prod.fst ↔ o ∈ calls.map Prod.fst ∨ o = c.1 := by
    rw [List.map_append, List.mem_append, List.map_singleton, List.mem_singleton]
  have nonempty : calls ++ [c] ≠ [] := List.append_ne_nil_of_right_ne_nil _ (List.cons_ne_nil _ _)
  unfold HasRow
  rw [last]
  tauto

/-- Where any option has a row, option `0` has one. -/
theorem HasRow.zero {calls : List SetCall} {o : Byte} (h : HasRow calls o) : HasRow calls 0 := by
  refine .inr ⟨rfl, ?_⟩
  rintro rfl
  rcases h with hmem | ⟨-, hne⟩
  · exact List.not_mem_nil hmem
  · exact hne rfl

/-- The number of times that the table grew: once for each option other than `0` that was set, and
for option `0` only if it was the first. -/
def growths (calls : List SetCall) : ℕ :=
  ((calls.map Prod.fst).toFinset.erase 0).card + (calls.take 1).countP (·.1 == 0)

theorem growths_concat (calls : List SetCall) (c : SetCall) :
    (HasRow calls c.1 → growths (calls ++ [c]) = growths calls) ∧
      (¬ HasRow calls c.1 → growths (calls ++ [c]) = growths calls + 1) := by
  have erased : ((calls ++ [c]).map Prod.fst).toFinset =
      insert c.1 (calls.map Prod.fst).toFinset := by
    ext o
    simp
  unfold growths HasRow
  rw [erased]
  cases calls with
  | nil =>
    by_cases hz : c.1 = 0
    · simp [hz]
    · have new : (0 : Byte) ∉ ({c.1} : Finset Byte) := by simpa using Ne.symm hz
      simp [hz, Finset.erase_eq_of_notMem new]
  | cons first rest =>
    have head : (first :: rest ++ [c]).take 1 = (first :: rest).take 1 := rfl
    rw [head]
    by_cases hz : c.1 = 0
    · simp [hz]
    · rw [Finset.erase_insert_of_ne hz]
      constructor
      · rintro (hmem | ⟨hz', -⟩)
        · have : c.1 ∈ ((first :: rest).map Prod.fst).toFinset.erase 0 := by
            simpa [hz] using hmem
          rw [Finset.insert_eq_of_mem this]
        · exact absurd hz' hz
      · intro new
        have : c.1 ∉ ((first :: rest).map Prod.fst).toFinset.erase 0 := fun hmem =>
          new (.inl (List.mem_toFinset.1 (Finset.mem_of_mem_erase hmem)))
        rw [Finset.card_insert_of_notMem this]
        omega

/-- The invariant of the table, up to the size at which it is lost. -/
structure Table (calls : List SetCall) (t : Tracker) : Prop where
  heap : ∀ ok ∈ t.heap, ok = true
  rows : ∀ o, o ∈ t.q.map (·.telopt) ↔ HasRow calls o
  size : t.q.length = 4 * growths calls
  faithful : Faithful calls t

theorem table_init (telopts : List Telopt) (proxy : Bool) {heap : List Bool}
    (allocs : ∀ ok ∈ heap, ok = true) : Table [] (telnetInit telopts proxy heap) where
  heap := allocs
  rows o := by simp [telnetInit, HasRow]
  size := rfl
  faithful _ := rfl

theorem getRfc1143_of_notMem {t : Tracker} {o : Byte} (h : o ∉ t.q.map (·.telopt)) :
    getRfc1143 t o = ⟨o, .no, .no⟩ := by
  have none : t.q.find? (·.telopt = o) = none := by
    rw [List.find?_eq_none]
    intro r hr
    have : r.telopt ≠ o := fun heq => h (List.mem_map.2 ⟨r, hr, heq⟩)
    simpa using this
  rw [getRfc1143, none]
  rfl

/-- A call that raises something for an option that is off is not a call that turns it off. -/
theorem call_on {t : Tracker} {op : TableOp} {c : SetCall} (hc : c ∈ op.call t)
    (off : getRfc1143 t c.1 = ⟨c.1, .no, .no⟩) : c.2 ≠ (.no, .no) := by
  have of_sets {telopt : Byte} {call : Option SetCall} (h : Sets t telopt call) (hc : c ∈ call) :
      c.2 ≠ (.no, .no) := by
    have hopt := h.option c hc
    rw [← hopt] at h
    exact h.on (by rw [off]) (by rw [off]) c hc
  cases op with
  | recv b =>
    simp only [TableOp.call] at hc
    split_ifs at hc
    · exact of_sets (negotiateCall_sets t b) hc
    · cases hc
  | negotiate cmd telopt => exact of_sets (telnetNegotiateCall_sets t cmd telopt) hc

namespace Table

variable {calls : List SetCall} {t : Tracker}

theorem congr (h : Table calls t) {t' : Tracker} (hq : t'.q = t.q)
    (hheap : ∀ ok ∈ t'.heap, ok = true) : Table calls t' where
  heap := hheap
  rows := hq ▸ h.rows
  size := hq ▸ h.size
  faithful o := by
    rw [getRfc1143, hq]
    exact h.faithful o

theorem room (h : Table calls t) {c : SetCall} (small : growths (calls ++ [c]) < 64) :
    c.1 ∉ t.q.map (·.telopt) → t.q.length + 4 < 256 := by
  intro new
  have grows := (growths_concat calls c).2 (fun row => new ((h.rows _).2 row))
  rw [h.size]
  omega

theorem set (h : Table calls t) {c : SetCall} (small : growths (calls ++ [c]) < 64) :
    Table (calls ++ [c]) (setRfc1143 t c.1 c.2.1 c.2.2).1 := by
  obtain ⟨o, us, him⟩ := c
  have ok : t.allocOk = true := allocOk_of_heap h.heap
  have get := getRfc1143_setRfc1143 ok (h.room small) us him
  obtain ⟨same, more⟩ := growths_concat calls (o, us, him)
  refine ⟨?_, ?_, ?_, ?_⟩
  · obtain ⟨q, heap, frame, sub⟩ := setRfc1143_frame t o us him
    rw [frame]
    exact fun a ha => h.heap a (sub ha)
  · -- the rows that are added are for the option and for option `0`
    intro o'
    have rows := h.rows o'
    obtain ⟨-, ⟨hmem, hset⟩ | ⟨-, hset⟩⟩ := setRfc1143_eq ok (h.room small) us him
    · have held := (h.rows o).1 hmem
      rw [hset, telopts_replaceFirst, rows, hasRow_concat]
      constructor
      · exact .inl
      · rintro (row | rfl | rfl)
        · exact row
        · exact held
        · exact held.zero
    · rw [hset, hasRow_concat, ← rows]
      simp
  · obtain ⟨-, ⟨hmem, hset⟩ | ⟨hmem, hset⟩⟩ := setRfc1143_eq ok (h.room small) us him
    · rw [hset, length_replaceFirst, same ((h.rows o).1 hmem), h.size]
    · rw [hset, more (fun row => hmem ((h.rows o).2 row))]
      simp only [List.length_append, List.length_cons, List.length_replicate, h.size]
      omega
  · intro o'
    rw [get, recorded, after_concat, put]
    by_cases ho : o' = o
    · subst ho
      simp
    · rw [if_neg ho, Function.update_of_ne ho, h.faithful o', recorded]

/-- The table is lost with the row that makes `q_size` overflow. -/
theorem lost (h : Table calls t) {c : SetCall} (small : growths calls < 64)
    (large : 64 ≤ growths (calls ++ [c])) :
    ¬ HasRow calls c.1 ∧ (setRfc1143 t c.1 c.2.1 c.2.2).1.q = [] := by
  obtain ⟨same, more⟩ := growths_concat calls c
  have new : ¬ HasRow calls c.1 := fun row => by
    rw [same row] at large
    omega
  have hnew : ¬ t.q.any (·.telopt = c.1) = true := fun hany =>
    new ((h.rows _).1 (any_telopt_iff.1 hany))
  have full : t.q.length = 252 := by
    rw [more new] at large
    rw [h.size]
    omega
  refine ⟨new, ?_⟩
  rw [setRfc1143, if_neg hnew, if_pos (allocOk_of_heap h.heap)]
  simp [full]

theorem apply (h : Table calls t) {op : TableOp}
    (small : growths (calls ++ (op.call t).toList) < 64) :
    Table (calls ++ (op.call t).toList) (op.apply t) := by
  obtain ⟨hq, hheap⟩ := apply_q t op
  have allocs : ∀ ok ∈ (op.apply t).heap, ok = true := fun ok hok => h.heap ok (hheap hok)
  cases hcall : op.call t with
  | none =>
    rw [hcall] at hq
    simpa using h.congr hq allocs
  | some c =>
    rw [hcall] at hq small
    exact (h.set small).congr hq allocs

/-- Behind the operation with which the table is lost, the option of its call reads as it would
if nothing had been set for it. -/
theorem misread (h : Table calls t) {op : TableOp} (small : growths calls < 64)
    (large : 64 ≤ growths (calls ++ (op.call t).toList)) :
    ¬ Faithful (calls ++ (op.call t).toList) (op.apply t) := by
  intro faithful
  cases hcall : op.call t with
  | none =>
    rw [hcall] at large
    simp at large
    omega
  | some c =>
    rw [hcall] at large faithful
    obtain ⟨new, hlost⟩ := h.lost small large
    have hq : (op.apply t).q = [] := by
      rw [(apply_q t op).1, hcall]
      exact hlost
    have off : getRfc1143 t c.1 = ⟨c.1, .no, .no⟩ :=
      getRfc1143_of_notMem (fun hmem => new ((h.rows _).1 hmem))
    have on := call_on hcall off
    have read := faithful c.1
    rw [getRfc1143, hq] at read
    simp only [Option.toList_some, recorded, after_concat, put, Function.update_self,
      List.find?_nil, Option.getD_none, Rfc1143.mk.injEq, true_and] at read
    exact on (Prod.ext read.1.symm read.2.symm)

end Table

/-! ### Up to the growth that loses the table -/

theorem growths_le_concat (calls more : List SetCall) :
    growths calls ≤ growths (calls ++ more) := by
  induction more using List.reverseRecOn with
  | nil => simp
  | append_singleton more c ih =>
    obtain ⟨same, grows⟩ := growths_concat (calls ++ more) c
    rw [← List.append_assoc]
    by_cases row : HasRow (calls ++ more) c.1
    · rw [same row]
      exact ih
    · rw [grows row]
      omega

/-- The table of a run, at every point up to the one at which it is lost. -/
theorem trace_table {t : Tracker} (h : Table [] t) {ops : List TableOp}
    {p q : List (Move Tracker TableOp SetCall)} (split : trace tableStep t ops = p ++ q)
    (small : growths (callsOf p) < 64) : Table (callsOf p) (final t p) := by
  refine trace_history (fun p t => growths (callsOf p) < 64 → Table (callsOf p) t)
    (fun _ => h) ?_ split small
  intro p m _ ih hstep small
  obtain ⟨hpost, houts⟩ := Prod.mk.inj (Except.ok.inj hstep)
  rw [callsOf_concat, ← houts] at small ⊢
  rw [← hpost]
  exact (ih ((growths_le_concat _ _).trans_lt small)).apply small

/-- What is set for one option does not change what is read for another. -/
def KeepsOthers (m : Move Tracker TableOp SetCall) : Prop :=
  ∀ o, o ∉ m.outs.map Prod.fst → getRfc1143 m.post o = getRfc1143 m.pre o

theorem recorded_append {calls more : List SetCall} {o : Byte} (h : o ∉ more.map Prod.fst) :
    recorded (calls ++ more) o = recorded calls o := by
  induction more using List.reverseRecOn with
  | nil => simp
  | append_singleton more c ih =>
    simp only [List.map_append, List.map_singleton, List.mem_append, List.mem_singleton,
      not_or] at h
    rw [← List.append_assoc, recorded, after_concat, put, Function.update_of_ne h.2]
    exact ih h.1

/-- In every state of a run `_get_rfc1143` reads for each option what was set last for it, and
setting an option changes nothing for the others, exactly if the table grew fewer than 64 times. -/
theorem option_map_iff (telopts : List Telopt) (proxy : Bool) (heap : List Bool)
    (allocs : ∀ ok ∈ heap, ok = true) (ops : List TableOp) :
    ((∀ p q, trace tableStep (telnetInit telopts proxy heap) ops = p ++ q →
        Faithful (callsOf p) (final (telnetInit telopts proxy heap) p)) ∧
      ∀ m ∈ trace tableStep (telnetInit telopts proxy heap) ops, KeepsOthers m) ↔
    growths (callsOf (trace tableStep (telnetInit telopts proxy heap) ops)) < 64 := by
  have start := table_init telopts proxy allocs
  constructor
  · rintro ⟨faithful, -⟩
    by_contra large
    obtain ⟨p, m, q, split, small, large⟩ := exists_first
      (fun p => ¬ growths (callsOf p) < 64) (by decide) large
    rw [not_not] at small
    -- the call of this operation is the one with which the table is lost
    obtain ⟨hpre, hstep⟩ := trace_split split
    obtain ⟨hpost, houts⟩ := Prod.mk.inj (Except.ok.inj hstep)
    have table := trace_table start split small
    rw [← hpre] at table
    rw [callsOf_concat, ← houts, not_lt] at large
    have read := faithful (p ++ [m]) q (by rw [split]; simp)
    rw [final_concat, callsOf_concat, ← houts, ← hpost] at read
    exact table.misread small large read
  · intro small
    have upto {p q : List (Move Tracker TableOp SetCall)}
        (split : trace tableStep (telnetInit telopts proxy heap) ops = p ++ q) :
        Table (callsOf p) (final (telnetInit telopts proxy heap) p) := by
      refine trace_table start split (lt_of_le_of_lt ?_ small)
      rw [split, callsOf, callsOf, List.flatMap_append]
      exact growths_le_concat _ _
    refine ⟨fun p q split => (upto split).faithful, ?_⟩
    intro m hm o ho
    obtain ⟨p, q, split⟩ := List.append_of_mem hm
    have before := (upto split).faithful o
    have behind := (@upto (p ++ [m]) q (by rw [split]; simp)).faithful o
    rw [final_concat, callsOf_concat, recorded_append ho] at behind
    rw [(trace_split split).1, before, behind]

/-- `telnet_negotiate` asks the peer for the options from `1` to `n`. -/
def sampleAsks (n : ℕ) : List TableOp :=
  (List.range n).map fun i => .negotiate 253 (UInt8.ofNat (i + 1))

theorem option_map_sample :
    growths (callsOf (trace tableStep (telnetInit [] false []) (sampleAsks 2))) < 64 ∧
      Faithful (callsOf (trace tableStep (telnetInit [] false []) (sampleAsks 2)))
        (final (telnetInit [] false [])
          (trace tableStep (telnetInit [] false []) (sampleAsks 2))) := by
  have small :
      growths (callsOf (trace tableStep (telnetInit [] false []) (sampleAsks 2))) < 64 := by
    decide
  exact ⟨small, ((option_map_iff [] false [] (by simp) (sampleAsks 2)).2 small).1 _ []
    (List.append_nil _).symm⟩

/-- After 64 options the states of all of them are lost. -/
theorem not_option_map_sample :
    ¬ Faithful (callsOf (trace tableStep (telnetInit [] false []) (sampleAsks 64)))
      (final (telnetInit [] false [])
        (trace tableStep (telnetInit [] false []) (sampleAsks 64))) := by
  intro faithful
  have asked := faithful 1
  revert asked
  decide +kernel

end Siproxy.Telnet
