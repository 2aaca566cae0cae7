import Mathlib.Data.List.Perm.Subperm
import Siproxy.SipInput
import Siproxy.TelnetSend

/-!
# The option table

The table of `telnet.c` holds the state of the options in rows that are searched from the front and
grows by four rows at a time.  As long as it has fewer than 256 rows, it is a map from options to
states (`getRfc1143_setRfc1143`), and it has four rows for each option that was set (`Grown`).

`options_settled`: the tracker of `siproxy`, which never asks for an option, settles every option at
once, holds at most sixteen rows, and `do_echo` follows the state of the option `ECHO`.
-/

namespace Siproxy.Telnet

open CString

/-! ### The table as a map -/

theorem find?_replaceFirst (r : Rfc1143) (rs : List Rfc1143) (o : Byte) :
    (replaceFirst r rs).find? (·.telopt = o) =
      if o = r.telopt then (if rs.any (·.telopt = o) then some r else none)
      else rs.find? (·.telopt = o) := by
  induction rs with
  | nil => simp [replaceFirst]
  | cons r' rs ih =>
    by_cases hr : r'.telopt = r.telopt
    · by_cases ho : o = r.telopt
      · simp [replaceFirst, hr, ho]
      · simp [replaceFirst, hr, ho, Ne.symm ho]
    · by_cases ho : o = r.telopt
      · subst ho
        simp [replaceFirst, hr, ih]
      · by_cases ho' : r'.telopt = o
        · simp [replaceFirst, ho, ho']
        · simp [replaceFirst, hr, ho, ho', ih]

theorem length_replaceFirst (r : Rfc1143) (rs : List Rfc1143) :
    (replaceFirst r rs).length = rs.length := by
  induction rs with
  | nil => rfl
  | cons r' rs ih =>
    unfold replaceFirst
    split_ifs <;> simp [ih]

theorem any_telopt_iff {rs : List Rfc1143} {o : Byte} :
    (rs.any (·.telopt = o)) = true ↔ o ∈ rs.map (·.telopt) := by
  simp [List.any_eq_true]

theorem telopts_replaceFirst (r : Rfc1143) (rs : List Rfc1143) :
    (replaceFirst r rs).map (·.telopt) = rs.map (·.telopt) := by
  induction rs with
  | nil => rfl
  | cons r' rs ih =>
    unfold replaceFirst
    split_ifs with h
    · simp [h]
    · simp [ih]

theorem setRfc1143_eq {t : Tracker} (ok : t.allocOk = true) {o : Byte}
    (room : o ∉ t.q.map (·.telopt) → t.q.length + 4 < 256) (us him : QState) :
    (setRfc1143 t o us him).2 = [] ∧
      ((o ∈ t.q.map (·.telopt) ∧
          (setRfc1143 t o us him).1 = { t with q := replaceFirst ⟨o, us, him⟩ t.q }) ∨
        (o ∉ t.q.map (·.telopt) ∧ (setRfc1143 t o us him).1 =
          { t with
            q := t.q ++ ⟨o, us, him⟩ :: List.replicate 3 ⟨0, .no, .no⟩
            heap := t.heap.tail })) := by
  unfold setRfc1143
  by_cases h : t.q.any (·.telopt = o) = true
  · rw [if_pos h]
    exact ⟨rfl, .inl ⟨any_telopt_iff.1 h, rfl⟩⟩
  · have len : (t.q ++ Rfc1143.mk o us him :: List.replicate 3 (Rfc1143.mk 0 .no .no)).length =
        t.q.length + 4 := by simp
    have new : o ∉ t.q.map (·.telopt) := fun hmem => h (any_telopt_iff.2 hmem)
    rw [if_neg h, if_pos ok]
    refine ⟨rfl, .inr ⟨new, ?_⟩⟩
    simp only [Tracker.alloc]
    rw [len, Nat.mod_eq_of_lt (room new), List.take_of_length_le len.le]

theorem getRfc1143_setRfc1143 {t : Tracker} (ok : t.allocOk = true) {o : Byte}
    (room : o ∉ t.q.map (·.telopt) → t.q.length + 4 < 256) (us him : QState) (o' : Byte) :
    getRfc1143 (setRfc1143 t o us him).1 o' =
      if o' = o then ⟨o, us, him⟩ else getRfc1143 t o' := by
  unfold getRfc1143
  obtain ⟨-, ⟨hmem, h⟩ | ⟨hmem, h⟩⟩ := setRfc1143_eq ok room us him
  · rw [h]
    simp only [find?_replaceFirst]
    split_ifs with ho hany
    · rfl
    · subst ho
      exact absurd (any_telopt_iff.2 hmem) hany
    · rfl
  · rw [h]
    simp only [List.find?_append]
    by_cases ho : o' = o
    · -- the option is found in the new row
      subst ho
      have none : t.q.find? (·.telopt = o') = none := by
        rw [List.find?_eq_none]
        intro r hr
        have : r.telopt ≠ o' := fun heq => hmem (List.mem_map.2 ⟨r, hr, heq⟩)
        simpa using this
      simp [none]
    · -- the rows that fill the table up have the state of an option that is not there
      rw [if_neg ho]
      cases t.q.find? (·.telopt = o') with
      | some r => rfl
      | none =>
        by_cases hz : o' = 0
        · subst hz
          simp [Ne.symm ho, List.replicate_succ]
        · simp [Ne.symm ho, Ne.symm hz, List.replicate_succ]

/-! ### The size of the table -/

/-- The table has four rows for each of the options, which all have a row. -/
structure Grown (q : List Rfc1143) (opts : List Byte) : Prop where
  nodup : opts.Nodup
  held : opts ⊆ q.map (·.telopt)
  size : q.length = 4 * opts.length

theorem grown_nil : Grown [] [] := ⟨List.nodup_nil, List.nil_subset _, rfl⟩

theorem Grown.setRfc1143 {t : Tracker} {opts used : List Byte} (h : Grown t.q opts)
    (sub : opts ⊆ used) (ok : t.allocOk = true) {o : Byte} (ho : o ∈ used)
    (room : o ∉ t.q.map (·.telopt) → t.q.length + 4 < 256) (us him : QState) :
    ∃ opts', Grown (setRfc1143 t o us him).1.q opts' ∧ opts' ⊆ used := by
  obtain ⟨-, ⟨hmem, hset⟩ | ⟨hmem, hset⟩⟩ := setRfc1143_eq ok room us him
  · refine ⟨opts, ?_, sub⟩
    rw [hset]
    refine ⟨h.nodup, ?_, ?_⟩
    · simp only [telopts_replaceFirst]
      exact h.held
    · simp only [length_replaceFirst]
      exact h.size
  · refine ⟨o :: opts, ?_, List.cons_subset.2 ⟨ho, sub⟩⟩
    rw [hset]
    refine ⟨List.nodup_cons.2 ⟨fun ho => hmem (h.held ho), h.nodup⟩, ?_, ?_⟩
    · rw [List.cons_subset]
      refine ⟨by simp, fun o' ho' => ?_⟩
      rw [List.map_append]
      exact List.mem_append_left _ (h.held ho')
    · simp only [List.length_append, List.length_cons, List.length_replicate, h.size]
      omega

/-- The rows are bounded by the number of options that can be set. -/
theorem Grown.length_le {q : List Rfc1143} {opts used : List Byte} (h : Grown q opts)
    (sub : opts ⊆ used) : q.length ≤ 4 * used.length := by
  have := (h.nodup.subperm sub).length_le
  rw [h.size]
  omega

theorem getRfc1143_telopt (t : Tracker) (o : Byte) : (getRfc1143 t o).telopt = o := by
  unfold getRfc1143
  cases h : t.q.find? (·.telopt = o) with
  | none => rfl
  | some r => simpa using List.find?_some h

end Siproxy.Telnet

namespace Siproxy

open CString Machine Telnet

/-! ### The options of `siproxy` -/

/-- The options of `telopts`, for the peer and for us. -/
def himOptions : List Byte := [1, 86, 70]

def usOptions : List Byte := [24]

/-- The states of an option are settled, and only the options of `telopts` are on. -/
def SettledRow (r : Rfc1143) : Prop :=
  (r.us = .no ∨ (r.us = .yes ∧ r.telopt ∈ usOptions)) ∧
    (r.him = .no ∨ (r.him = .yes ∧ r.telopt ∈ himOptions))

/-- `do_echo` after an event. -/
def echoAfter (echo : Bool) : TelnetEvent → Bool
  | .will o => if o = 1 then false else echo
  | .wont o => if o = 1 then true else echo
  | _ => echo

/-- The invariant of the tracker, with `do_echo`. -/
structure Sane (t : Tracker) (echo : Bool) : Prop where
  telopts : t.telopts = telopts
  proxy : t.proxy = false
  heap : t.heap = []
  rows : ∀ o, SettledRow (getRfc1143 t o)
  grown : ∃ opts, Grown t.q opts ∧ opts ⊆ usOptions ++ himOptions
  echo : echo = false ↔ (getRfc1143 t 1).him = .yes

theorem sane_init : Sane (telnetInit Siproxy.telopts false []) true where
  telopts := rfl
  proxy := rfl
  heap := rfl
  rows _ := ⟨.inl rfl, .inl rfl⟩
  grown := ⟨[], grown_nil, List.nil_subset _⟩
  echo := by decide

/-- An option that is supported has a row in `telopts` that says so. -/
theorem checkTelopt_row {t : Tracker} {o : Byte} {us : Bool} (ok : checkTelopt t o us = true) :
    ∃ row ∈ t.telopts, row.telopt = o ∧ (if us then row.us = 251 else row.him = 253) := by
  unfold checkTelopt at ok
  cases h : t.telopts.find? (·.telopt = o) with
  | none => simp [h] at ok
  | some row =>
    refine ⟨row, List.mem_of_find?_eq_some h, by simpa using List.find?_some h, ?_⟩
    rw [h] at ok
    cases us <;> simpa using ok

theorem checkTelopt_him {t : Tracker} (h : t.telopts = telopts) {o : Byte}
    (ok : checkTelopt t o false = true) : o ∈ himOptions := by
  have rows : ∀ row ∈ telopts, row.him = 253 → row.telopt ∈ himOptions := by decide
  obtain ⟨row, hmem, rfl, him⟩ := checkTelopt_row ok
  exact rows row (h ▸ hmem) (by simpa using him)

theorem checkTelopt_us {t : Tracker} (h : t.telopts = telopts) {o : Byte}
    (ok : checkTelopt t o true = true) : o ∈ usOptions := by
  have rows : ∀ row ∈ telopts, row.us = 251 → row.telopt ∈ usOptions := by decide
  obtain ⟨row, hmem, rfl, us⟩ := checkTelopt_row ok
  exact rows row (h ▸ hmem) (by simpa using us)

namespace Sane

variable {t : Tracker} {echo : Bool}

theorem allocOk (h : Sane t echo) : t.allocOk = true := by
  simp [Tracker.allocOk, h.heap]

theorem size (h : Sane t echo) : t.q.length ≤ 16 := by
  obtain ⟨opts, grown, sub⟩ := h.grown
  exact grown.length_le sub

theorem congr (h : Sane t echo) {t' : Tracker} (hopts : t'.telopts = t.telopts)
    (hproxy : t'.proxy = t.proxy) (hq : t'.q = t.q) (hheap : t'.heap ⊆ t.heap) :
    Sane t' echo := by
  have get (o : Byte) : getRfc1143 t' o = getRfc1143 t o := by rw [getRfc1143, getRfc1143, hq]
  refine ⟨hopts.trans h.telopts, hproxy.trans h.proxy, ?_, ?_, ?_, ?_⟩
  · rw [h.heap] at hheap
    exact List.subset_nil.1 hheap
  · intro o
    rw [get]
    exact h.rows o
  · rw [hq]
    exact h.grown
  · rw [get]
    exact h.echo

theorem settle (h : Sane t echo) {o : Byte} {us him : QState} (row : SettledRow ⟨o, us, him⟩)
    (hused : o ∈ usOptions ++ himOptions) {evs : List TelnetEvent}
    (follows : evs.foldl echoAfter echo = false ↔
      (if 1 = o then him else (getRfc1143 t 1).him) = .yes) :
    Sane (settle t o us him evs).1 ((settle t o us him evs).2.foldl echoAfter echo) := by
  have room : o ∉ t.q.map (·.telopt) → t.q.length + 4 < 256 := by
    have := h.size
    omega
  have get := getRfc1143_setRfc1143 h.allocOk room us him
  obtain ⟨opts, grown, sub⟩ := h.grown
  obtain ⟨quiet, -⟩ := setRfc1143_eq h.allocOk room us him
  obtain ⟨q, heap, frame, hheap⟩ := setRfc1143_frame t o us him
  rw [h.heap] at hheap
  unfold Telnet.settle
  rw [quiet, List.nil_append]
  refine ⟨?_, ?_, ?_, ?_, grown.setRfc1143 sub h.allocOk hused room us him, ?_⟩
  · rw [frame]
    exact h.telopts
  · rw [frame]
    exact h.proxy
  · rw [frame]
    exact List.subset_nil.1 hheap
  · intro o'
    rw [get]
    split_ifs
    · exact row
    · exact h.rows o'
  · rw [get, follows]
    split_ifs <;> rfl

/-- Every answer to a negotiation keeps the options settled. -/
theorem negotiate (h : Sane t echo) (o : Byte) :
    Sane (negotiate t o).1 ((negotiate t o).2.foldl echoAfter echo) := by
  obtain ⟨us, him⟩ := h.rows o
  rw [getRfc1143_telopt] at us him
  have hecho := h.echo
  unfold Telnet.negotiate
  cases hs : t.state with
  | will =>
    rcases him with him | ⟨him, hopt⟩
    · simp only [h.proxy, him, Bool.false_eq_true, if_false]
      split_ifs with ok
      · have hopt := checkTelopt_him h.telopts ok
        apply h.settle ⟨us, .inr ⟨rfl, hopt⟩⟩ (List.mem_append_right _ hopt)
        by_cases ho : o = 1
        · simp [echoAfter, sendNegotiate, ho]
        · simpa [echoAfter, sendNegotiate, ho, Ne.symm ho] using hecho
      · exact h
    · simp only [h.proxy, him, Bool.false_eq_true, if_false]
      exact h
  | wont =>
    rcases him with him | ⟨him, hopt⟩
    · simp only [h.proxy, him, Bool.false_eq_true, if_false]
      exact h
    · simp only [h.proxy, him, Bool.false_eq_true, if_false]
      apply h.settle ⟨us, .inl rfl⟩ (List.mem_append_right _ hopt)
      by_cases ho : o = 1
      · simp [echoAfter, sendNegotiate, ho]
      · simpa [echoAfter, sendNegotiate, ho, Ne.symm ho] using hecho
  | do_ =>
    rcases us with us | ⟨us, hopt⟩
    · simp only [h.proxy, us, Bool.false_eq_true, if_false]
      split_ifs with ok
      · have hopt := checkTelopt_us h.telopts ok
        apply h.settle ⟨.inr ⟨rfl, hopt⟩, him⟩ (List.mem_append_left _ hopt)
        split_ifs with ho
        · subst ho
          simpa [echoAfter, sendNegotiate] using hecho
        · simpa [echoAfter, sendNegotiate] using hecho
      · exact h
    · simp only [h.proxy, us, Bool.false_eq_true, if_false]
      exact h
  | dont =>
    rcases us with us | ⟨us, hopt⟩
    · simp only [h.proxy, us, Bool.false_eq_true, if_false]
      exact h
    · simp only [h.proxy, us, Bool.false_eq_true, if_false]
      apply h.settle ⟨.inl rfl, him⟩ (List.mem_append_left _ hopt)
      split_ifs with ho
      · subst ho
        simpa [echoAfter, sendNegotiate] using hecho
      · simpa [echoAfter, sendNegotiate] using hecho
  | _ => exact h

end Sane

/-- None of the events is about an option. -/
def NoOption (evs : List TelnetEvent) : Prop := ∀ ev ∈ evs, ∀ echo, echoAfter echo ev = echo

theorem NoOption.of_calm {evs : List TelnetEvent} (h : Calm evs) : NoOption evs := by
  intro ev hev echo
  have calm := h ev hev
  cases ev <;> first | rfl | simp [TelnetEvent.isOption] at calm

theorem NoOption.foldl {evs : List TelnetEvent} (h : NoOption evs) (echo : Bool) :
    evs.foldl echoAfter echo = echo := by
  induction evs with
  | nil => rfl
  | cons ev evs ih =>
    rw [List.foldl_cons, h ev List.mem_cons_self]
    exact ih fun ev' hev' => h ev' (List.mem_cons_of_mem _ hev')

/-- What a byte of another kind than a negotiation leaves alone. -/
theorem byteStep_frame {t : Tracker} (h : ¬ t.state.IsVerb) (i start : ℕ) (b : Byte) :
    let r := byteStep t i start b
    r.1.telopts = t.telopts ∧ r.1.proxy = t.proxy ∧ r.1.q = t.q ∧ r.1.heap ⊆ t.heap := by
  have act := byteStep_act t i start b
  dsimp only
  generalize (byteStep t i start b).1 = u, (byteStep t i start b).2.2 = evs at act ⊢
  cases act with
  | text | iac | option | half | oldCompress => exact ⟨rfl, rfl, rfl, List.Subset.refl _⟩
  | command =>
    obtain ⟨s, frame⟩ := iacByte_frame t b
    rw [frame]
    exact ⟨rfl, rfl, rfl, List.Subset.refl _⟩
  | verb hv => exact absurd hv h
  | content =>
    obtain ⟨buffer, size, heap, frame, sub⟩ := bufferByte_frame t b
    rw [frame]
    exact ⟨rfl, rfl, rfl, sub⟩
  | finish =>
    obtain ⟨buffer, heap, frame, sub⟩ := subnegotiate_frame { t with state := .data }
    rw [frame]
    exact ⟨rfl, rfl, rfl, sub⟩
  | skipped =>
    obtain ⟨buffer, heap, frame, sub⟩ := subnegotiate_frame { t with state := .iac }
    rw [frame]
    exact ⟨rfl, rfl, rfl, sub⟩
  | unexpected =>
    obtain ⟨buffer, heap, frame, sub⟩ := subnegotiate_frame { t with state := .iac }
    obtain ⟨s, frame'⟩ := iacByte_frame (subnegotiate { t with state := .iac }).1 b
    rw [frame', frame]
    exact ⟨rfl, rfl, rfl, sub⟩

/-- A byte keeps the options settled, and `do_echo` follows. -/
theorem Sane.byteStep {t : Tracker} {echo : Bool} (h : Sane t echo) (i start : ℕ) (b : Byte) :
    Sane (byteStep t i start b).1 ((byteStep t i start b).2.2.foldl echoAfter echo) := by
  by_cases verb : t.state.IsVerb
  · rw [byteStep_verb verb]
    exact (h.negotiate b).congr rfl rfl rfl (List.Subset.refl _)
  · obtain ⟨hopts, hproxy, hq, hheap⟩ := byteStep_frame verb i start b
    rw [(NoOption.of_calm (byteStep_calm verb i start b)).foldl]
    exact h.congr hopts hproxy hq hheap

/-! ### The receive loop -/

theorem sipEvent_doEcho {term : Option CStr} {sip sip' : Sip} {ev : TelnetEvent}
    {outs : List SipOut} (h : sipEvent term sip ev = some (sip', outs)) :
    sip'.doEcho = echoAfter sip.doEcho ev := by
  have sent {parts : List (List Byte)} (h : sip.sendAll parts = some (sip', outs)) :
      sip'.doEcho = sip.doEcho := by rw [(sendAll_frame h).1]
  unfold sipEvent at h
  split at h
  · split_ifs at h
    cases h
    rfl
  · cases h
  · exact sent h
  next o =>
    cases h
    show _ = if o = 1 then false else sip.doEcho
    split_ifs <;> rfl
  next o =>
    cases h
    show _ = if o = 1 then true else sip.doEcho
    split_ifs <;> rfl
  · split_ifs at h
    · split at h
      · cases h
      · exact sent h
    · cases h
      rfl
  · cases h
    unfold echoAfter
    split <;> simp_all

theorem deliver_doEcho {term : Option CStr} {chunk : List Byte} {sip sip' : Sip}
    {evs : List TelnetEvent} (h : (deliver term chunk sip evs).1 = some sip') :
    sip'.doEcho = evs.foldl echoAfter sip.doEcho := by
  induction evs generalizing sip with
  | nil =>
    cases h
    rfl
  | cons ev evs ih =>
    rcases hev : sipEvent term sip ev with _ | ⟨next, outs⟩
    · simp [deliver, hev] at h
    · simp only [deliver, hev] at h
      rw [ih h, sipEvent_doEcho hev, List.foldl_cons]

theorem recvStep_sane {term : Option CStr} {s s' : Option Receiver} {feed : Feed}
    {outs : List Delivery} (hs : ∀ r ∈ s, Sane r.t r.sip.doEcho)
    (h : recvStep term s feed = .ok (s', outs)) : ∀ r ∈ s', Sane r.t r.sip.doEcho := by
  obtain ⟨r, rfl, hcases⟩ := recvStep_cases h
  have hr := hs r rfl
  rcases hcases with ⟨c, -, -, rfl, -⟩ | ⟨-, -, -, rfl, -⟩ | ⟨-, -, -, rfl, -⟩
  · rintro _ ⟨⟩
    exact hr
  · intro r' hr'
    obtain ⟨sip', hsip, rfl⟩ := Option.map_eq_some_iff.1 hr'
    rw [deliver_doEcho hsip]
    exact hr.byteStep r.i r.start r.current
  · intro r' hr'
    obtain ⟨sip', hsip, rfl⟩ := Option.map_eq_some_iff.1 hr'
    have same : (pendingEvents r).foldl echoAfter r.sip.doEcho = r.sip.doEcho := by
      unfold pendingEvents
      split_ifs <;> rfl
    rw [deliver_doEcho hsip, same]
    exact hr

/-- For every stream received, whatever `malloc` and `_send` answer in `sip_event`, in every state of
the receive loop: the states of every option are `NO` or `YES`; the peer's are on only for `ECHO`,
`COMPRESS2` and `MSSP`, and ours only for `TTYPE`; the table has at most sixteen rows; and `do_echo`
is off exactly if the peer's `ECHO` is on. -/
theorem options_settled (term : Option CStr) (mallocs sends : List Bool) (feeds : List Feed)
    (p q : List RecvMove) (split : recvTrace term ⟨[], mallocs, sends⟩ feeds = p ++ q) (r : Receiver)
    (hr : final (some (initReceiver ⟨[], mallocs, sends⟩)) p = some r) :
    (∀ o, let s := getRfc1143 r.t o
      (s.us = .no ∨ s.us = .yes) ∧ (s.him = .no ∨ s.him = .yes) ∧
        (s.him = .yes → o = 1 ∨ o = 86 ∨ o = 70) ∧ (s.us = .yes → o = 24)) ∧
      r.t.q.length ≤ 16 ∧
      (r.sip.doEcho = false ↔ (getRfc1143 r.t 1).him = .yes) := by
  have sane : Sane r.t r.sip.doEcho := by
    have start : ∀ r ∈ some (initReceiver ⟨[], mallocs, sends⟩), Sane r.t r.sip.doEcho := by
      rintro _ ⟨⟩
      exact sane_init
    exact trace_history (fun _ (s : Option Receiver) => ∀ r ∈ s, Sane r.t r.sip.doEcho) start
      (fun _ m _ hs hstep => recvStep_sane hs hstep) split r hr
  refine ⟨?_, sane.size, sane.echo⟩
  intro o s
  obtain ⟨us, him⟩ := sane.rows o
  rw [getRfc1143_telopt] at us him
  refine ⟨us.imp_right And.left, him.imp_right And.left, ?_, ?_⟩
  · intro hyes
    rcases him with hno | ⟨-, hopt⟩
    · rw [hno] at hyes
      cases hyes
    · simpa [himOptions] using hopt
  · intro hyes
    rcases us with hno | ⟨-, hopt⟩
    · rw [hno] at hyes
      cases hyes
    · simpa [usOptions] using hopt

/-- The peer offers `ECHO`. -/
def sampleEcho : Chunk := ⟨[255, 251, 1], by decide, by decide⟩

/-- The offer is accepted, and `do_echo` is off. -/
theorem options_settled_sample :
    ∃ r, final (some (initReceiver .good))
        (recvTrace none .good [.recv sampleEcho, .byte, .byte, .byte]) = some r ∧
      (getRfc1143 r.t 1).him = .yes ∧ r.sip.doEcho = false := by
  let tr := recvTrace none .good [.recv sampleEcho, .byte, .byte, .byte]
  have last : ∃ r, final (some (initReceiver .good)) tr = some r ∧ (getRfc1143 r.t 1).him = .yes := by
    have run : (final (some (initReceiver .good)) tr).map (fun r => (getRfc1143 r.t 1).him) =
        some .yes := by decide +kernel
    exact Option.map_eq_some_iff.1 run
  obtain ⟨r, hr, hyes⟩ := last
  have settled := options_settled none [] [] [.recv sampleEcho, .byte, .byte, .byte] tr []
    (List.append_nil _).symm r hr
  exact ⟨r, hr, hyes, settled.2.2.2 hyes⟩

end Siproxy
