import Siproxy.Queue

/-!
# The end of the queue

`queue_cleanup` frees the nodes of the list and of the pool, and with `freedata` what they point to.
A pool node points to nothing, as `release_msglist` clears it, so that data that was handed out is
not freed again.  `queue_cleanup_exact`: after every run nothing stays allocated, each node is freed
once, and the data freed is that of the messages that were added and not taken.
-/

namespace Siproxy

open Heap Machine

variable {α : Type}

/-- The inner loop of `queue_cleanup`: the nodes from `rec` on are freed; also returns what was
passed to `free` as data.  Without fuel, or where memory is not used as it may be, there is no
result. -/
def cleanupList (freedata : Bool) : ℕ → Queue α → Option Addr → Option (Queue α × List α)
  | 0, _, _ => none
  | _ + 1, q, none => some (q, [])
  | fuel + 1, q, some a =>
    (q.heap a).bind fun n =>
      (q.free a).bind fun q =>
        (cleanupList freedata fuel q n.next).map fun (q, freed) =>
          (q, (if freedata then n.data.toList else []) ++ freed)

/-- `queue_cleanup`, from the mutex on. -/
def queueCleanup (freedata : Bool) (fuel : ℕ) (q : Queue α) : Option (Queue α × List α) :=
  (cleanupList freedata fuel q q.first).bind fun (q', freed) =>
    (cleanupList freedata fuel q' q.msgpool).map fun (q'', freed') => (q'', freed ++ freed')

/-! ### The nodes of the pool -/

/-- Only the nodes of `keep` point to data. -/
def Queue.Nulls (q : Queue α) (keep : List Addr) : Prop :=
  ∀ a n, q.heap a = some n → a ∉ keep → n.data = none

theorem queueInit_nulls : (queueInit : Queue α).Nulls [] := by
  intro a n h
  simp [queueInit] at h

theorem Queue.Nulls.update {q : Queue α} {keep : List Addr} (h : q.Nulls keep) {a : Addr}
    {c : Option (MsgNode α)} (hc : ∀ n ∈ c, a ∈ keep ∨ n.data = none) :
    Queue.Nulls { q with heap := Function.update q.heap a c } keep := by
  intro b n hb out
  by_cases heq : b = a
  · subst heq
    have hn : c = some n := by simpa using hb
    exact (hc n hn).resolve_left out
  · exact h b n (by simpa [heq] using hb) out

theorem Queue.Nulls.mono {q : Queue α} {keep keep' : List Addr} (h : q.Nulls keep)
    (sub : keep ⊆ keep') : q.Nulls keep' := fun a n ha out => h a n ha fun hm => out (sub hm)

theorem Queue.Nulls.store {q q' : Queue α} {keep : List Addr} (h : q.Nulls keep) {a : Addr}
    {n : MsgNode α} (stored : q.store a n = some q') (hn : a ∈ keep ∨ n.data = none) :
    q'.Nulls keep := by
  obtain ⟨_, -, rfl⟩ := Option.map_eq_some_iff.1 stored
  exact h.update fun _ hc => Option.some.inj hc ▸ hn

theorem Queue.Nulls.free {q q' : Queue α} {keep : List Addr} {a : Addr} (h : q.Nulls (a :: keep))
    (freed : q.free a = some q') : q'.Nulls keep := by
  obtain ⟨_, -, rfl⟩ := Option.map_eq_some_iff.1 freed
  intro b n hb out
  by_cases heq : b = a
  · simp [heq] at hb
  · exact h b n (by simpa [heq] using hb) (by simp [heq, out])

theorem Queue.Nulls.getMsglist {q q' : Queue α} {keep : List Addr} {a : Addr} (h : q.Nulls keep)
    {malloc : Option (Addr × MsgNode α)} (got : getMsglist q malloc = some (q', some a)) :
    q'.Nulls (a :: keep) := by
  have wider := h.mono (List.subset_cons_self a keep)
  unfold Siproxy.getMsglist at got
  split at got
  · obtain ⟨n, -, taken⟩ := Option.map_eq_some_iff.1 got
    cases taken
    exact wider
  · split at got
    · cases got
    · cases got
      exact wider.update fun _ _ => .inl List.mem_cons_self

theorem Queue.Nulls.linkLast {q q' : Queue α} {keep : List Addr} {a : Addr} (h : q.Nulls keep)
    (linked : linkLast q a = some q') : q'.Nulls keep ∧ q'.last = some a := by
  unfold Siproxy.linkLast at linked
  split at linked
  · cases linked
    exact ⟨h, rfl⟩
  · obtain ⟨n, hn, linked⟩ := Option.bind_eq_some_iff.1 linked
    obtain ⟨q₁, stored, rfl⟩ := Option.map_eq_some_iff.1 linked
    -- only `next` of the old last node is written
    have kept : q₁.Nulls keep := h.store stored (or_iff_not_imp_left.2 fun out => h _ n hn out)
    exact ⟨kept, rfl⟩

theorem Queue.Nulls.queueAdd {q q' : Queue α} {keep : List Addr} (h : q.Nulls keep)
    {malloc : Option (Addr × MsgNode α)} {data : Option α} {msgtype : ℤ} {broadcast : Bool}
    (added : queueAdd q malloc data msgtype = some (q', .zero, broadcast)) :
    ∃ a, q'.last = some a ∧ q'.Nulls (a :: keep) := by
  obtain ⟨⟨q₁, newmsg⟩, hget, added⟩ := Option.bind_eq_some_iff.1 added
  cases newmsg with
  | none => cases added
  | some a =>
    obtain ⟨q₂, hstore, linked⟩ := Option.bind_eq_some_iff.1 added
    obtain ⟨q₃, hlink, done⟩ := Option.map_eq_some_iff.1 linked
    cases done
    have stored := (h.getMsglist hget).store hstore (.inl List.mem_cons_self)
    obtain ⟨nulls, hlast⟩ := stored.linkLast hlink
    exact ⟨a, hlast, nulls⟩

theorem Queue.Nulls.releaseMsglist {q q' : Queue α} {keep : List Addr} {a : Addr}
    (h : q.Nulls (a :: keep)) (released : releaseMsglist q a = some q') : q'.Nulls keep := by
  obtain ⟨q₁, hrecycle, htrim⟩ := Option.bind_eq_some_iff.1 released
  have recycled : q₁.Nulls keep := by
    unfold recycle at hrecycle
    split_ifs at hrecycle
    · exact h.free hrecycle
    · obtain ⟨q₂, hstore, rfl⟩ := Option.map_eq_some_iff.1 hrecycle
      obtain ⟨_, -, rfl⟩ := Option.map_eq_some_iff.1 hstore
      intro b n hb out
      by_cases heq : b = a
      · obtain rfl : (⟨none, 0, q.msgpool⟩ : MsgNode α) = n := by simpa [heq] using hb
        rfl
      · exact h b n (by simpa [heq] using hb) (by simp [heq, out])
  unfold trim at htrim
  split_ifs at htrim
  · obtain ⟨tmp, -, hheap⟩ := Option.bind_eq_some_iff.1 htrim
    obtain ⟨n, -, hfree⟩ := Option.bind_eq_some_iff.1 hheap
    obtain ⟨q₂, freed, rfl⟩ := Option.map_eq_some_iff.1 hfree
    have popped : Queue.Nulls { q₁ with msgpool := n.next } (tmp :: keep) :=
      recycled.mono (List.subset_cons_self tmp keep)
    have trimmed : q₂.Nulls keep := popped.free freed
    exact trimmed
  · cases htrim
    exact recycled

theorem Queue.Nulls.queueGet {q q' : Queue α} {a : Addr} {rest : List Addr}
    (h : q.Nulls (a :: rest)) (hfirst : q.first = some a) {timedOut : Bool} {m : Msg α}
    (got : queueGet q timedOut = some (q', .msg m)) : q'.Nulls rest := by
  unfold Siproxy.queueGet at got
  split_ifs at got
  · cases got
  · cases got
  rw [hfirst, Option.bind_some] at got
  obtain ⟨n, -, got⟩ := Option.bind_eq_some_iff.1 got
  obtain ⟨q₁, released, done⟩ := Option.map_eq_some_iff.1 got
  cases done
  have unlinked : (unlinkFirst q n.next).Nulls (a :: rest) := by
    unfold unlinkFirst
    split <;> exact h
  exact unlinked.releaseMsglist released

/-- The lists are in order, hold the messages that were added and not taken, and no other node
points to data. -/
def Cleanable (tr : List (QueueMove α)) (q : Queue α) : Prop :=
  ∃ qs ps, q.Inv qs ps [] ∧ q.Nulls qs ∧ addedOf tr = takenOf tr ++ q.msgs qs

theorem queueStep_added {q q' : Queue α} {op : QueueOp α} {data : Option α} {msgtype : ℤ}
    (taken : queueStep q op = .ok (q', [.added data msgtype])) :
    ∃ malloc broadcast, queueAdd q malloc data msgtype = some (q', .zero, broadcast) := by
  cases op with
  | add malloc d t =>
    simp only [queueStep] at taken
    split_ifs at taken
    split at taken
    · cases taken
    · next broadcast hadd =>
      cases taken
      exact ⟨malloc, broadcast, hadd⟩
    · cases taken
  | get timedOut =>
    simp only [queueStep] at taken
    split at taken <;> cases taken

theorem queueStep_got {q q' : Queue α} {op : QueueOp α} {m : Msg α}
    (taken : queueStep q op = .ok (q', [.got m])) :
    ∃ timedOut, queueGet q timedOut = some (q', .msg m) := by
  cases op with
  | add malloc d t =>
    simp only [queueStep] at taken
    split_ifs at taken
    split at taken <;> cases taken
  | get timedOut =>
    simp only [queueStep] at taken
    split at taken
    · cases taken
    · cases taken
    · cases taken
    · next hget =>
      cases taken
      exact ⟨timedOut, hget⟩

theorem Cleanable.concat {tr : List (QueueMove α)} {m : QueueMove α} (h : Cleanable tr m.pre)
    (taken : queueStep m.pre m.input = .ok (m.post, m.outs)) : Cleanable (tr ++ [m]) m.post := by
  obtain ⟨qs, ps, inv, nulls, hist⟩ := h
  unfold Cleanable
  rw [addedOf_concat, takenOf_concat]
  rcases queueStep_cases inv taken with ⟨hq, hadd, hgot⟩ |
    ⟨a, ps', data, msgtype, ho, inv', hmsgs⟩ | ⟨a, rest, ps', msg, ho, rfl, inv', hmsgs⟩
  · rw [hq, hadd, hgot, List.append_nil, List.append_nil]
    exact ⟨qs, ps, inv, nulls, hist⟩
  · refine ⟨qs ++ [a], ps', inv', ?_, by simp [ho, hist, hmsgs, QueueOut.added?, QueueOut.got?]⟩
    obtain ⟨malloc, broadcast, added⟩ := queueStep_added (ho ▸ taken)
    obtain ⟨b, hlast, nulls'⟩ := nulls.queueAdd added
    -- the new node is the last one
    have new : b = a := by simpa [inv'.last] using hlast.symm
    refine nulls'.mono ?_
    rw [new]
    exact List.cons_subset.2 ⟨by simp, List.subset_append_left qs [a]⟩
  · refine ⟨rest, ps', inv', ?_, by simp [ho, hist, hmsgs, QueueOut.added?, QueueOut.got?]⟩
    obtain ⟨timedOut, got⟩ := queueStep_got (ho ▸ taken)
    exact nulls.queueGet inv.queue.1 got

/-- The inner loop frees the nodes of a list, and what they point to. -/
theorem cleanupList_spec {q : Queue α} {p : Option Addr} {as : List Addr}
    (chain : Chain MsgNode.next q.heap p as) (nodup : as.Nodup) {fuel : ℕ}
    (enough : as.length < fuel) (freedata : Bool) :
    cleanupList freedata fuel q p =
      some ({ q with heap := fun a => if a ∈ as then none else q.heap a },
        if freedata then (q.msgs as).filterMap Prod.fst else []) := by
  induction as generalizing q p fuel with
  | nil =>
    obtain ⟨fuel, rfl⟩ : ∃ k, fuel = k + 1 := ⟨fuel - 1, by simp at enough; omega⟩
    obtain rfl : p = none := chain
    simp [cleanupList, Queue.msgs, contents]
  | cons a as ih =>
    obtain ⟨fuel, rfl⟩ : ∃ k, fuel = k + 1 := ⟨fuel - 1, by simp at enough; omega⟩
    obtain ⟨rfl, n, hn, rest⟩ := chain
    obtain ⟨out, nodup⟩ := List.nodup_cons.1 nodup
    have room : as.length < fuel := by simpa using enough
    have next := ih (q := { q with heap := Function.update q.heap a none }) (rest.update out none)
      nodup room
    have same : Queue.msgs { q with heap := Function.update q.heap a none } as = q.msgs as :=
      contents_update out none
    have freed : (fun b => if b ∈ as then none else Function.update q.heap a none b) =
        fun b => if b ∈ a :: as then none else q.heap b := by
      funext b
      by_cases hb : b = a
      · simp [hb]
      · simp [hb]
    simp only [same, freed] at next
    have whole : q.msgs (a :: as) = (n.data, n.msgtype) :: q.msgs as := contents_cons hn as
    simp only [cleanupList, hn, Option.bind_some, Queue.free, Option.map_some, next, whole]
    cases freedata with
    | false => rfl
    | true => cases n.data <;> simp

theorem queueCleanup_spec {q : Queue α} {qs ps : List Addr} (inv : q.Inv qs ps [])
    (nulls : q.Nulls qs) {fuel : ℕ} (hlength : q.length < fuel) (hpool : q.msgpoolLength < fuel)
    (freedata : Bool) :
    ∃ q', queueCleanup freedata fuel q =
        some (q', if freedata then (q.msgs qs).filterMap Prod.fst else []) ∧
      ∀ a, q'.heap a = none := by
  have nodup := inv.nodup
  rw [List.nil_append] at nodup
  obtain ⟨nodupq, nodupp, apart⟩ := List.nodup_append.1 nodup
  rw [inv.length, Nat.cast_lt] at hlength
  rw [inv.poolLength, Nat.cast_lt] at hpool
  let q₁ : Queue α := { q with heap := fun a => if a ∈ qs then none else q.heap a }
  have kept (a : Addr) (ha : a ∈ ps) : q₁.heap a = q.heap a :=
    if_neg fun hm => apart a hm a ha rfl
  have first := cleanupList_spec inv.queue nodupq hlength freedata
  have second := cleanupList_spec (q := q₁) (inv.pool.congr kept) nodupp hpool freedata
  have noData : (q₁.msgs ps).filterMap Prod.fst = [] := by
    rw [List.filterMap_eq_nil_iff]
    intro m hm
    obtain ⟨a, ha, hcontents⟩ := List.mem_filterMap.1 hm
    rw [kept a ha] at hcontents
    obtain ⟨n, hn, rfl⟩ := Option.map_eq_some_iff.1 hcontents
    exact nulls a n hn fun hq => apart a hq a ha rfl
  rw [noData, ite_self] at second
  refine ⟨{ q₁ with heap := fun a => if a ∈ ps then none else q₁.heap a }, ?_, fun a => ?_⟩
  · rw [queueCleanup, first, Option.bind_some]
    show (cleanupList freedata fuel q₁ q.msgpool).map _ = _
    simp only [second, Option.map_some, List.append_nil]
  · show (if a ∈ ps then none else if a ∈ qs then none else q.heap a) = none
    split_ifs with hp hq
    · rfl
    · rfl
    · by_contra used
      have listed := (inv.owned a).1 used
      simp [hp, hq] at listed

/-- After every run: `queue_cleanup` ends, uses memory as it may be used, leaves nothing allocated,
and frees as data, if it was asked to, exactly that of the messages that were added and not taken,
in order. -/
theorem queue_cleanup_exact (ops : List (QueueOp α)) (freedata : Bool) :
    let q := final queueInit (queueTrace ops)
    ∃ rest, addedOf (queueTrace ops) = takenOf (queueTrace ops) ++ rest ∧
      ∀ fuel : ℕ, q.length < fuel → q.msgpoolLength < fuel →
        ∃ q', queueCleanup freedata fuel q =
            some (q', if freedata then rest.filterMap Prod.fst else []) ∧
          ∀ a, q'.heap a = none := by
  intro q
  obtain ⟨qs, ps, inv, nulls, hist⟩ := trace_history Cleanable
    ⟨[], [], queueInit_inv, queueInit_nulls, rfl⟩ (fun _ _ _ h taken => h.concat taken)
    (List.append_nil (queueTrace ops)).symm
  exact ⟨q.msgs qs, hist, fun fuel hlength hpool =>
    queueCleanup_spec inv nulls hlength hpool freedata⟩

end Siproxy
