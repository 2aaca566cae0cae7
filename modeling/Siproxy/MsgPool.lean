import Siproxy.Queue

/-!
# The size of the node pool

`release_msglist` compares the number of pooled nodes with two fractions of the queue's length,
which has already been lowered when it is called.  One call of it lowers the bound of the trim by at
most one and trims at most one node, so that the pool never gets larger than that bound
(`pool_bounded`).
-/

namespace Siproxy

open Heap Machine

variable {α : Type}

/-- The number of pooled nodes after `release_msglist`. -/
def released (length pool : ℤ) : ℤ :=
  let kept := if pool > length.tdiv 8 + msgpoolSize then pool else pool + 1
  if kept > length.tdiv 4 + msgpoolSize * 10 then kept - 1 else kept

/-- The quotient drops by at most one as the queue gets shorter by one. -/
theorem released_le {length pool : ℤ} (nonneg : 0 ≤ length)
    (bounded : pool ≤ (length + 1).tdiv 4 + msgpoolSize * 10) :
    released length pool ≤ length.tdiv 4 + msgpoolSize * 10 := by
  have eighth : length.tdiv 8 = length / 8 := Int.tdiv_eq_ediv_of_nonneg nonneg
  have quarter : length.tdiv 4 = length / 4 := Int.tdiv_eq_ediv_of_nonneg nonneg
  have before : (length + 1).tdiv 4 = (length + 1) / 4 :=
    Int.tdiv_eq_ediv_of_nonneg (by omega)
  rw [before] at bounded
  unfold released
  simp only [eighth, quarter, msgpoolSize] at bounded ⊢
  split_ifs <;> omega

/-! ### What the functions do to the counters -/

theorem Queue.free_counters {q q' : Queue α} {a : Addr} (h : q.free a = some q') :
    q'.length = q.length ∧ q'.msgpoolLength = q.msgpoolLength := by
  obtain ⟨n, -, rfl⟩ := Option.map_eq_some_iff.1 h
  exact ⟨rfl, rfl⟩

theorem Queue.store_counters {q q' : Queue α} {a : Addr} {n : MsgNode α}
    (h : q.store a n = some q') :
    q'.length = q.length ∧ q'.msgpoolLength = q.msgpoolLength := by
  obtain ⟨n, -, rfl⟩ := Option.map_eq_some_iff.1 h
  exact ⟨rfl, rfl⟩

theorem getMsglist_counters {q q' : Queue α} {malloc : Option (Addr × MsgNode α)}
    {a : Option Addr} (h : getMsglist q malloc = some (q', a)) :
    q'.length = q.length ∧ q'.msgpoolLength ≤ q.msgpoolLength := by
  unfold getMsglist at h
  split at h
  next tmp _ =>
    obtain ⟨n, -, taken⟩ := Option.map_eq_some_iff.1 h
    cases taken
    exact ⟨rfl, by simp⟩
  · split at h
    all_goals
      cases h
      exact ⟨rfl, le_rfl⟩

theorem linkLast_counters {q q' : Queue α} {a : Addr} (h : linkLast q a = some q') :
    q'.length = q.length ∧ q'.msgpoolLength = q.msgpoolLength := by
  unfold linkLast at h
  split at h
  · cases h
    exact ⟨rfl, rfl⟩
  · obtain ⟨n, -, linked⟩ := Option.bind_eq_some_iff.1 h
    obtain ⟨q₁, hstore, rfl⟩ := Option.map_eq_some_iff.1 linked
    obtain ⟨hlen, hpool⟩ := Queue.store_counters hstore
    exact ⟨hlen, hpool⟩

theorem queueAdd_counters {q q' : Queue α} {malloc : Option (Addr × MsgNode α)}
    {data : Option α} {msgtype : ℤ} {ret : AddRet} {broadcast : Bool}
    (h : queueAdd q malloc data msgtype = some (q', ret, broadcast)) :
    q.length ≤ q'.length ∧ q'.msgpoolLength ≤ q.msgpoolLength := by
  obtain ⟨⟨q₁, newmsg⟩, hget, added⟩ := Option.bind_eq_some_iff.1 h
  obtain ⟨hlen, hpool⟩ := getMsglist_counters hget
  cases newmsg with
  | none =>
    cases added
    exact ⟨hlen.ge, hpool⟩
  | some a =>
    obtain ⟨q₂, hstore, linked⟩ := Option.bind_eq_some_iff.1 added
    obtain ⟨q₃, hlink, done⟩ := Option.map_eq_some_iff.1 linked
    cases done
    obtain ⟨hlen₂, hpool₂⟩ := Queue.store_counters hstore
    obtain ⟨hlen₃, hpool₃⟩ := linkLast_counters hlink
    dsimp only
    constructor <;> omega

theorem recycle_counters {q q' : Queue α} {a : Addr} (h : recycle q a = some q') :
    q'.length = q.length ∧ q'.msgpoolLength =
      if q.msgpoolLength > q.length.tdiv 8 + msgpoolSize then q.msgpoolLength
      else q.msgpoolLength + 1 := by
  unfold recycle at h
  split_ifs at h ⊢
  · exact Queue.free_counters h
  · obtain ⟨q₁, hstore, rfl⟩ := Option.map_eq_some_iff.1 h
    obtain ⟨hlen, hpool⟩ := Queue.store_counters hstore
    exact ⟨hlen, by rw [hpool]⟩

theorem trim_counters {q q' : Queue α} (h : trim q = some q') :
    q'.length = q.length ∧ q'.msgpoolLength =
      if q.msgpoolLength > q.length.tdiv 4 + msgpoolSize * 10 then q.msgpoolLength - 1
      else q.msgpoolLength := by
  unfold trim at h
  split_ifs at h ⊢
  · obtain ⟨tmp, -, hheap⟩ := Option.bind_eq_some_iff.1 h
    obtain ⟨n, -, hfree⟩ := Option.bind_eq_some_iff.1 hheap
    obtain ⟨q₁, freed, rfl⟩ := Option.map_eq_some_iff.1 hfree
    obtain ⟨hlen, hpool⟩ := Queue.free_counters freed
    exact ⟨hlen, by rw [hpool]⟩
  · cases h
    exact ⟨rfl, rfl⟩

theorem releaseMsglist_counters {q q' : Queue α} {a : Addr} (h : releaseMsglist q a = some q') :
    q'.length = q.length ∧ q'.msgpoolLength = released q.length q.msgpoolLength := by
  obtain ⟨q₁, hrecycle, htrim⟩ := Option.bind_eq_some_iff.1 h
  obtain ⟨hlen₁, hpool₁⟩ := recycle_counters hrecycle
  obtain ⟨hlen, hpool⟩ := trim_counters htrim
  rw [hlen₁] at hlen hpool
  rw [hpool₁] at hpool
  exact ⟨hlen, hpool⟩

/-- The length after the first node is taken off is the old one less one. -/
theorem Queue.Inv.unlinkFirst_counters {q : Queue α} {qs ps : List Addr} {a : Addr}
    {n : MsgNode α} (h : q.Inv (a :: qs) ps []) (hn : q.heap a = some n) :
    let q' := Siproxy.unlinkFirst q n.next
    q.length = q'.length + 1 ∧ 0 ≤ q'.length ∧ q'.msgpoolLength = q.msgpoolLength := by
  have after := h.unlinkFirst hn
  intro q'
  refine ⟨?_, ?_, ?_⟩
  · rw [h.length, after.length, List.length_cons]
    push_cast
    rfl
  · rw [after.length]
    exact Int.natCast_nonneg _
  · rw [h.poolLength, after.poolLength]

/-- The bound of the trim. -/
def Queue.PoolBounded (q : Queue α) : Prop :=
  q.msgpoolLength ≤ q.length.tdiv 4 + msgpoolSize * 10

theorem queueAdd_poolBounded {q q' : Queue α} {qs ps : List Addr} (h : q.Inv qs ps [])
    (bounded : q.PoolBounded) {malloc : Option (Addr × MsgNode α)} {data : Option α} {msgtype : ℤ}
    {ret : AddRet} {broadcast : Bool}
    (added : queueAdd q malloc data msgtype = some (q', ret, broadcast)) : q'.PoolBounded := by
  obtain ⟨hlen, hpool⟩ := queueAdd_counters added
  have nonneg : 0 ≤ q.length := by
    rw [h.length]
    exact Int.natCast_nonneg _
  have quarter : q.length.tdiv 4 = q.length / 4 := Int.tdiv_eq_ediv_of_nonneg nonneg
  have quarter' : q'.length.tdiv 4 = q'.length / 4 :=
    Int.tdiv_eq_ediv_of_nonneg (nonneg.trans hlen)
  unfold Queue.PoolBounded at bounded ⊢
  rw [quarter] at bounded
  rw [quarter']
  omega

theorem queueGet_poolBounded {q q' : Queue α} {qs ps : List Addr} (h : q.Inv qs ps [])
    (bounded : q.PoolBounded) {timedOut : Bool} {ret : GetRet α}
    (got : queueGet q timedOut = some (q', ret)) : q'.PoolBounded := by
  unfold queueGet at got
  split_ifs at got with hwait hout
  · cases got
    exact bounded
  · cases got
    exact bounded
  · obtain ⟨a, hfirst, taken⟩ := Option.bind_eq_some_iff.1 got
    obtain ⟨n, hn, released⟩ := Option.bind_eq_some_iff.1 taken
    obtain ⟨q₁, hrelease, done⟩ := Option.map_eq_some_iff.1 released
    cases done
    cases qs with
    | nil => cases hfirst.symm.trans h.queue
    | cons b qs =>
      obtain rfl : a = b := Option.some.inj (hfirst.symm.trans h.queue.1)
      obtain ⟨hlen, nonneg, hpool⟩ := h.unlinkFirst_counters hn
      obtain ⟨hlen', hpool'⟩ := releaseMsglist_counters hrelease
      unfold Queue.PoolBounded at bounded ⊢
      rw [hlen', hpool', hpool]
      exact released_le nonneg (hlen ▸ bounded)

theorem queueStep_poolBounded {q q' : Queue α} (sound : q.Sound) (bounded : q.PoolBounded)
    {op : QueueOp α} {outs : List (QueueOut α)} (taken : queueStep q op = .ok (q', outs)) :
    q'.PoolBounded := by
  obtain ⟨qs, ps, h⟩ := sound
  cases op with
  | add malloc data msgtype =>
    simp only [queueStep] at taken
    split_ifs at taken
    rcases hadd : queueAdd q malloc data msgtype with _ | ⟨q₁, ret, broadcast⟩
    · simp [hadd] at taken
    · have next := queueAdd_poolBounded h bounded hadd
      rw [hadd] at taken
      cases ret <;> cases taken <;> exact next
  | get timedOut =>
    simp only [queueStep] at taken
    rcases hget : queueGet q timedOut with _ | ⟨q₁, ret⟩
    · simp [hget] at taken
    · have next := queueGet_poolBounded h bounded hget
      rw [hget] at taken
      cases ret <;> cases taken <;> exact next

/-- For all critical sections in any order, with any results of the allocator and any timeouts, in
the state that they lead to: the pool is a list of `msgpool_length` nodes, at most 2560 and a
quarter of the queue's length; so at most 2560 nodes are kept when the queue is empty. -/
theorem pool_bounded (ops : List (QueueOp α)) :
    let s := final queueInit (queueTrace ops)
    s.msgpoolLength ≤ s.length.tdiv 4 + 2560 ∧
      ∃ qs ps, s.Inv qs ps [] ∧ ps.length ≤ qs.length / 4 + 2560 ∧
        (s.first = none → ps.length ≤ 2560) := by
  intro s
  have start : (queueInit : Queue α).Sound ∧ (queueInit : Queue α).PoolBounded := by
    refine ⟨queueInit_sound, ?_⟩
    show (0 : ℤ) ≤ (0 : ℤ).tdiv 4 + msgpoolSize * 10
    decide
  obtain ⟨⟨qs, ps, h⟩, bounded⟩ := trace_history (fun _ s => s.Sound ∧ s.PoolBounded) start
    (fun _ m _ hs taken => ⟨hs.1.step taken, queueStep_poolBounded hs.1 hs.2 taken⟩)
    (List.append_nil (queueTrace ops)).symm
  have nodes : ps.length ≤ qs.length / 4 + 2560 := by
    unfold Queue.PoolBounded at bounded
    rw [h.poolLength, h.length, Int.tdiv_eq_ediv_of_nonneg (Int.natCast_nonneg _)] at bounded
    unfold msgpoolSize at bounded
    omega
  refine ⟨bounded, qs, ps, h, nodes, fun hfirst => ?_⟩
  have drained : qs = [] := h.queue.none_iff.1 hfirst
  simpa [drained] using nodes

end Siproxy
