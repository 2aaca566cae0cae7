import Mathlib.Algebra.Order.Ring.Int
import Siproxy.Lib.Heap
import Siproxy.Lib.Machine

/-!
# The queue between the threads

`queue.c`: a list of messages and a pool of nodes that are kept for reuse.  A node is an address in
memory, and a function has no value where the source would follow `NULL` or use or free a node that
is not allocated.  Each function is the critical section of its source; that of `queue_get` starts
behind `pthread_mutex_lock` and ends where the thread goes to sleep or returns.

`Queue.Inv` ties the two lists, the two counters and the memory together, with the nodes that a
running operation holds on its own.  `queue_exact`: in every run the nodes allocated are those of
the two lists, and the messages taken and queued are those added, in order.
-/

namespace Siproxy

open Heap Machine

variable {α : Type}

/-- `struct msglist`; `none` is `NULL`. -/
structure MsgNode (α : Type) where
  data : Option α
  msgtype : ℤ
  next : Option Addr

/-- `struct queue` and the nodes in memory. -/
structure Queue (α : Type) where
  first : Option Addr
  last : Option Addr
  length : ℤ
  msgpool : Option Addr
  msgpoolLength : ℤ
  heap : Memory (MsgNode α)

/-- `MSGPOOL_SIZE`. -/
def msgpoolSize : ℤ := 256

/-- `queue_init`. -/
def queueInit : Queue α := ⟨none, none, 0, none, 0, fun _ => none⟩

/-- A node is written. -/
def Queue.store (q : Queue α) (a : Addr) (n : MsgNode α) : Option (Queue α) :=
  (q.heap a).map fun _ => { q with heap := Function.update q.heap a (some n) }

/-- `free`. -/
def Queue.free (q : Queue α) (a : Addr) : Option (Queue α) :=
  (q.heap a).map fun _ => { q with heap := Function.update q.heap a none }

/-- `get_msglist`; `malloc` is the node that the allocator would hand out, with what it holds. -/
def getMsglist (q : Queue α) (malloc : Option (Addr × MsgNode α)) :
    Option (Queue α × Option Addr) :=
  match q.msgpool with
  | some tmp =>
    (q.heap tmp).map fun n =>
      ({ q with msgpool := n.next, msgpoolLength := q.msgpoolLength - 1 }, some tmp)
  | none =>
    match malloc with
    | none => some (q, none)
    | some (a, n) => some ({ q with heap := Function.update q.heap a (some n) }, some a)

/-- The first part of `release_msglist`: the node is freed, or put into the pool. -/
def recycle (q : Queue α) (node : Addr) : Option (Queue α) :=
  if q.msgpoolLength > q.length.tdiv 8 + msgpoolSize then q.free node
  else
    (q.store node ⟨none, 0, q.msgpool⟩).map fun q =>
      { q with msgpool := some node, msgpoolLength := q.msgpoolLength + 1 }

/-- The second part of `release_msglist`: the pool is trimmed. -/
def trim (q : Queue α) : Option (Queue α) :=
  if q.msgpoolLength > q.length.tdiv 4 + msgpoolSize * 10 then
    q.msgpool.bind fun tmp =>
      (q.heap tmp).bind fun n =>
        (Queue.free { q with msgpool := n.next } tmp).map fun q =>
          { q with msgpoolLength := q.msgpoolLength - 1 }
  else some q

/-- `release_msglist`. -/
def releaseMsglist (q : Queue α) (node : Addr) : Option (Queue α) := (recycle q node).bind trim

/-- The new node is linked behind the last one. -/
def linkLast (q : Queue α) (newmsg : Addr) : Option (Queue α) :=
  match q.last with
  | none => some { q with last := some newmsg, first := some newmsg }
  | some l =>
    (q.heap l).bind fun n =>
      (q.store l { n with next := some newmsg }).map fun q => { q with last := some newmsg }

/-- What `queue_add` returns. -/
inductive AddRet where
  | zero
  | enomem
  deriving DecidableEq

/-- `queue_add`; the flag tells whether the condition is broadcast. -/
def queueAdd (q : Queue α) (malloc : Option (Addr × MsgNode α)) (data : Option α) (msgtype : ℤ) :
    Option (Queue α × AddRet × Bool) :=
  (getMsglist q malloc).bind fun
    | (q, none) => some (q, .enomem, false)
    | (q, some newmsg) =>
      (q.store newmsg ⟨data, msgtype, none⟩).bind fun q =>
        (linkLast q newmsg).map fun q =>
          ({ q with length := q.length + 1 }, .zero, decide (q.length = 0))

/-- `struct msg`; `qlength` is an `int`. -/
structure Msg (α : Type) where
  data : Option α
  msgtype : ℤ
  qlength : ℤ
  deriving DecidableEq

/-- What `queue_get` does in one critical section. -/
inductive GetRet (α : Type) where
  | waits
  | etimedout
  | msg (m : Msg α)
  deriving DecidableEq

/-- The first node is taken off the list. -/
def unlinkFirst (q : Queue α) (next : Option Addr) : Queue α :=
  match next with
  | none => { q with first := none, last := none, length := 0 }
  | some a => { q with first := some a, length := q.length - 1 }

/-- `queue_get`; `timedOut` tells whether the last wait has returned `ETIMEDOUT`. -/
def queueGet (q : Queue α) (timedOut : Bool) : Option (Queue α × GetRet α) :=
  if q.first = none ∧ timedOut = false then some (q, .waits)
  else if timedOut then some (q, .etimedout)
  else
    q.first.bind fun firstrec =>
      (q.heap firstrec).bind fun n =>
        let q := unlinkFirst q n.next
        (releaseMsglist q firstrec).map fun q' =>
          (q', .msg ⟨n.data, n.msgtype, (BitVec.ofInt 32 q.length).toInt⟩)

/-! ### The two lists -/

/-- The list runs through `qs` and the pool through `ps`; `loose` are the nodes that the running
operation holds. -/
structure Queue.Inv (q : Queue α) (qs ps loose : List Addr) : Prop where
  queue : Chain MsgNode.next q.heap q.first qs
  last : q.last = qs.getLast?
  pool : Chain MsgNode.next q.heap q.msgpool ps
  length : q.length = qs.length
  poolLength : q.msgpoolLength = ps.length
  nodup : (loose ++ (qs ++ ps)).Nodup
  /-- A node is allocated exactly if it is in one of the lists. -/
  owned : ∀ a, q.heap a ≠ none ↔ a ∈ loose ++ (qs ++ ps)

/-- The messages that a list of nodes holds. -/
def Queue.msgs (q : Queue α) (as : List Addr) : List (Option α × ℤ) :=
  contents (fun n => (n.data, n.msgtype)) q.heap as

theorem queueInit_inv : (queueInit : Queue α).Inv [] [] [] :=
  ⟨rfl, rfl, rfl, rfl, rfl, List.nodup_nil, fun a => by simp [queueInit]⟩

theorem Queue.Inv.first_eq_none_iff {q : Queue α} {qs ps loose : List Addr}
    (h : q.Inv qs ps loose) : q.first = none ↔ q.length = 0 := by
  rw [h.queue.none_iff, h.length]
  simp

theorem Queue.Inv.first_iff_last {q : Queue α} {qs ps loose : List Addr}
    (h : q.Inv qs ps loose) : q.first = none ↔ q.last = none := by
  rw [h.queue.none_iff, h.last]
  simp

theorem Queue.Inv.popPool {q : Queue α} {qs ps : List Addr} {a : Addr}
    (h : q.Inv qs (a :: ps) []) :
    ∃ n, q.msgpool = some a ∧ q.heap a = some n ∧
      Queue.Inv { q with msgpool := n.next, msgpoolLength := q.msgpoolLength - 1 } qs ps [a] := by
  obtain ⟨hpool, n, hn, rest⟩ := h.pool
  refine ⟨n, hpool, hn, h.queue, h.last, rest, h.length, ?_, ?_, ?_⟩
  · simp [h.poolLength]
  · have nodup := h.nodup
    rwa [List.nil_append, List.nodup_middle] at nodup
  · intro b
    rw [h.owned b]
    simp only [List.nil_append, List.mem_append, List.mem_cons, List.not_mem_nil, or_false]
    tauto

/-- A node is taken from the pool, or allocated, or there is none. -/
theorem getMsglist_spec {q : Queue α} {qs ps : List Addr} (h : q.Inv qs ps [])
    {malloc : Option (Addr × MsgNode α)} (fresh : ∀ r ∈ malloc, q.heap r.1 = none) :
    (malloc = none ∧ getMsglist q malloc = some (q, none)) ∨
      ∃ q' a ps', getMsglist q malloc = some (q', some a) ∧ q'.Inv qs ps' [a] ∧
        q'.msgs qs = q.msgs qs := by
  cases ps with
  | nil =>
    have hpool : q.msgpool = none := h.pool
    cases malloc with
    | none => exact .inl ⟨rfl, by simp [getMsglist, hpool]⟩
    | some r =>
      obtain ⟨a, n⟩ := r
      have free : q.heap a = none := fresh (a, n) rfl
      have out : a ∉ qs := by
        intro hm
        exact (h.owned a).2 (by simp [hm]) free
      refine .inr ⟨{ q with heap := Function.update q.heap a (some n) }, a, [], ?_, ?_,
        contents_update out _⟩
      · simp [getMsglist, hpool]
      refine ⟨h.queue.update out _, h.last, h.pool, h.length, h.poolLength, ?_, ?_⟩
      · simpa [out] using h.nodup
      · intro b
        by_cases hb : b = a
        · simp [hb]
        · simpa [hb] using h.owned b
  | cons a ps =>
    obtain ⟨n, hpool, hn, h'⟩ := h.popPool
    exact .inr ⟨_, a, ps, by simp [getMsglist, hpool, hn], h', rfl⟩

theorem Queue.Inv.store {q : Queue α} {qs ps : List Addr} {a : Addr} (h : q.Inv qs ps [a])
    (n : MsgNode α) :
    ∃ q', q.store a n = some q' ∧ q'.Inv qs ps [a] ∧ q'.msgs qs = q.msgs qs ∧
      q'.heap a = some n := by
  have held : q.heap a ≠ none := (h.owned a).2 (by simp)
  obtain ⟨n₀, hn₀⟩ := Option.ne_none_iff_exists'.1 held
  have out : a ∉ qs ++ ps := (List.nodup_cons.1 h.nodup).1
  rw [List.mem_append, not_or] at out
  refine ⟨{ q with heap := Function.update q.heap a (some n) }, by simp [Queue.store, hn₀], ?_,
    contents_update out.1 _, by simp⟩
  refine ⟨h.queue.update out.1 _, h.last, h.pool.update out.2 _, h.length, h.poolLength,
    h.nodup, ?_⟩
  intro b
  by_cases hb : b = a
  · simp [hb]
  · simpa [hb] using h.owned b

/-- The node that the operation holds is linked behind the last one. -/
theorem Queue.Inv.linkLast {q : Queue α} {qs ps : List Addr} {a : Addr} {n : MsgNode α}
    (h : q.Inv qs ps [a]) (hn : q.heap a = some n) (hnext : n.next = none) :
    ∃ q', linkLast q a = some q' ∧ q'.length = q.length ∧
      Queue.Inv { q' with length := q'.length + 1 } (qs ++ [a]) ps [] ∧
      q'.msgs (qs ++ [a]) = q.msgs qs ++ [(n.data, n.msgtype)] := by
  have owned : ∀ b, q.heap b ≠ none ↔ b ∈ [] ++ (qs ++ [a] ++ ps) := by
    intro b
    rw [h.owned b]
    simp only [List.nil_append, List.mem_append, List.mem_singleton]
    tauto
  have nodup : ([] ++ (qs ++ [a] ++ ps)).Nodup := by
    rw [List.nil_append, List.append_assoc, List.singleton_append, List.nodup_middle]
    exact h.nodup
  have length : q.length + 1 = ((qs ++ [a]).length : ℤ) := by
    rw [h.length]
    simp
  rcases List.eq_nil_or_concat' qs with rfl | ⟨as, l, rfl⟩
  · have hlast : q.last = none := h.last
    refine ⟨{ q with last := some a, first := some a }, by simp [Siproxy.linkLast, hlast], rfl,
      ⟨⟨rfl, n, hn, hnext⟩, rfl, h.pool, length, h.poolLength, nodup, owned⟩, ?_⟩
    simp [Queue.msgs, contents, hn]
  · have hlast : q.last = some l := by simp [h.last]
    obtain ⟨n₀, hn₀⟩ := Option.ne_none_iff_exists'.1 ((h.owned l).2 (by simp))
    have distinct := h.nodup
    simp only [List.singleton_append, List.append_assoc, List.nodup_cons, List.nodup_append,
      List.mem_append, List.mem_cons, not_or] at distinct
    have hal : a ≠ l := distinct.1.2.1
    have houtas : l ∉ as := fun hl => distinct.2.2.2 l hl l (.inl rfl) rfl
    have houtps : l ∉ ps := fun hl => distinct.2.2.1.1 hl
    let n₁ : MsgNode α := { n₀ with next := some a }
    refine ⟨{ q with heap := Function.update q.heap l (some n₁), last := some a },
      by simp [Siproxy.linkLast, Queue.store, hlast, hn₀, n₁], rfl, ?_, ?_⟩
    · refine ⟨?_, by simp, h.pool.update houtps _, length, h.poolLength, nodup, ?_⟩
      · refine h.queue.link (n := n₁) (c := n) ?_ (by simp) rfl (by simp [hal, hn]) hnext
        intro b hb
        exact Function.update_of_ne (ne_of_mem_of_not_mem hb houtas) _ _
      · intro b
        by_cases hb : b = l
        · simp [hb]
        · simpa [hb] using owned b
    · have same : contents (fun n : MsgNode α => (n.data, n.msgtype))
          (Function.update q.heap l (some n₁)) (as ++ [l]) = q.msgs (as ++ [l]) := by
        apply contents_congr
        intro b _
        by_cases hb : b = l
        · simp [hb, hn₀, n₁]
        · simp [hb]
      rw [Queue.msgs, contents_append, same]
      simp [contents, hal, hn]

theorem queueAdd_spec {q : Queue α} {qs ps : List Addr} (h : q.Inv qs ps [])
    {malloc : Option (Addr × MsgNode α)} (fresh : ∀ r ∈ malloc, q.heap r.1 = none)
    (data : Option α) (msgtype : ℤ) :
    (malloc = none ∧ queueAdd q malloc data msgtype = some (q, .enomem, false)) ∨
      ∃ q' a ps', queueAdd q malloc data msgtype = some (q', .zero, decide (q.length = 0)) ∧
        q'.Inv (qs ++ [a]) ps' [] ∧ q'.msgs (qs ++ [a]) = q.msgs qs ++ [(data, msgtype)] := by
  rcases getMsglist_spec h fresh with ⟨hm, hget⟩ | ⟨q₁, a, ps', hget, h₁, hmsgs₁⟩
  · exact .inl ⟨hm, by simp [queueAdd, hget]⟩
  · obtain ⟨q₂, hstore, h₂, hmsgs₂, hn⟩ := h₁.store ⟨data, msgtype, none⟩
    obtain ⟨q₃, hlink, hlen, h₃, hmsgs₃⟩ := h₂.linkLast hn rfl
    have length : q₃.length = q.length := by rw [hlen, h₂.length, h.length]
    refine .inr ⟨{ q₃ with length := q₃.length + 1 }, a, ps', ?_, h₃, ?_⟩
    · simp [queueAdd, hget, hstore, hlink, length]
    · rw [← hmsgs₁, ← hmsgs₂]
      exact hmsgs₃

theorem Queue.Inv.free {q : Queue α} {qs ps : List Addr} {a : Addr} (h : q.Inv qs ps [a]) :
    q.free a = some { q with heap := Function.update q.heap a none } ∧
      Queue.Inv { q with heap := Function.update q.heap a none } qs ps [] ∧
      Queue.msgs { q with heap := Function.update q.heap a none } qs = q.msgs qs := by
  obtain ⟨n, hn⟩ := Option.ne_none_iff_exists'.1 ((h.owned a).2 (by simp))
  have out : a ∉ qs ++ ps := (List.nodup_cons.1 h.nodup).1
  have nodup : (qs ++ ps).Nodup := (List.nodup_cons.1 h.nodup).2
  rw [List.mem_append, not_or] at out
  refine ⟨by simp [Queue.free, hn], ?_, contents_update out.1 _⟩
  refine ⟨h.queue.update out.1 _, h.last, h.pool.update out.2 _, h.length, h.poolLength, nodup,
    ?_⟩
  intro b
  by_cases hb : b = a
  · simp [hb, out]
  · simpa [hb] using h.owned b

theorem Queue.Inv.recycle {q : Queue α} {qs ps : List Addr} {a : Addr} (h : q.Inv qs ps [a]) :
    ∃ q' ps', recycle q a = some q' ∧ q'.Inv qs ps' [] ∧ q'.msgs qs = q.msgs qs := by
  unfold Siproxy.recycle
  split_ifs
  · obtain ⟨hfree, h', hmsgs⟩ := h.free
    exact ⟨_, ps, hfree, h', hmsgs⟩
  · obtain ⟨q', hstore, h', hmsgs, hn⟩ := h.store ⟨none, 0, q.msgpool⟩
    have pool : q'.msgpool = q.msgpool := by
      obtain ⟨n, -, rfl⟩ := Option.map_eq_some_iff.1 hstore
      rfl
    refine ⟨{ q' with msgpool := some a, msgpoolLength := q'.msgpoolLength + 1 }, a :: ps,
      by simp [hstore], ?_, hmsgs⟩
    refine ⟨h'.queue, h'.last, ⟨rfl, _, hn, pool ▸ h'.pool⟩, h'.length, ?_, ?_, ?_⟩
    · simp [h'.poolLength]
    · rw [List.nil_append, List.nodup_middle]
      exact h'.nodup
    · intro b
      rw [h'.owned b]
      simp only [List.nil_append, List.mem_append, List.mem_cons, List.not_mem_nil, or_false]
      tauto

theorem Queue.Inv.trim {q : Queue α} {qs ps : List Addr} (h : q.Inv qs ps []) :
    ∃ q' ps', trim q = some q' ∧ q'.Inv qs ps' [] ∧ q'.msgs qs = q.msgs qs := by
  unfold Siproxy.trim
  split_ifs with hlong
  · cases ps with
    | nil =>
      have nonneg : 0 ≤ q.length.tdiv 4 := Int.tdiv_nonneg (by simp [h.length]) (by decide)
      rw [h.poolLength, msgpoolSize] at hlong
      simp only [List.length_nil] at hlong
      omega
    | cons a ps =>
      obtain ⟨n, hpool, hn, h'⟩ := h.popPool
      obtain ⟨-, h', hmsgs⟩ := h'.free
      exact ⟨_, ps, by simp [hpool, hn, Queue.free], h', hmsgs⟩
  · exact ⟨q, ps, rfl, h, rfl⟩

theorem Queue.Inv.unlinkFirst {q : Queue α} {qs ps : List Addr} {a : Addr} {n : MsgNode α}
    (h : q.Inv (a :: qs) ps []) (hn : q.heap a = some n) :
    (unlinkFirst q n.next).Inv qs ps [a] := by
  obtain ⟨-, n', hn', rest⟩ := h.queue
  obtain rfl := Option.some.inj (hn.symm.trans hn')
  unfold Siproxy.unlinkFirst
  cases qs with
  | nil =>
    have hnext : n.next = none := rest
    rw [hnext]
    exact ⟨rfl, rfl, h.pool, rfl, h.poolLength, h.nodup, h.owned⟩
  | cons b qs =>
    have hnext : n.next = some b := rest.1
    rw [hnext] at rest ⊢
    refine ⟨rest, ?_, h.pool, ?_, h.poolLength, h.nodup, h.owned⟩
    · exact h.last.trans List.getLast?_cons_cons
    · simp [h.length]

/-- The spec of `queue_get`: a message is returned, unless there is none or the wait has timed
out. -/
theorem queueGet_spec {q : Queue α} {qs ps : List Addr} (h : q.Inv qs ps []) (timedOut : Bool) :
    (queueGet q timedOut = some (q, .waits) ∧ qs = []) ∨
      (queueGet q timedOut = some (q, .etimedout) ∧ timedOut = true) ∨
      ∃ q' a rest ps' m, queueGet q timedOut = some (q', .msg m) ∧ qs = a :: rest ∧
        q'.Inv rest ps' [] ∧ q.msgs qs = (m.data, m.msgtype) :: q'.msgs rest := by
  unfold queueGet
  cases timedOut with
  | true => exact .inr (.inl ⟨by simp, rfl⟩)
  | false =>
    cases qs with
    | nil =>
      have hfirst : q.first = none := h.queue
      exact .inl ⟨by simp [hfirst], rfl⟩
    | cons a rest =>
      obtain ⟨hfirst, n, hn, -⟩ := h.queue
      have unlinked := h.unlinkFirst hn
      obtain ⟨q₁, ps₁, hrec, h₁, hmsgs₁⟩ := unlinked.recycle
      obtain ⟨q₂, ps₂, htrim, h₂, hmsgs₂⟩ := h₁.trim
      have heap : (unlinkFirst q n.next).heap = q.heap := by
        unfold unlinkFirst
        split <;> rfl
      refine .inr (.inr ⟨q₂, a, rest, ps₂, ⟨n.data, n.msgtype,
        (BitVec.ofInt 32 (unlinkFirst q n.next).length).toInt⟩, ?_, rfl, h₂, ?_⟩)
      · simp [hfirst, hn, releaseMsglist, hrec, htrim]
      · rw [hmsgs₂, hmsgs₁, Queue.msgs, Queue.msgs, contents_cons hn, heap]

/-! ### Whole runs -/

/-- A critical section of some thread. -/
inductive QueueOp (α : Type) where
  | add (malloc : Option (Addr × MsgNode α)) (data : Option α) (msgtype : ℤ)
  | get (timedOut : Bool)

/-- How an operation returns. -/
inductive QueueOut (α : Type) where
  | added (data : Option α) (msgtype : ℤ)
  | enomem
  | got (m : Msg α)
  | etimedout
  deriving DecidableEq

/-- Why a run stops: what is asked for is not possible, or the memory is not used as it may be. -/
inductive Stuck where
  | impossible
  | fault
  deriving DecidableEq

/-- The node that the allocator hands out is not in use. -/
def Queue.canMalloc (q : Queue α) (malloc : Option (Addr × MsgNode α)) : Bool :=
  malloc.all fun r => (q.heap r.1).isNone

/-- One critical section; a thread that goes to sleep returns nothing. -/
def queueStep (q : Queue α) : QueueOp α → Except Stuck (Queue α × List (QueueOut α))
  | .add malloc data msgtype =>
    if q.canMalloc malloc then
      match queueAdd q malloc data msgtype with
      | none => .error .fault
      | some (q', .zero, _) => .ok (q', [.added data msgtype])
      | some (q', .enomem, _) => .ok (q', [.enomem])
    else .error .impossible
  | .get timedOut =>
    match queueGet q timedOut with
    | none => .error .fault
    | some (q', .waits) => .ok (q', [])
    | some (q', .etimedout) => .ok (q', [.etimedout])
    | some (q', .msg m) => .ok (q', [.got m])

/-- A recorded critical section. -/
abbrev QueueMove (α : Type) := Move (Queue α) (QueueOp α) (QueueOut α)

abbrev queueTrace (ops : List (QueueOp α)) : List (QueueMove α) := trace queueStep queueInit ops

/-- The message that an operation adds. -/
def QueueOut.added? : QueueOut α → Option (Option α × ℤ)
  | .added data msgtype => some (data, msgtype)
  | _ => none

/-- The message that an operation takes. -/
def QueueOut.got? : QueueOut α → Option (Option α × ℤ)
  | .got m => some (m.data, m.msgtype)
  | _ => none

/-- The messages added, in order. -/
def addedOf (tr : List (QueueMove α)) : List (Option α × ℤ) :=
  (tr.flatMap Move.outs).filterMap QueueOut.added?

/-- The messages taken, in order. -/
def takenOf (tr : List (QueueMove α)) : List (Option α × ℤ) :=
  (tr.flatMap Move.outs).filterMap QueueOut.got?

theorem addedOf_concat (tr : List (QueueMove α)) (m : QueueMove α) :
    addedOf (tr ++ [m]) = addedOf tr ++ m.outs.filterMap QueueOut.added? := by
  simp [addedOf]

theorem takenOf_concat (tr : List (QueueMove α)) (m : QueueMove α) :
    takenOf (tr ++ [m]) = takenOf tr ++ m.outs.filterMap QueueOut.got? := by
  simp [takenOf]

/-- Everything that one critical section can do to the lists. -/
theorem queueStep_spec {q : Queue α} {qs ps : List Addr} (h : q.Inv qs ps []) (op : QueueOp α) :
    queueStep q op = .error .impossible ∨
      (∃ outs, queueStep q op = .ok (q, outs) ∧
        outs.filterMap QueueOut.added? = [] ∧ outs.filterMap QueueOut.got? = []) ∨
      (∃ q' a ps' data msgtype, queueStep q op = .ok (q', [.added data msgtype]) ∧
        q'.Inv (qs ++ [a]) ps' [] ∧ q'.msgs (qs ++ [a]) = q.msgs qs ++ [(data, msgtype)]) ∨
      ∃ q' a rest ps' m, queueStep q op = .ok (q', [.got m]) ∧ qs = a :: rest ∧
        q'.Inv rest ps' [] ∧ q.msgs qs = (m.data, m.msgtype) :: q'.msgs rest := by
  cases op with
  | add malloc data msgtype =>
    by_cases can : q.canMalloc malloc = true
    · have fresh : ∀ r ∈ malloc, q.heap r.1 = none := by
        rintro r rfl
        simpa [Queue.canMalloc] using can
      rcases queueAdd_spec h fresh data msgtype with ⟨-, hadd⟩ | ⟨q', a, ps', hadd, h', hmsgs⟩
      · exact .inr (.inl ⟨[.enomem], by simp [queueStep, can, hadd], rfl, rfl⟩)
      · exact .inr (.inr (.inl ⟨q', a, ps', data, msgtype, by simp [queueStep, can, hadd], h',
          hmsgs⟩))
    · exact .inl (by simp [queueStep, can])
  | get timedOut =>
    rcases queueGet_spec h timedOut with ⟨hget, -⟩ | ⟨hget, -⟩ |
      ⟨q', a, rest, ps', m, hget, hqs, h', hmsgs⟩
    · exact .inr (.inl ⟨[], by simp [queueStep, hget], rfl, rfl⟩)
    · exact .inr (.inl ⟨[.etimedout], by simp [queueStep, hget], rfl, rfl⟩)
    · exact .inr (.inr (.inr ⟨q', a, rest, ps', m, by simp [queueStep, hget], hqs, h', hmsgs⟩))

/-- Memory is always used as it may be. -/
theorem queueStep_ne_fault {q : Queue α} {qs ps : List Addr} (h : q.Inv qs ps []) (op : QueueOp α) :
    queueStep q op ≠ .error .fault := by
  rcases queueStep_spec h op with hs | ⟨_, hs, -, -⟩ | ⟨_, _, _, _, _, hs, -, -⟩ |
    ⟨_, _, _, _, _, hs, -, -, -⟩ <;> simp [hs]

/-- The critical sections that are possible, by what they do. -/
theorem queueStep_cases {q q' : Queue α} {qs ps : List Addr} (h : q.Inv qs ps [])
    {op : QueueOp α} {outs : List (QueueOut α)} (taken : queueStep q op = .ok (q', outs)) :
    (q' = q ∧ outs.filterMap QueueOut.added? = [] ∧ outs.filterMap QueueOut.got? = []) ∨
      (∃ a ps' data msgtype, outs = [.added data msgtype] ∧ q'.Inv (qs ++ [a]) ps' [] ∧
        q'.msgs (qs ++ [a]) = q.msgs qs ++ [(data, msgtype)]) ∨
      ∃ a rest ps' m, outs = [.got m] ∧ qs = a :: rest ∧ q'.Inv rest ps' [] ∧
        q.msgs qs = (m.data, m.msgtype) :: q'.msgs rest := by
  rcases queueStep_spec h op with hs | ⟨outs', hs, hadd, hgot⟩ |
    ⟨q₁, a, ps', data, msgtype, hs, h', hmsgs⟩ | ⟨q₁, a, rest, ps', m, hs, hqs, h', hmsgs⟩
  all_goals
    rw [hs] at taken
    cases taken
  · exact .inl ⟨rfl, hadd, hgot⟩
  · exact .inr (.inl ⟨a, ps', data, msgtype, rfl, h', hmsgs⟩)
  · exact .inr (.inr ⟨a, rest, ps', m, rfl, hqs, h', hmsgs⟩)

/-- The two lists are in order. -/
def Queue.Sound (q : Queue α) : Prop := ∃ qs ps, q.Inv qs ps []

theorem queueInit_sound : (queueInit : Queue α).Sound := ⟨[], [], queueInit_inv⟩

theorem Queue.Sound.step {q q' : Queue α} (h : q.Sound) {op : QueueOp α}
    {outs : List (QueueOut α)} (taken : queueStep q op = .ok (q', outs)) : q'.Sound := by
  obtain ⟨qs, ps, inv⟩ := h
  rcases queueStep_cases inv taken with ⟨rfl, -⟩ | ⟨_, _, _, _, -, inv', -⟩ |
    ⟨_, _, _, _, -, -, inv', -⟩
  · exact ⟨qs, ps, inv⟩
  · exact ⟨_, _, inv'⟩
  · exact ⟨_, _, inv'⟩

/-- The lists are in order, and hold the messages that were added and not taken. -/
def Accounted (tr : List (QueueMove α)) (q : Queue α) : Prop :=
  ∃ qs ps, q.Inv qs ps [] ∧ addedOf tr = takenOf tr ++ q.msgs qs

theorem Accounted.concat {tr : List (QueueMove α)} {m : QueueMove α} (h : Accounted tr m.pre)
    (taken : queueStep m.pre m.input = .ok (m.post, m.outs)) : Accounted (tr ++ [m]) m.post := by
  obtain ⟨qs, ps, inv, hist⟩ := h
  unfold Accounted
  rw [addedOf_concat, takenOf_concat]
  rcases queueStep_cases inv taken with ⟨hq, hadd, hgot⟩ |
    ⟨a, ps', data, msgtype, ho, inv', hmsgs⟩ | ⟨a, rest, ps', msg, ho, rfl, inv', hmsgs⟩
  · rw [hq, hadd, hgot, List.append_nil, List.append_nil]
    exact ⟨qs, ps, inv, hist⟩
  · refine ⟨qs ++ [a], ps', inv', ?_⟩
    simp [ho, hist, hmsgs, QueueOut.added?, QueueOut.got?]
  · refine ⟨rest, ps', inv', ?_⟩
    simp [ho, hist, hmsgs, QueueOut.added?, QueueOut.got?]

/-- An operation that fails leaves the queue as it was. -/
theorem Queue.Sound.unchanged {q q' : Queue α} (h : q.Sound) {op : QueueOp α}
    {outs : List (QueueOut α)} (taken : queueStep q op = .ok (q', outs))
    (failed : .enomem ∈ outs ∨ .etimedout ∈ outs) : q' = q := by
  obtain ⟨qs, ps, inv⟩ := h
  rcases queueStep_cases inv taken with ⟨hq, -⟩ | ⟨_, _, _, _, rfl, -⟩ | ⟨_, _, _, _, rfl, -⟩
  · exact hq
  · simp at failed
  · simp at failed

/-- For all critical sections in any order, with any results of the allocator and any timeouts: the
memory is used as it may be; the list from `first` to `last` and the pool are disjoint, have the
counted lengths and are all that is allocated; the messages taken and then those queued are the
messages added, in order; and an operation that fails leaves the queue unchanged. -/
theorem queue_exact (ops : List (QueueOp α)) :
    halt? queueStep (queueInit : Queue α) ops ≠ some .fault ∧
    (∀ p q, queueTrace ops = p ++ q → ∃ qs ps,
      (final queueInit p).Inv qs ps [] ∧ addedOf p = takenOf p ++ (final queueInit p).msgs qs ∧
      ((final queueInit p).first = none ↔ (final queueInit p).last = none)) ∧
    ∀ m ∈ queueTrace ops, .enomem ∈ m.outs ∨ .etimedout ∈ m.outs → m.post = m.pre := by
  refine ⟨?_, ?_, ?_⟩
  · intro hfault
    obtain ⟨q, op, -, ⟨qs, ps, h⟩, herr⟩ := halt_cause Queue.Sound queueInit_sound
      (fun q op _ q' outs h taken => h.step taken) hfault
    exact queueStep_ne_fault h op herr
  · intro p q split
    obtain ⟨qs, ps, h, hist⟩ := trace_history Accounted ⟨[], [], queueInit_inv, rfl⟩
      (fun tr m _ h taken => h.concat taken) split
    exact ⟨qs, ps, h, hist, h.first_iff_last⟩
  · intro m hm failed
    obtain ⟨p, q, split⟩ := List.append_of_mem hm
    have sound := (trace_invariant Queue.Sound queueInit_sound
      (fun q op q' outs h taken => h.step taken) hm).1
    exact sound.unchanged (trace_split split).2 failed

end Siproxy
