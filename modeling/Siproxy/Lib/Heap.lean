import Mathlib.Data.List.Nodup
import Mathlib.Logic.Function.Basic
import Mathlib.Tactic.Common

/-!
# Linked lists in memory

Nodes have an identity, their address, and hold a pointer to the next node.  `Chain next mem p as`
says that the list that starts at the pointer `p` runs through the nodes `as` and ends there.
-/

namespace Heap

/-- The identity of a node. -/
abbrev Addr := ℕ

/-- The nodes that are allocated. -/
abbrev Memory (ν : Type) := Addr → Option ν

variable {ν μ : Type} {next : ν → Option Addr} {mem mem' : Memory ν} {p : Option Addr}

/-- The list that starts at a pointer runs through these nodes. -/
def Chain (next : ν → Option Addr) (mem : Memory ν) : Option Addr → List Addr → Prop
  | p, [] => p = none
  | p, a :: as => p = some a ∧ ∃ n, mem a = some n ∧ Chain next mem (next n) as

theorem Chain.none_iff {as : List Addr} (h : Chain next mem p as) : p = none ↔ as = [] := by
  cases as with
  | nil => exact ⟨fun _ => rfl, fun _ => h⟩
  | cons a as => simp [h.1]

/-- Only the nodes of a list matter for it. -/
theorem Chain.congr {as : List Addr} (same : ∀ a ∈ as, mem' a = mem a)
    (h : Chain next mem p as) : Chain next mem' p as := by
  induction as generalizing p with
  | nil => exact h
  | cons a as ih =>
    obtain ⟨hp, n, hn, rest⟩ := h
    refine ⟨hp, n, ?_, ?_⟩
    · rw [same a List.mem_cons_self, hn]
    · exact ih (fun b hb => same b (List.mem_cons_of_mem _ hb)) rest

theorem Chain.update {as : List Addr} {a : Addr} (h : Chain next mem p as) (out : a ∉ as)
    (n : Option ν) : Chain next (Function.update mem a n) p as :=
  h.congr fun _ hb => Function.update_of_ne (ne_of_mem_of_not_mem hb out) _ _

/-- The last node of a list is made to point to a new one. -/
theorem Chain.link {as : List Addr} {l a : Addr} {n c : ν}
    (same : ∀ b ∈ as, mem' b = mem b) (hl : mem' l = some n) (hn : next n = some a)
    (ha : mem' a = some c) (hc : next c = none) (h : Chain next mem p (as ++ [l])) :
    Chain next mem' p (as ++ [l] ++ [a]) := by
  induction as generalizing p with
  | nil => exact ⟨h.1, n, hl, hn, c, ha, hc⟩
  | cons b as ih =>
    obtain ⟨hp, m, hm, rest⟩ := h
    refine ⟨hp, m, ?_, ?_⟩
    · rw [same b List.mem_cons_self, hm]
    · exact ih (fun x hx => same x (List.mem_cons_of_mem _ hx)) rest

/-- What the nodes of a list hold. -/
def contents (f : ν → μ) (mem : Memory ν) (as : List Addr) : List μ :=
  as.filterMap fun a => (mem a).map f

theorem contents_append (f : ν → μ) (mem : Memory ν) (as bs : List Addr) :
    contents f mem (as ++ bs) = contents f mem as ++ contents f mem bs :=
  List.filterMap_append

theorem contents_cons {f : ν → μ} {a : Addr} {n : ν} (h : mem a = some n) (as : List Addr) :
    contents f mem (a :: as) = f n :: contents f mem as := by
  simp [contents, h]

theorem contents_congr {f : ν → μ} {as : List Addr}
    (same : ∀ a ∈ as, (mem' a).map f = (mem a).map f) :
    contents f mem' as = contents f mem as :=
  List.filterMap_congr same

theorem contents_update {f : ν → μ} {as : List Addr} {a : Addr} (out : a ∉ as) (n : Option ν) :
    contents f (Function.update mem a n) as = contents f mem as :=
  contents_congr fun _ hb => by rw [Function.update_of_ne (ne_of_mem_of_not_mem hb out)]

end Heap
