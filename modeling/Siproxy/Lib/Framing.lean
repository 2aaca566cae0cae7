import Mathlib.Data.List.Basic
import Mathlib.Tactic.Common

/-!
# Frames of a stream

A stream of symbols is cut into frames.  A `Framing` looks at the symbols that have come and finds a
frame at their start, or that the frame is not complete, or that none can be there; what it has found
does not change with the symbols that come later.

`frames_append`: the frames of a stream are those of a part of it, followed by those of what this
part leaves over and the rest.
-/

/-- What is found at the start of a stream. -/
inductive Framing.Next (β α : Type) where
  | more
  | bad
  | frame (a : α) (rest : List β)
  deriving DecidableEq

structure Framing (β α : Type) where
  next : List β → Framing.Next β α
  shorter {l : List β} {a : α} {rest : List β} :
    next l = .frame a rest → rest.length < l.length
  frame_append {l : List β} {a : α} {rest : List β} (m : List β) :
    next l = .frame a rest → next (l ++ m) = .frame a (rest ++ m)
  bad_append {l : List β} (m : List β) : next l = .bad → next (l ++ m) = .bad

namespace Framing

variable {β α : Type} (F : Framing β α)

/-- The frames of a stream, and what is left over. -/
def split (l : List β) : List α × List β :=
  match h : F.next l with
  | .frame a rest =>
    have : rest.length < l.length := F.shorter h
    (a :: (split rest).1, (split rest).2)
  | _ => ([], l)
termination_by l.length

def frames (l : List β) : List α := (F.split l).1

/-- What the frames leave over. -/
def left (l : List β) : List β := (F.split l).2

variable {F} {l rest : List β} {a : α}

theorem split_frame (h : F.next l = .frame a rest) :
    F.frames l = a :: F.frames rest ∧ F.left l = F.left rest := by
  unfold frames left
  rw [split]
  split
  next a' rest' h' =>
    obtain ⟨rfl, rfl⟩ : a' = a ∧ rest' = rest := by
      rw [h] at h'
      cases h'
      exact ⟨rfl, rfl⟩
    exact ⟨rfl, rfl⟩
  next none => exact absurd h (none a rest)

theorem split_none (h : ∀ a rest, F.next l ≠ .frame a rest) : F.frames l = [] ∧ F.left l = l := by
  unfold frames left
  rw [split]
  split
  next a rest h' => exact absurd h' (h a rest)
  next => exact ⟨rfl, rfl⟩

theorem split_more (h : F.next l = .more) : F.frames l = [] ∧ F.left l = l :=
  split_none fun a rest h' => by
    rw [h] at h'
    cases h'

theorem split_bad (h : F.next l = .bad) : F.frames l = [] ∧ F.left l = l :=
  split_none fun a rest h' => by
    rw [h] at h'
    cases h'

/-- A stream that comes in two parts. -/
theorem split_append (l m : List β) :
    F.frames (l ++ m) = F.frames l ++ F.frames (F.left l ++ m) ∧
      F.left (l ++ m) = F.left (F.left l ++ m) := by
  induction hn : l.length using Nat.strongRecOn generalizing l with
  | ind n ih =>
    subst hn
    cases h : F.next l with
    | frame a rest =>
      obtain ⟨first, second⟩ := split_frame h
      obtain ⟨first', second'⟩ := split_frame (F.frame_append m h)
      obtain ⟨ihf, ihl⟩ := ih rest.length (F.shorter h) rest rfl
      rw [first, second, first', second', ihf, ihl]
      exact ⟨rfl, rfl⟩
    | more =>
      obtain ⟨first, second⟩ := split_more h
      rw [first, second]
      exact ⟨rfl, rfl⟩
    | bad =>
      obtain ⟨first, second⟩ := split_bad h
      rw [first, second]
      exact ⟨rfl, rfl⟩

theorem frames_append (l m : List β) :
    F.frames (l ++ m) = F.frames l ++ F.frames (F.left l ++ m) := (split_append l m).1

theorem left_append (l m : List β) : F.left (l ++ m) = F.left (F.left l ++ m) :=
  (split_append l m).2

end Framing
