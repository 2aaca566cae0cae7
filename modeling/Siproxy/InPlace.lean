import Siproxy.Lib.Escape
import Siproxy.Telnet

/-!
# Decoding in place

The decoders of `telnet.c` write what they read back into the buffer, from its start on.  `Moves`
tells what a part of a decoder has done: how far the read position went and what was written, while
the bytes that are still to be read and those written before stay as they are.

The functions with a `?` are the loops once more, with every access checked: it has to be inside the
buffer, with the write position strictly behind the read position.
-/

namespace Siproxy.Telnet

open CString Escape

/-! ### Checked accesses -/

/-- `*c`. -/
def Cursor.read? (size : ℕ) (k : Cursor) : Option Byte :=
  if k.out < k.c ∧ k.c < size then some (k.buf.getD k.c 0) else none

/-- `c < buffer + size && *c == b`. -/
def Cursor.looksAt? (b : Byte) (size : ℕ) (k : Cursor) : Option Bool :=
  if k.c < size then (k.read? size).map (· == b) else some false

/-- `*out++ = b`. -/
def Cursor.write? (b : Byte) (size : ℕ) (k : Cursor) : Option Cursor :=
  if k.out < k.c ∧ k.out < size then
    some { k with buf := k.buf.set k.out b, out := k.out + 1 }
  else none

/-- `copyUntil`, checked. -/
def copyUntil? (stop : Byte → Bool) (esc : Option Byte) (size : ℕ) (k : Cursor) : Option Cursor :=
  if k.c < size then do
    let b ← k.read? size
    if stop b then some k
    else
      let c := if esc = some b then k.c + 1 else k.c
      let b' ← Cursor.read? size { k with c := c }
      let k' ← Cursor.write? b' size { k with c := c }
      copyUntil? stop esc size { k' with c := c + 1 }
  else some k
termination_by size - k.c
decreasing_by
  split <;> omega

/-! ### What a part of a decoder does -/

/-- From `k` to `k'`, `raw` bytes were read and `written` was written. -/
structure Moves (k k' : Cursor) (raw : ℕ) (written : List Byte) : Prop where
  c : k'.c = k.c + raw
  out : k'.out = k.out + written.length
  length : k'.buf.length = k.buf.length
  unread : k'.buf.drop k'.c = k.buf.drop k'.c
  kept : k'.buf.take k'.out = k.buf.take k.out ++ written

theorem moves_self (k : Cursor) : Moves k k 0 [] := ⟨rfl, rfl, rfl, rfl, by simp⟩

namespace Moves

variable {k k' k'' : Cursor} {raw raw' : ℕ} {w w' : List Byte}

theorem trans (h : Moves k k' raw w) (h' : Moves k' k'' raw' w') :
    Moves k k'' (raw + raw') (w ++ w') where
  c := by rw [h'.c, h.c, Nat.add_assoc]
  out := by rw [h'.out, h.out, List.length_append, Nat.add_assoc]
  length := h'.length.trans h.length
  unread := by
    have later : k''.c = k'.c + raw' := h'.c
    rw [h'.unread, later, ← List.drop_drop, h.unread, List.drop_drop]
  kept := by rw [h'.kept, h.kept, List.append_assoc]

theorem skip (k : Cursor) (n : ℕ) : Moves k { k with c := k.c + n } n [] :=
  ⟨rfl, rfl, rfl, rfl, by simp⟩

theorem write (k : Cursor) (b : Byte) {n : ℕ} (hc : k.out < k.c + n)
    (hsize : k.out < k.buf.length) :
    Moves k ⟨k.buf.set k.out b, k.c + n, k.out + 1⟩ n [b] where
  c := rfl
  out := rfl
  length := List.length_set
  unread := List.drop_set_of_lt hc
  kept := by
    have here : k.out < (k.buf.set k.out b).length := by simpa using hsize
    show (k.buf.set k.out b).take (k.out + 1) = _
    rw [List.take_add_one, List.take_set_of_le le_rfl, List.getElem?_eq_getElem here]
    simp

theorem nul (k : Cursor) (hc : k.out < k.c) (hsize : k.out < k.buf.length) :
    Moves k k.nul 0 [0] := @write k 0 0 hc hsize

theorem rest (h : Moves k k' raw w) {x r : List Byte} (hx : x.length = raw)
    (text : k.buf.drop k.c = x ++ r) : k'.buf.drop k'.c = r := by
  rw [h.unread, h.c, ← hx, ← List.drop_drop, text, List.drop_left]

theorem range_eq {w₀ x w₁ : List Byte} (h : Moves k k' raw (w₀ ++ x ++ w₁))
    (hout : k.out ≤ k.buf.length) : range k'.buf (k.out + w₀.length, x.length) = x := by
  have before : (k.buf.take k.out ++ w₀).length = k.out + w₀.length := by
    rw [List.length_append, List.length_take, min_eq_left hout]
  have bound : x.length ≤ k'.out - (k.out + w₀.length) := by
    rw [h.out, List.length_append, List.length_append]
    omega
  have cut := congrArg (fun l => (l.drop (k.out + w₀.length)).take x.length) h.kept
  simp only [List.drop_take, List.take_take, min_eq_left bound] at cut
  rw [range, cut, ← before, List.append_assoc, ← List.append_assoc, List.drop_left,
    List.take_left]

end Moves

end Siproxy.Telnet
