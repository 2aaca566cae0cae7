import Siproxy.InPlace

/-!
# Environment variables

`_environ_telnet` decodes the variables of `ENVIRON` and `NEW-ENVIRON` in two passes over the
buffer: one that counts them and one that writes their names and values over the buffer while it
reads it.

`environ_decoded`: the entries are those of the text, cut at its marks and freed of its escapes
(`reference`); the two passes agree, and every access is inside the buffer, with the write position
behind the read position.
-/

namespace Siproxy.Telnet

open CString Escape

/-! ### The reference -/

/-- A character that is not escaped and is one of some bytes. -/
def bare (stop : Byte → Bool) (t : Tok Byte) : Bool := !t.2 && stop t.1

/-- `VAR` and `USERVAR`. -/
def isVar (b : Byte) : Bool := b = 0 || b = 3

/-- `VALUE`. -/
def isValue (b : Byte) : Bool := b = 1

/-- The entry of a piece: the type, the name up to the first `VALUE` and the value behind it. -/
def entry (seg : Tok Byte × List (Tok Byte)) : EnvValue :=
  ⟨seg.1.1, (seg.2.takeWhile (!bare isValue ·)).map Prod.fst,
    ((seg.2.dropWhile (!bare isValue ·)).drop 1).map Prod.fst⟩

/-- The pieces of a text; `ESC` is `2`. -/
def pieces (s : List Byte) : List (Tok Byte × List (Tok Byte)) :=
  segments (bare isVar) (lex (some 2) s)

/-- The entries of a text. -/
def reference (s : List Byte) : List EnvValue := (pieces s).map entry

/-! ### The checked parsing loop -/

/-- The bytes that end a name. -/
def endsName (b : Byte) : Bool := b = 0 || b = 1 || b = 3

/-- `environVars`, checked. -/
def environVars? (size : ℕ) : ℕ → Cursor → Option (List RangeValue × Cursor)
  | 0, k => some ([], k)
  | n + 1, k => do
    let type ← k.read? size
    let k₁ ← copyUntil? endsName (some 2) size { k with c := k.c + 1 }
    let k₂ ← k₁.write? 0 size
    let value ← k₂.looksAt? 1 size
    if value then
      let k₃ ← copyUntil? isVar (some 2) size { k₂ with c := k₂.c + 1 }
      let k₄ ← k₃.write? 0 size
      let rest ← environVars? size n k₄
      some (⟨type, (k.out, k₁.out - k.out), some (k₂.out, k₃.out - k₂.out)⟩ :: rest.1, rest.2)
    else
      let rest ← environVars? size n k₂
      some (⟨type, (k.out, k₁.out - k.out), none⟩ :: rest.1, rest.2)

/-! ### The copying loops -/

theorem getD_of_drop {buf : List Byte} {c : ℕ} {b : Byte} {s : List Byte}
    (h : buf.drop c = b :: s) : c < buf.length ∧ buf.getD c 0 = b := by
  have hc : c < buf.length := by
    by_contra hc
    rw [List.drop_eq_nil_of_le (not_lt.1 hc)] at h
    cases h
  rw [List.drop_eq_getElem_cons hc] at h
  exact ⟨hc, by simpa [hc] using (List.cons.inj h).1⟩

section Copy

variable {stop : Byte → Bool} {esc : Option Byte} {size : ℕ} {k : Cursor}

theorem copyUntil_end (h : ¬ k.c < size) :
    copyUntil? stop esc size k = some k ∧ copyUntil stop esc size k = k := by
  rw [copyUntil, copyUntil?, if_neg h, if_neg h]
  exact ⟨rfl, rfl⟩

theorem copyUntil_stop (gap : k.out < k.c) (hc : k.c < size)
    (h : stop (k.buf.getD k.c 0) = true) :
    copyUntil? stop esc size k = some k ∧ copyUntil stop esc size k = k := by
  rw [copyUntil, copyUntil?, if_pos hc, if_pos hc, if_pos h, Cursor.read?, if_pos ⟨gap, hc⟩]
  exact ⟨if_pos h, rfl⟩

/-- One round: the byte at `c` is copied, which is the current one or the one behind an escape. -/
theorem copyUntil_go (gap : k.out < k.c) (hc : k.c < size)
    (h : stop (k.buf.getD k.c 0) = false) {c : ℕ}
    (hesc : (if esc = some (k.buf.getD k.c 0) then k.c + 1 else k.c) = c) (hsize : c < size) :
    copyUntil? stop esc size k =
        copyUntil? stop esc size ⟨k.buf.set k.out (k.buf.getD c 0), c + 1, k.out + 1⟩ ∧
      copyUntil stop esc size k =
        copyUntil stop esc size ⟨k.buf.set k.out (k.buf.getD c 0), c + 1, k.out + 1⟩ := by
  have hstop : ¬ stop (k.buf.getD k.c 0) = true := by
    rw [h]
    decide
  have le : k.c ≤ c := by
    rw [← hesc]
    split <;> omega
  have gap' : k.out < c := lt_of_lt_of_le gap le
  have hout : k.out < size := by omega
  constructor
  · rw [copyUntil?, if_pos hc, Cursor.read?, if_pos ⟨gap, hc⟩]
    simp only [Option.bind_eq_bind, Option.bind_some, if_neg hstop, hesc, Cursor.read?,
      Cursor.write?, if_pos (And.intro gap' hsize), if_pos (And.intro gap' hout)]
  · rw [copyUntil, if_pos hc, if_neg hstop, hesc]

/-- A copying loop copies the characters up to the first one that stops it, or all of them. -/
theorem copyUntil_moves (hesc : ∀ e ∈ esc, stop e = false) {a r : List (Tok Byte)}
    (hr : AtMark (bare stop) r) (gap : k.out < k.c) (hsize : k.buf.length = size)
    (text : k.buf.drop k.c = unlex esc (a ++ r)) (proper : ∀ t ∈ a, Proper esc t)
    (go : ∀ t ∈ a, bare stop t = false) :
    copyUntil? stop esc size k = some (copyUntil stop esc size k) ∧
      Moves k (copyUntil stop esc size k) (unlex esc a).length (a.map Prod.fst) := by
  induction a generalizing k with
  | nil =>
    have stops : copyUntil? stop esc size k = some k ∧ copyUntil stop esc size k = k := by
      rcases r with _ | ⟨⟨b, e⟩, r⟩
      · -- the end of the buffer
        apply copyUntil_end
        intro hc
        rw [List.drop_eq_getElem_cons (hsize ▸ hc)] at text
        cases text
      · have hstop := hr (b, e) rfl
        cases e with
        | true => cases hstop
        | false =>
          obtain ⟨hc, hb⟩ := getD_of_drop text
          refine copyUntil_stop gap (hsize ▸ hc) ?_
          rw [hb]
          simpa [bare] using hstop
    rw [stops.1, stops.2]
    exact ⟨rfl, moves_self k⟩
  | cons t a ih =>
    rw [List.forall_mem_cons] at go proper
    -- one round, which reads `n` bytes and copies the last of them
    have round {n : ℕ} {b : Byte} (hn : 0 < n) (hlen : k.c + (n - 1) < size)
        (hb : k.buf.getD (k.c + (n - 1)) 0 = b)
        (rest : k.buf.drop (k.c + n) = unlex esc (a ++ r))
        (hgo : copyUntil? stop esc size k =
            copyUntil? stop esc size ⟨k.buf.set k.out b, k.c + n, k.out + 1⟩ ∧
          copyUntil stop esc size k =
            copyUntil stop esc size ⟨k.buf.set k.out b, k.c + n, k.out + 1⟩) :
        copyUntil? stop esc size k = some (copyUntil stop esc size k) ∧
          Moves k (copyUntil stop esc size k) (n + (unlex esc a).length)
            (b :: a.map Prod.fst) := by
      have step := Moves.write k b (by omega : k.out < k.c + n) (by omega)
      obtain ⟨checked, moves⟩ := @ih ⟨k.buf.set k.out b, k.c + n, k.out + 1⟩
        (by dsimp only; omega) (step.length.trans hsize) (step.unread.trans rest) proper.2 go.2
      rw [hgo.1, hgo.2]
      exact ⟨checked, step.trans moves⟩
    obtain ⟨b, e⟩ := t
    cases e with
    | false =>
      have htext : k.buf.drop k.c = b :: unlex esc (a ++ r) := text
      have hne : esc ≠ some b := fun heq => proper.1 heq.symm
      have hstop : stop b = false := by simpa [bare] using go.1
      obtain ⟨hc, hb⟩ := getD_of_drop htext
      rw [hsize] at hc
      have hgo := @copyUntil_go stop esc size k gap hc (by rw [hb]; exact hstop) k.c
        (if_neg (by rw [hb]; exact hne)) hc
      rw [hb] at hgo
      have rest : k.buf.drop (k.c + 1) = unlex esc (a ++ r) := by
        rw [← List.drop_drop, htext]
        rfl
      have moved := @round 1 b Nat.one_pos hc hb rest hgo
      rw [unlex_cons, List.length_append]
      exact moved
    | true =>
      obtain ⟨e, rfl⟩ := Option.isSome_iff_exists.1 proper.1
      have htext : k.buf.drop k.c = e :: b :: unlex (some e) (a ++ r) := text
      have hstop : stop e = false := hesc e rfl
      have hrest : k.buf.drop (k.c + 1) = b :: unlex (some e) (a ++ r) := by
        rw [← List.drop_drop, htext]
        rfl
      obtain ⟨hc, he⟩ := getD_of_drop htext
      obtain ⟨hc', hb⟩ := getD_of_drop hrest
      rw [hsize] at hc hc'
      have hgo := @copyUntil_go stop (some e) size k gap hc (by rw [he]; exact hstop) (k.c + 1)
        (if_pos (by rw [he])) hc'
      rw [hb] at hgo
      have rest : k.buf.drop (k.c + 2) = unlex (some e) (a ++ r) := by
        rw [← List.drop_drop, htext]
        rfl
      have moved := @round 2 b Nat.two_pos hc' hb rest hgo
      rw [unlex_cons, List.length_append]
      exact moved

/-- A copying loop and the terminator behind the copy: the write position stays behind. -/
structure Copied (stop : Byte → Bool) (esc : Option Byte) (size : ℕ) (k : Cursor)
    (a : List (Tok Byte)) : Prop where
  checked : copyUntil? stop esc size k = some (copyUntil stop esc size k)
  terminated : (copyUntil stop esc size k).write? 0 size = some (copyUntil stop esc size k).nul
  moves : Moves k (copyUntil stop esc size k).nul (unlex esc a).length (a.map Prod.fst ++ [0])
  written : (copyUntil stop esc size k).out - k.out = (a.map Prod.fst).length
  inside : (copyUntil stop esc size k).nul.c ≤ size
  gap : (copyUntil stop esc size k).nul.out < (copyUntil stop esc size k).nul.c

theorem copied (hesc : ∀ e ∈ esc, stop e = false) {a r : List (Tok Byte)}
    (hr : AtMark (bare stop) r) (gap : k.out + 1 < k.c) (hsize : k.buf.length = size)
    (inside : k.c ≤ size) (text : k.buf.drop k.c = unlex esc (a ++ r))
    (proper : ∀ t ∈ a, Proper esc t) (go : ∀ t ∈ a, bare stop t = false) :
    Copied stop esc size k a := by
  obtain ⟨checked, moves⟩ := copyUntil_moves hesc hr (by omega) hsize text proper go
  have hout := moves.out
  have hc := moves.c
  have short := length_le_unlex esc a
  have all := congrArg List.length text
  rw [List.length_drop, hsize, unlex_append, List.length_append] at all
  rw [List.length_map] at hout
  have step := Moves.nul (copyUntil stop esc size k) (by omega) (by rw [moves.length]; omega)
  refine ⟨checked, ?_, moves.trans step, ?_, ?_, ?_⟩
  · rw [Cursor.write?, if_pos ⟨by omega, by omega⟩]
    rfl
  · rw [List.length_map]
    omega
  · show (copyUntil stop esc size k).c ≤ size
    omega
  · show (copyUntil stop esc size k).out + 1 < (copyUntil stop esc size k).c
    omega

end Copy

/-! ### The parsing loop -/

theorem atMark_name {body r : List (Tok Byte)} (hr : AtMark (bare isVar) r) :
    AtMark (bare endsName) (body.dropWhile (!bare isValue ·) ++ r) := by
  intro t ht
  have weaken {stop : Byte → Bool} (h : bare stop t = true)
      (sub : ∀ b, stop b = true → endsName b = true) : bare endsName t = true := by
    unfold bare at h ⊢
    rw [Bool.and_eq_true] at h ⊢
    exact ⟨h.1, sub _ h.2⟩
  rcases hbody : body.dropWhile (!bare isValue ·) with _ | ⟨t', ts⟩
  · rw [hbody] at ht
    exact weaken (hr t ht) (by simp +contextual [isVar, endsName])
  · rw [hbody] at ht
    cases ht
    have hvalue := atMark_dropWhile body t (by rw [hbody]; rfl)
    exact weaken hvalue (by simp +contextual [isValue, endsName])

theorem looksAt?_eq {size : ℕ} {k : Cursor} (gap : k.out < k.c) (b : Byte) :
    k.looksAt? b size = some (decide (k.c < size ∧ k.buf.getD k.c 0 = b)) := by
  unfold Cursor.looksAt?
  by_cases hc : k.c < size
  · rw [if_pos hc, Cursor.read?, if_pos ⟨gap, hc⟩, Option.map_some]
    simp only [hc, true_and]
    rfl
  · rw [if_neg hc]
    simp [hc]

theorem no_value {k : Cursor} {ts : List (Tok Byte)} (hts : AtMark (bare isVar) ts)
    (text : k.buf.drop k.c = unlex (some 2) ts) :
    ¬ (k.c < k.buf.length ∧ k.buf.getD k.c 0 = 1) := by
  rintro ⟨hc, hone⟩
  rcases ts with _ | ⟨⟨b, e⟩, ts⟩
  · rw [List.drop_eq_getElem_cons hc] at text
    cases text
  · have hvar := hts (b, e) rfl
    cases e with
    | true => cases hvar
    | false =>
      rw [(getD_of_drop text).2] at hone
      subst hone
      cases hvar

section Round

variable {size : ℕ} {k : Cursor} {type : Byte} {body rest : List (Tok Byte)}

theorem bare_of_name (hbody : ∀ t ∈ body, bare isVar t = false) {t : Tok Byte}
    (ht : t ∈ body.takeWhile (!bare isValue ·)) : bare endsName t = false := by
  have hvar := hbody t ((List.takeWhile_sublist _).subset ht)
  have hval := List.mem_takeWhile_imp ht
  obtain ⟨b, e⟩ := t
  cases e <;> simp_all [bare, isVar, isValue, endsName]

theorem copied_name (hbody : ∀ t ∈ body, bare isVar t = false) (hrest : AtMark (bare isVar) rest)
    (proper : ∀ t ∈ body, Proper (some 2) t) (gap : k.out < k.c) (hsize : k.buf.length = size)
    (text : k.buf.drop k.c = type :: unlex (some 2) (body ++ rest)) :
    k.read? size = some type ∧ k.buf.getD k.c 0 = type ∧
      Copied endsName (some 2) size { k with c := k.c + 1 }
        (body.takeWhile (!bare isValue ·)) ∧
      (copyUntil endsName (some 2) size { k with c := k.c + 1 }).nul.buf.drop
          (copyUntil endsName (some 2) size { k with c := k.c + 1 }).nul.c =
        unlex (some 2) (body.dropWhile (!bare isValue ·) ++ rest) := by
  obtain ⟨hc, htype⟩ := getD_of_drop text
  rw [hsize] at hc
  have text₁ : k.buf.drop (k.c + 1) = unlex (some 2)
      (body.takeWhile (!bare isValue ·) ++ (body.dropWhile (!bare isValue ·) ++ rest)) := by
    rw [← List.append_assoc, List.takeWhile_append_dropWhile, ← List.drop_drop, text]
    rfl
  have named : Copied endsName (some 2) size { k with c := k.c + 1 }
      (body.takeWhile (!bare isValue ·)) := by
    refine copied (by simp [endsName]) (atMark_name hrest) ?_ hsize hc text₁ ?_ ?_
    · show k.out + 1 < k.c + 1
      omega
    · exact fun t ht => proper t ((List.takeWhile_sublist _).subset ht)
    · exact fun t ht => bare_of_name hbody ht
  rw [unlex_append] at text₁
  exact ⟨by rw [Cursor.read?, if_pos ⟨gap, hc⟩, htype], htype, named, named.moves.rest rfl text₁⟩

theorem environVars_succ (size n : ℕ) (k : Cursor) :
    environVars size (n + 1) k =
      let k₁ := copyUntil endsName (some 2) size { k with c := k.c + 1 }
      if k₁.nul.c < size ∧ k₁.nul.buf.getD k₁.nul.c 0 = 1 then
        let k₃ := copyUntil isVar (some 2) size { k₁.nul with c := k₁.nul.c + 1 }
        (⟨k.buf.getD k.c 0, (k.out, k₁.out - k.out), some (k₁.nul.out, k₃.out - k₁.nul.out)⟩ ::
          (environVars size n k₃.nul).1, (environVars size n k₃.nul).2)
      else
        (⟨k.buf.getD k.c 0, (k.out, k₁.out - k.out), none⟩ :: (environVars size n k₁.nul).1,
          (environVars size n k₁.nul).2) := rfl

theorem environVars?_succ (size n : ℕ) (k : Cursor) :
    environVars? size (n + 1) k =
      (k.read? size).bind fun type =>
        (copyUntil? endsName (some 2) size { k with c := k.c + 1 }).bind fun k₁ =>
          (k₁.write? 0 size).bind fun k₂ =>
            (k₂.looksAt? 1 size).bind fun value =>
              if value then
                (copyUntil? isVar (some 2) size { k₂ with c := k₂.c + 1 }).bind fun k₃ =>
                  (k₃.write? 0 size).bind fun k₄ =>
                    (environVars? size n k₄).bind fun rest =>
                      some (⟨type, (k.out, k₁.out - k.out),
                        some (k₂.out, k₃.out - k₂.out)⟩ :: rest.1, rest.2)
              else
                (environVars? size n k₂).bind fun rest =>
                  some (⟨type, (k.out, k₁.out - k.out), none⟩ :: rest.1, rest.2) := rfl

/-- One round of the parsing loop, for the piece `seg` of the text: the value `v` that it adds, and
the cursor `k'` it leaves. -/
structure Round (size : ℕ) (k : Cursor) (seg : Tok Byte × List (Tok Byte)) (v : RangeValue)
    (k' : Cursor) : Prop where
  loop : ∀ n, environVars size (n + 1) k =
    (v :: (environVars size n k').1, (environVars size n k').2)
  checked : ∀ n, environVars? size (n + 1) k =
    (environVars? size n k').map fun r => (v :: r.1, r.2)
  moves : ∃ w, Moves k k' (unlex (some 2) (seg.1 :: seg.2)).length w
  gap : k'.out < k'.c
  inside : k'.c ≤ size
  value : ∀ k'' raw w, Moves k' k'' raw w → v.read k''.buf = entry seg

theorem round_name (hbody : ∀ t ∈ body, bare isVar t = false) (hrest : AtMark (bare isVar) rest)
    (proper : ∀ t ∈ body, Proper (some 2) t) (gap : k.out < k.c) (hsize : k.buf.length = size)
    (text : k.buf.drop k.c = type :: unlex (some 2) (body ++ rest))
    (none : body.dropWhile (!bare isValue ·) = []) :
    ∃ v k', Round size k ((type, false), body) v k' := by
  obtain ⟨hread, htype, named, text₂⟩ := copied_name hbody hrest proper gap hsize text
  have all : body.takeWhile (!bare isValue ·) = body := by
    rw [← List.append_nil (body.takeWhile _), ← none, List.takeWhile_append_dropWhile]
  rw [all] at named
  rw [none, List.nil_append] at text₂
  obtain ⟨k₁, hk₁⟩ : ∃ k₁, k₁ = copyUntil endsName (some 2) size { k with c := k.c + 1 } :=
    ⟨_, rfl⟩
  obtain ⟨checked, terminated, moves, written, inside, gap'⟩ := named
  rw [← hk₁] at checked terminated moves written inside gap' text₂
  have whole : Moves k k₁.nul (1 + (unlex (some 2) body).length) (body.map Prod.fst ++ [0]) :=
    (Moves.skip k 1).trans moves
  have look := @looksAt?_eq size k₁.nul gap' 1
  have novalue : ¬ (k₁.nul.c < size ∧ k₁.nul.buf.getD k₁.nul.c 0 = 1) := by
    have := no_value hrest text₂
    rwa [whole.length.trans hsize] at this
  rw [decide_eq_false novalue] at look
  refine ⟨⟨type, (k.out, k₁.out - k.out), Option.none⟩, k₁.nul, ?_, ?_,
    ⟨body.map Prod.fst ++ [0], ?_⟩, gap', inside, ?_⟩
  · intro n
    rw [environVars_succ, ← hk₁, if_neg novalue, htype]
  · intro n
    rw [environVars?_succ]
    simp only [hread, checked, terminated, look, Option.bind_some, Bool.false_eq_true, if_false]
    exact (Option.map_eq_bind ..).symm
  · rw [unlex_cons, List.length_append]
    exact whole
  · intro k'' raw w later
    have final := whole.trans later
    rw [List.append_assoc, ← List.nil_append (body.map _ ++ _), ← List.append_assoc] at final
    have hc := (getD_of_drop text).1
    have name := final.range_eq (by omega)
    have hlen : k₁.out - k.out = (body.map Prod.fst).length := written
    rw [RangeValue.read, entry, all, none, hlen]
    exact congrArg (EnvValue.mk type · []) name

/-- An entry whose name ends before its text does has a `VALUE` there. -/
theorem split_value {t : Tok Byte} {val : List (Tok Byte)}
    (h : body.dropWhile (!bare isValue ·) = t :: val) :
    t = (1, false) ∧ body.takeWhile (!bare isValue ·) ++ (1, false) :: val = body := by
  have ht : t = (1, false) := by
    have mark := @atMark_dropWhile _ (bare isValue) body t (by rw [h]; rfl)
    obtain ⟨b, e⟩ := t
    cases e <;> simp_all [bare, isValue]
  subst ht
  exact ⟨rfl, by rw [← h, List.takeWhile_append_dropWhile]⟩

theorem copied_value {val : List (Tok Byte)} (hval : ∀ t ∈ val, bare isVar t = false)
    (hrest : AtMark (bare isVar) rest) (proper : ∀ t ∈ val, Proper (some 2) t) (gap : k.out < k.c)
    (hsize : k.buf.length = size) (text : k.buf.drop k.c = 1 :: unlex (some 2) (val ++ rest)) :
    (k.c < size ∧ k.buf.getD k.c 0 = 1) ∧
      Copied isVar (some 2) size { k with c := k.c + 1 } val := by
  obtain ⟨hc, hone⟩ := getD_of_drop text
  rw [hsize] at hc
  have behind : k.buf.drop (k.c + 1) = unlex (some 2) (val ++ rest) := by
    rw [← List.drop_drop, text]
    rfl
  exact ⟨⟨hc, hone⟩,
    copied (by simp [isVar]) hrest (Nat.succ_lt_succ gap) hsize hc behind proper hval⟩

theorem round_value (hbody : ∀ t ∈ body, bare isVar t = false) (hrest : AtMark (bare isVar) rest)
    (proper : ∀ t ∈ body, Proper (some 2) t) (gap : k.out < k.c) (hsize : k.buf.length = size)
    (text : k.buf.drop k.c = type :: unlex (some 2) (body ++ rest)) {t : Tok Byte}
    {val : List (Tok Byte)} (hvalue : body.dropWhile (!bare isValue ·) = t :: val) :
    ∃ v k', Round size k ((type, false), body) v k' := by
  obtain ⟨hread, htype, named, text₂⟩ := copied_name hbody hrest proper gap hsize text
  obtain ⟨rfl, hsplit⟩ := split_value hvalue
  obtain ⟨name, hname⟩ : ∃ name, name = body.takeWhile (!bare isValue ·) := ⟨_, rfl⟩
  rw [← hname] at hsplit
  rw [← hname] at named
  rw [hvalue] at text₂
  obtain ⟨k₁, hk₁⟩ : ∃ k₁, k₁ = copyUntil endsName (some 2) size { k with c := k.c + 1 } :=
    ⟨_, rfl⟩
  obtain ⟨checked, terminated, moves, written, inside, gap'⟩ := named
  rw [← hk₁] at checked terminated moves written inside gap' text₂
  have name_moves : Moves k k₁.nul (1 + (unlex (some 2) name).length)
      (name.map Prod.fst ++ [0]) := (Moves.skip k 1).trans moves
  have hval : ∀ t ∈ val, t ∈ body := fun t ht => by
    rw [← hsplit]
    exact List.mem_append_right _ (List.mem_cons_of_mem _ ht)
  obtain ⟨found, valued⟩ := copied_value (fun t ht => hbody t (hval t ht)) hrest
    (fun t ht => proper t (hval t ht)) gap' (name_moves.length.trans hsize) text₂
  have look := @looksAt?_eq size k₁.nul gap' 1
  rw [decide_eq_true found] at look
  obtain ⟨k₃, hk₃⟩ : ∃ k₃, k₃ = copyUntil isVar (some 2) size { k₁.nul with c := k₁.nul.c + 1 } :=
    ⟨_, rfl⟩
  obtain ⟨checked₃, terminated₃, moves₃, written₃, inside₃, gap₃⟩ := valued
  rw [← hk₃] at checked₃ terminated₃ moves₃ written₃ inside₃ gap₃
  have value_moves : Moves k₁.nul k₃.nul (1 + (unlex (some 2) val).length)
      (val.map Prod.fst ++ [0]) := (Moves.skip k₁.nul 1).trans moves₃
  have whole := name_moves.trans value_moves
  refine ⟨⟨type, (k.out, k₁.out - k.out), some (k₁.nul.out, k₃.out - k₁.nul.out)⟩, k₃.nul, ?_, ?_,
    ⟨name.map Prod.fst ++ [0] ++ (val.map Prod.fst ++ [0]), ?_⟩, gap₃, inside₃, ?_⟩
  · intro n
    rw [environVars_succ, ← hk₁, if_pos found, ← hk₃, htype]
  · intro n
    rw [environVars?_succ]
    simp only [hread, checked, terminated, look, checked₃, terminated₃, Option.bind_some, if_true]
    exact (Option.map_eq_bind ..).symm
  · have raw : (unlex (some 2) ((type, false) :: body)).length =
        1 + (unlex (some 2) name).length + (1 + (unlex (some 2) val).length) := by
      rw [unlex_cons, List.length_append, ← hsplit, unlex_append, unlex_cons, List.length_append,
        List.length_append]
      simp only [spell, List.length_singleton]
      omega
    rw [raw]
    exact whole
  · intro k'' raw w later
    have hc := (getD_of_drop text).1
    have hout : k₁.nul.out = k.out + (name.map Prod.fst ++ [0]).length := name_moves.out
    have hlen : k₁.out - k.out = (name.map Prod.fst).length := written
    have hlen₃ : k₃.out - k₁.nul.out = (val.map Prod.fst).length := written₃
    have first : range k''.buf (k.out, (name.map Prod.fst).length) = name.map Prod.fst := by
      have final := whole.trans later
      rw [← List.nil_append (name.map Prod.fst)] at final
      simp only [List.append_assoc] at final
      rw [← List.append_assoc] at final
      exact final.range_eq (by omega)
    have second : range k''.buf (k₁.nul.out, (val.map Prod.fst).length) = val.map Prod.fst := by
      have final := whole.trans later
      rw [← List.append_assoc, List.append_assoc _ [0] w] at final
      rw [hout]
      exact final.range_eq (by omega)
    rw [RangeValue.read, entry, ← hname, hvalue, hlen, first, hlen₃]
    exact congrArg (EnvValue.mk type _ ·) second

end Round

/-- The rounds of the parsing loop, one for each piece of the text. -/
theorem environVars_moves (size : ℕ) {segs : List (Tok Byte × List (Tok Byte))}
    (hmark : ∀ seg ∈ segs, bare isVar seg.1 = true)
    (hbody : ∀ seg ∈ segs, ∀ t ∈ seg.2, bare isVar t = false)
    (proper : ∀ t ∈ join segs, Proper (some 2) t) {k : Cursor} (gap : k.out < k.c)
    (hsize : k.buf.length = size) (text : k.buf.drop k.c = unlex (some 2) (join segs)) :
    environVars? size segs.length k = some (environVars size segs.length k) ∧
      (environVars size segs.length k).2.out < (environVars size segs.length k).2.c ∧
      (∃ w, Moves k (environVars size segs.length k).2 (unlex (some 2) (join segs)).length w) ∧
      (environVars size segs.length k).1.map (·.read (environVars size segs.length k).2.buf) =
        segs.map entry := by
  induction segs generalizing k with
  | nil => exact ⟨rfl, gap, ⟨[], moves_self k⟩, rfl⟩
  | cons seg segs ih =>
    obtain ⟨⟨type, e⟩, body⟩ := seg
    rw [List.forall_mem_cons] at hmark hbody
    cases e with
    | true => cases hmark.1
    | false =>
      have hrest := atMark_join hmark.2
      have proper' : ∀ t ∈ body ++ join segs, Proper (some 2) t := fun t ht =>
        proper t (List.mem_cons_of_mem _ ht)
      have text' : k.buf.drop k.c = type :: unlex (some 2) (body ++ join segs) := text
      have round : ∃ v k', Round size k ((type, false), body) v k' := by
        have hproper : ∀ t ∈ body, Proper (some 2) t := fun t ht =>
          proper' t (List.mem_append_left _ ht)
        cases hvalue : body.dropWhile (!bare isValue ·) with
        | nil => exact round_name hbody.1 hrest hproper gap hsize text' hvalue
        | cons t val => exact round_value hbody.1 hrest hproper gap hsize text' hvalue
      obtain ⟨v, k', loop, checked, ⟨w, moves⟩, gap', inside', value⟩ := round
      have rest : k'.buf.drop k'.c = unlex (some 2) (join segs) := by
        apply moves.rest rfl
        rw [← unlex_append]
        exact text
      obtain ⟨checked', gap'', ⟨w', moves'⟩, values⟩ := ih hmark.2 hbody.2
        (fun t ht => proper' t (List.mem_append_right _ ht)) gap' (moves.length.trans hsize) rest
      rw [List.length_cons, loop, checked, checked']
      refine ⟨rfl, gap'', ⟨w ++ w', ?_⟩, ?_⟩
      · have raw : (unlex (some 2) (join (((type, false), body) :: segs))).length =
            (unlex (some 2) ((type, false) :: body)).length +
              (unlex (some 2) (join segs)).length := by
          rw [← List.length_append, ← unlex_append]
          rfl
        rw [raw]
        exact moves.trans moves'
      · rw [List.map_cons, List.map_cons, values, value _ _ _ moves']

/-! ### The counting loop -/

theorem environCount_eq (s : List Byte) :
    environCount s = (lex (some 2) s).countP (bare isVar) := by
  fun_induction environCount s with
  | case1 => rfl
  | case2 b h => simp [lex, bare, isVar, h]
  | case3 b h => simp [lex, bare, isVar, h]
  | case4 b x s h ih =>
    have hesc : ¬ some b = some 2 := by
      rcases h with rfl | rfl <;> decide
    simp [lex, hesc, ih, bare, isVar, h]
  | case5 x s h ih => simp [lex, ih, bare]
  | case6 b x s h hesc ih => simp [lex, hesc, ih, bare, isVar, h]

theorem atMark_lex {type : Byte} (htype : type = 0 ∨ type = 3) (s : List Byte) :
    AtMark (bare isVar) (lex (some 2) (type :: s)) := by
  intro tok htok
  have hesc : ¬ some type = some 2 := by
    rcases htype with rfl | rfl <;> decide
  have hhead : tok = (type, false) := by
    cases s with
    | nil => simpa [lex, eq_comm] using htok
    | cons x s => simpa [lex, hesc, eq_comm] using htok
  subst hhead
  rcases htype with rfl | rfl <;> rfl

/-- The two passes over a content that passes the checks. -/
theorem environ_passes {buf s : List Byte} {cmd type : Byte} (hbuf : buf = cmd :: type :: s)
    (htype : type = 0 ∨ type = 3) (hlast : buf.getLast? ≠ some 2) {n : ℕ}
    (hn : n = environCount (type :: s)) :
    n = (pieces (type :: s)).length ∧
      environVars? buf.length n ⟨buf, 1, 0⟩ = some (environVars buf.length n ⟨buf, 1, 0⟩) ∧
      (environVars buf.length n ⟨buf, 1, 0⟩).2.c = buf.length ∧
      (environVars buf.length n ⟨buf, 1, 0⟩).2.out < (environVars buf.length n ⟨buf, 1, 0⟩).2.c ∧
      (environVars buf.length n ⟨buf, 1, 0⟩).1.map
        (·.read (environVars buf.length n ⟨buf, 1, 0⟩).2.buf) = reference (type :: s) := by
  have closed : Closed (some 2) (type :: s) := by
    rintro e he hend
    cases he
    rw [hbuf, List.getLast?_cons_cons] at hlast
    exact hlast hend
  have marked := atMark_lex htype s
  have count : n = (pieces (type :: s)).length := by
    rw [hn, environCount_eq, pieces, length_segments marked]
  have text : (buf.drop 1) = unlex (some 2) (join (pieces (type :: s))) := by
    rw [pieces, join_segments, unlex_lex closed, hbuf]
    rfl
  obtain ⟨checked, gap, ⟨w, moves⟩, values⟩ := @environVars_moves buf.length
    (pieces (type :: s)) (fun seg => mark_of_mem_segments marked)
    (fun seg => not_mark_of_mem_segments)
    (fun tok htok => by
      rw [pieces, join_segments] at htok
      exact proper_of_mem_lex closed htok)
    ⟨buf, 1, 0⟩ Nat.one_pos rfl text
  rw [← count] at checked gap moves values
  have hend := moves.c
  rw [← text, List.length_drop] at hend
  have two : 2 ≤ buf.length := by simp [hbuf]
  refine ⟨count, checked, ?_, gap, values⟩
  rw [hend]
  show 1 + (buf.length - 1) = buf.length
  omega

section Checks

variable {t : Tracker} {cmd type : Byte} {s : List Byte} (hbuf : t.buffer = cmd :: type :: s)
  (hcmd : cmd = 0 ∨ cmd = 1 ∨ cmd = 2) (htype : type = 0 ∨ type = 3)

include hbuf hcmd htype

theorem environTelnet_typed :
    (environTelnet t).2.2 =
      if t.buffer.getLast? = some 2 then
        [.warning ("telopt " ++ toString t.sbTelopt.toNat ++ " subneg ends with ESC")]
      else if t.allocOk then
        let vars := environVars t.buffer.length (environCount (type :: s)) ⟨t.buffer, 1, 0⟩
        [.environ cmd (vars.1.map (·.read vars.2.buf))]
      else [.warning "calloc() failed: Cannot allocate memory"] := by
  have valid : ¬ (cmd ≠ 1 ∧ cmd ≠ 0 ∧ cmd ≠ 2) := by
    rcases hcmd with rfl | rfl | rfl <;> decide
  have typed : ¬ (type ≠ 0 ∧ type ≠ 3) := by
    rcases htype with rfl | rfl <;> decide
  simp only [environTelnet, hbuf, if_neg valid, if_neg typed]
  split_ifs <;> rfl

/-- What is raised for a content that passes the checks. -/
theorem environTelnet_valid (hlast : t.buffer.getLast? ≠ some 2) :
    (environTelnet t).2.2 =
      if t.allocOk then [.environ cmd (reference (type :: s))]
      else [.warning "calloc() failed: Cannot allocate memory"] := by
  obtain ⟨-, -, -, -, values⟩ := environ_passes hbuf htype hlast rfl
  rw [environTelnet_typed hbuf hcmd htype, if_neg hlast, ← values]

end Checks

/-- For every content that passes the three checks of `_environ_telnet`: it raises the entries of
the text as they are written, the counting loop finds as many of them as there are, and the parsing
loop makes no access outside the buffer, keeps the write position behind the read position, and
reads to the end of the buffer. -/
theorem environ_decoded (t : Tracker) (cmd type : Byte) (s : List Byte)
    (hbuf : t.buffer = cmd :: type :: s) (hcmd : cmd = 0 ∨ cmd = 1 ∨ cmd = 2)
    (htype : type = 0 ∨ type = 3) (hlast : t.buffer.getLast? ≠ some 2) :
    (environTelnet t).2.2 =
        (if t.allocOk then [.environ cmd (reference (type :: s))]
        else [.warning "calloc() failed: Cannot allocate memory"]) ∧
      environCount (type :: s) = (reference (type :: s)).length ∧
      ∃ vars k, environVars? t.buffer.length (environCount (type :: s)) ⟨t.buffer, 1, 0⟩ =
          some (vars, k) ∧
        environVars t.buffer.length (environCount (type :: s)) ⟨t.buffer, 1, 0⟩ = (vars, k) ∧
        k.c = t.buffer.length ∧ k.out < k.c := by
  obtain ⟨count, checked, hend, gap, -⟩ := environ_passes hbuf htype hlast rfl
  exact ⟨environTelnet_valid hbuf hcmd htype hlast, by rw [count, reference, List.length_map], _, _,
    checked, rfl, hend, gap⟩

/-- A variable whose value has an escaped `VALUE`, and a user variable without a value. -/
theorem environ_decoded_sample :
    (environTelnet { telnetInit [] false [] with
        buffer := [0, 0, 65, 1, 2, 1, 66, 3, 67] }).2.2 =
      [.environ 0 [⟨0, [65], [1, 66]⟩, ⟨3, [67], []⟩]] := by
  have decoded := (environ_decoded
    { telnetInit [] false [] with buffer := [0, 0, 65, 1, 2, 1, 66, 3, 67] } 0 0
    [65, 1, 2, 1, 66, 3, 67] rfl (.inl rfl) (.inl rfl) (by decide)).1
  apply decoded.trans
  simp [telnetInit, Tracker.allocOk, reference, pieces, lex, segments, entry, bare, isVar, isValue]

end Siproxy.Telnet
