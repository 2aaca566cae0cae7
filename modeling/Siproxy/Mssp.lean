import Siproxy.Environ

/-!
# Server status

`_mssp_telnet` counts the `VAL` bytes of its content and fills an entry when it has read the value
behind one.  A value is only read if there is a byte behind its `VAL`.

`mssp_iff`: the event has the entries of the content, one for each `VAL`, exactly if the content
does not end with one; the last entry has no name and no value otherwise.
-/

namespace Siproxy.Telnet

open CString Escape

/-! ### The reference -/

/-- `VAR` and `VAL`. -/
def isMssp (b : Byte) : Bool := b = 1 || b = 2

/-- The entries of the pieces of a content, behind the name `var`. -/
def msspEntries : List Byte → List (Byte × List Byte) → List EnvValue
  | _, [] => []
  | var, (m, body) :: segs =>
    if m = 1 then msspEntries body segs else ⟨0, var, body⟩ :: msspEntries var segs

/-- The entries of a content. -/
def msspReference (s : List Byte) : List EnvValue := msspEntries [] (segments isMssp s)

/-- The pieces that the loop reads: the last one only if there is something behind its mark. -/
def readPieces : List (Byte × List Byte) → List (Byte × List Byte)
  | [] => []
  | seg :: segs => if seg.2 = [] ∧ segs = [] then [] else seg :: readPieces segs

/-- The pieces of a content: each begins with a mark and has no other. -/
structure Pieces (segs : List (Byte × List Byte)) : Prop where
  mark : ∀ seg ∈ segs, isMssp seg.1 = true
  body : ∀ seg ∈ segs, ∀ b ∈ seg.2, isMssp b = false

theorem Pieces.tail {seg : Byte × List Byte} {segs : List (Byte × List Byte)}
    (h : Pieces (seg :: segs)) : Pieces segs :=
  ⟨fun x hx => h.mark x (List.mem_cons_of_mem _ hx),
    fun x hx => h.body x (List.mem_cons_of_mem _ hx)⟩

theorem length_msspEntries {segs : List (Byte × List Byte)} (h : Pieces segs) (var : List Byte) :
    (msspEntries var segs).length = (join segs).count 2 := by
  induction segs generalizing var with
  | nil => rfl
  | cons seg segs ih =>
    obtain ⟨m, body⟩ := seg
    have hm := h.mark _ List.mem_cons_self
    have hbody : body.count 2 = 0 := List.count_eq_zero.2 fun hmem => by
      cases h.body _ List.mem_cons_self 2 hmem
    have hjoin : (join ((m, body) :: segs)).count 2 = [m].count 2 + (join segs).count 2 := by
      rw [join, List.flatMap_cons, List.count_append, List.count_cons, hbody, List.count_singleton,
        Nat.zero_add]
      rfl
    rw [hjoin, msspEntries]
    by_cases h1 : m = 1
    · subst h1
      rw [if_pos rfl, ih h.tail]
      simp
    · have h2 : m = 2 := by simpa [isMssp, h1] using hm
      subst h2
      rw [if_neg h1, List.length_cons, ih h.tail]
      simp [Nat.add_comm]

/-- A value is missing exactly where the content ends with a `VAL`. -/
theorem msspEntries_readPieces {segs : List (Byte × List Byte)} (h : Pieces segs)
    (var : List Byte) :
    ((join segs).getLast? ≠ some 2 → msspEntries var (readPieces segs) = msspEntries var segs) ∧
      ((join segs).getLast? = some 2 →
        (msspEntries var (readPieces segs)).length < (msspEntries var segs).length) := by
  induction segs generalizing var with
  | nil => exact ⟨fun _ => rfl, fun h2 => by cases h2⟩
  | cons seg segs ih =>
    obtain ⟨m, body⟩ := seg
    have hm := h.mark _ List.mem_cons_self
    have hjoin : join ((m, body) :: segs) = m :: (body ++ join segs) := by simp [join]
    by_cases hlast : body = [] ∧ segs = []
    · obtain ⟨rfl, rfl⟩ := hlast
      by_cases h1 : m = 1
      · subst h1
        exact ⟨fun _ => rfl, fun h2 => by cases h2⟩
      · have h2 : m = 2 := by simpa [isMssp, h1] using hm
        subst h2
        exact ⟨fun hne => absurd rfl hne, fun _ => Nat.one_pos⟩
    · have behind : (join ((m, body) :: segs)).getLast? = some 2 ↔
          (join segs).getLast? = some 2 := by
        rw [hjoin]
        cases segs with
        | nil =>
          have hbody : body ≠ [] := fun hbody => hlast ⟨hbody, rfl⟩
          constructor
          · intro h2
            rw [show join ([] : List (Byte × List Byte)) = [] from rfl, List.append_nil] at h2
            have hmem : 2 ∈ body := by
              obtain ⟨x, xs, rfl⟩ := List.exists_cons_of_ne_nil hbody
              rw [List.getLast?_cons_cons] at h2
              exact List.mem_of_getLast? h2
            cases h.body _ List.mem_cons_self 2 hmem
          · intro h2
            cases h2
        | cons seg segs =>
          have hne : join (seg :: segs) ≠ [] := by simp [join]
          rw [← List.cons_append, List.getLast?_append_of_ne_nil _ hne]
      have step : readPieces ((m, body) :: segs) = (m, body) :: readPieces segs := if_neg hlast
      rw [step, Ne, behind, msspEntries, msspEntries]
      split_ifs
      · exact ih h.tail body
      · obtain ⟨same, less⟩ := ih h.tail var
        exact ⟨fun hne => by rw [same hne], fun heq => Nat.succ_lt_succ (less heq)⟩

/-! ### The loop -/

/-- A range that later writes leave alone. -/
def Kept (k : Cursor) (r : ℕ × ℕ) (x : List Byte) : Prop :=
  ∀ k' raw w, Moves k k' raw w → range k'.buf r = x

theorem Kept.later {k k' : Cursor} {r : ℕ × ℕ} {x : List Byte} (h : Kept k r x) {raw : ℕ}
    {w : List Byte} (moves : Moves k k' raw w) : Kept k' r x :=
  fun k'' _ _ moves' => h k'' _ _ (moves.trans moves')

theorem msspLoop_end {size : ℕ} {k : Cursor} (h : ¬ k.c < size) (m : Byte)
    (var : Option (ℕ × ℕ)) (values : List RangeValue) :
    msspLoop size k m var values = some (values, k) := by
  rw [msspLoop, if_neg h]

/-- The text of a piece: what the loop copies before it looks at the next mark. -/
theorem mssp_copied {size : ℕ} {k : Cursor} {body : List Byte} {segs : List (Byte × List Byte)}
    (hbody : ∀ b ∈ body, isMssp b = false) (h : Pieces segs) (gap : k.out < k.c)
    (hc : k.c < size) (hsize : k.buf.length = size) (text : k.buf.drop k.c = body ++ join segs) :
    Moves k (copyUntil isMssp none size k).nul body.length (body ++ [0]) ∧
      (copyUntil isMssp none size k).out = k.out + body.length ∧
      (copyUntil isMssp none size k).nul.buf.drop (copyUntil isMssp none size k).nul.c =
        join segs := by
  have marked : AtMark (bare isMssp) (plain (join segs)) := by
    intro t ht
    rw [plain, List.head?_map] at ht
    obtain ⟨b, hb, rfl⟩ := Option.map_eq_some_iff.1 ht
    exact atMark_join h.mark b hb
  have text' : k.buf.drop k.c = unlex none (plain body ++ plain (join segs)) := by
    rw [unlex_append, unlex_plain, unlex_plain, text]
  have proper : ∀ t ∈ plain body, Proper none t := by
    intro t ht
    obtain ⟨b, -, rfl⟩ := List.mem_map.1 ht
    exact Option.some_ne_none b
  have go : ∀ t ∈ plain body, bare isMssp t = false := by
    intro t ht
    obtain ⟨b, hb, rfl⟩ := List.mem_map.1 ht
    exact hbody b hb
  have noEsc : ∀ e ∈ (none : Option Byte), isMssp e = false := fun e he => by cases he
  obtain ⟨-, moves⟩ := copyUntil_moves noEsc marked gap hsize text' proper go
  rw [unlex_plain, map_fst_plain] at moves
  have hout := moves.out
  have hc' := moves.c
  have all := congrArg List.length text
  rw [List.length_drop, List.length_append, hsize] at all
  have terminator := Moves.nul (copyUntil isMssp none size k) (by omega)
    (by rw [moves.length]; omega)
  have whole := moves.trans terminator
  exact ⟨whole, hout, whole.rest rfl text⟩

/-- What the loop does from a cursor on: it adds the entries of some pieces, behind a name. -/
def Adds (size : ℕ) (k : Cursor) (m : Byte) (var : Option (ℕ × ℕ)) (name : List Byte)
    (segs : List (Byte × List Byte)) : Prop :=
  ∀ values, ∃ vals k' raw w, msspLoop size k m var values = some (values ++ vals, k') ∧
    Moves k k' raw w ∧ vals.map (·.read k'.buf) = msspEntries name segs

/-- The cursor behind a piece and the byte at which the loop looks next. -/
def behindPiece (size : ℕ) (k : Cursor) : Cursor × Byte :=
  let k₂ := (copyUntil isMssp none size k).nul
  ({ k₂ with c := k₂.c + 1 }, k₂.buf.getD k₂.c 0)

/-- One round: the piece is a name, or it is a value and completes an entry. -/
theorem mssp_round {size : ℕ} {segs : List (Byte × List Byte)} {m : Byte} {body : List Byte}
    (h : Pieces ((m, body) :: segs)) {k : Cursor} {var : Option (ℕ × ℕ)} {name : List Byte}
    (hvar : m = 1 ∨ ∃ r, var = some r ∧ Kept k r name) (gap : k.out < k.c) (hc : k.c < size)
    (hsize : k.buf.length = size) (text : k.buf.drop k.c = body ++ join segs)
    {segs' : List (Byte × List Byte)}
    (rest : ∀ r x, Kept (behindPiece size k).1 r x →
      Adds size (behindPiece size k).1 (behindPiece size k).2 (some r) x segs') :
    Adds size k m var name ((m, body) :: segs') := by
  intro values
  obtain ⟨moves, hout, -⟩ := mssp_copied (h.body _ List.mem_cons_self) h.tail gap hc hsize text
  have round : Moves k (behindPiece size k).1 (body.length + 1) (body ++ [0]) := by
    have skipped := moves.trans (Moves.skip _ 1)
    rwa [List.append_nil] at skipped
  have kept :
      Kept (behindPiece size k).1 (k.out, (copyUntil isMssp none size k).out - k.out) body := by
    intro k' raw w later
    have whole := round.trans later
    rw [← List.nil_append body, List.append_assoc] at whole
    have := whole.range_eq (by omega)
    rw [hout, Nat.add_sub_cancel_left]
    exact this
  by_cases h1 : m = 1
  · obtain ⟨vals, k', raw, w, loop, moves', reads⟩ := rest _ _ kept values
    refine ⟨vals, k', _, _, ?_, round.trans moves', ?_⟩
    · rw [msspLoop, if_pos hc]
      simp only [if_pos h1]
      exact loop
    · rw [msspEntries, if_pos h1]
      exact reads
  · have h2 : m = 2 := by simpa [isMssp, h1] using h.mark _ List.mem_cons_self
    obtain ⟨r, rfl, hname⟩ := hvar.resolve_left h1
    let v : RangeValue := ⟨0, r, some (k.out, (copyUntil isMssp none size k).out - k.out)⟩
    obtain ⟨vals, k', raw, w, loop, moves', reads⟩ := rest _ _ (hname.later round) (values ++ [v])
    refine ⟨v :: vals, k', _, _, ?_, round.trans moves', ?_⟩
    · rw [msspLoop, if_pos hc]
      simp only [if_neg h1, if_pos h2]
      rw [← List.append_cons] at loop
      exact loop
    · have hv : v.read k'.buf = ⟨0, name, body⟩ := by
        have hvalue := kept _ _ _ moves'
        rw [RangeValue.read, (hname.later round) _ _ _ moves']
        exact congrArg (EnvValue.mk 0 name ·) hvalue
      rw [msspEntries, if_neg h1, List.map_cons, reads, hv]

/-- After a round, the write position is behind the read position again. -/
theorem behindPiece_gap {size : ℕ} {segs : List (Byte × List Byte)} {m : Byte} {body : List Byte}
    (h : Pieces ((m, body) :: segs)) {k : Cursor} (gap : k.out < k.c) (hc : k.c < size)
    (hsize : k.buf.length = size) (text : k.buf.drop k.c = body ++ join segs) :
    (behindPiece size k).1.out < (behindPiece size k).1.c ∧
      (behindPiece size k).1.buf.length = size ∧
      (behindPiece size k).1.c = k.c + body.length + 1 := by
  obtain ⟨moves, -, -⟩ := mssp_copied (h.body _ List.mem_cons_self) h.tail gap hc hsize text
  have hout := moves.out
  have hc' := moves.c
  rw [List.length_append, List.length_singleton] at hout
  refine ⟨?_, moves.length.trans hsize, congrArg (· + 1) hc'⟩
  show (copyUntil isMssp none size k).nul.out < (copyUntil isMssp none size k).nul.c + 1
  omega

/-- The loop adds the entries of the pieces that it reads, behind a name that is kept. -/
theorem msspLoop_adds {size : ℕ} {segs : List (Byte × List Byte)} {m : Byte} {body : List Byte}
    (h : Pieces ((m, body) :: segs)) {k : Cursor} {var : Option (ℕ × ℕ)} {name : List Byte}
    (hvar : m = 1 ∨ ∃ r, var = some r ∧ Kept k r name) (gap : k.out < k.c)
    (hsize : k.buf.length = size) (text : k.buf.drop k.c = body ++ join segs) :
    Adds size k m var name (readPieces ((m, body) :: segs)) := by
  induction segs generalizing m body k var name with
  | nil =>
    have all := congrArg List.length text
    rw [List.length_drop, List.length_append, hsize] at all
    have empty : (join ([] : List (Byte × List Byte))).length = 0 := rfl
    by_cases hbody : body = []
    · -- nothing behind the mark
      subst hbody
      have hend : ¬ k.c < size := by
        rw [empty] at all
        simp at all
        omega
      intro values
      refine ⟨[], k, 0, [], ?_, moves_self k, ?_⟩
      · rw [msspLoop_end hend, List.append_nil]
      · rw [readPieces, if_pos ⟨rfl, rfl⟩]
        rfl
    · have hpos := List.length_pos_iff.2 hbody
      have hc : k.c < size := by omega
      rw [readPieces, if_neg fun hlast => hbody hlast.1]
      apply mssp_round h hvar gap hc hsize text
      intro r x _ values
      obtain ⟨-, -, hend⟩ := behindPiece_gap h gap hc hsize text
      refine ⟨[], _, 0, [], ?_, moves_self _, rfl⟩
      rw [msspLoop_end (by omega), List.append_nil]
  | cons seg segs ih =>
    obtain ⟨m', body'⟩ := seg
    have hjoin : join ((m', body') :: segs) = m' :: (body' ++ join segs) := by simp [join]
    have hc : k.c < size := by
      have all := congrArg List.length text
      rw [List.length_drop, List.length_append, hsize, hjoin, List.length_cons] at all
      omega
    rw [readPieces, if_neg fun hlast => List.cons_ne_nil _ _ hlast.2]
    apply mssp_round h hvar gap hc hsize text
    intro r x kept
    obtain ⟨-, -, hrest⟩ := mssp_copied (h.body _ List.mem_cons_self) h.tail gap hc hsize text
    obtain ⟨next_gap, next_size, -⟩ := behindPiece_gap h gap hc hsize text
    rw [hjoin] at hrest
    have hmark : (behindPiece size k).2 = m' := (getD_of_drop hrest).2
    have text' : (behindPiece size k).1.buf.drop (behindPiece size k).1.c = body' ++ join segs := by
      show (copyUntil isMssp none size k).nul.buf.drop
        ((copyUntil isMssp none size k).nul.c + 1) = _
      rw [← List.drop_drop, hrest]
      rfl
    rw [hmark]
    exact ih h.tail (.inr ⟨r, rfl, kept⟩) next_gap next_size text'

/-! ### The event -/

/-- The event that a content calls for. -/
def MsspRaised (t : Tracker) : Prop :=
  (msspTelnet t).2.2 =
    if t.allocOk then [.mssp ((msspReference t.buffer).map some)]
    else [.warning "calloc() failed: Cannot allocate memory"]

/-- A content that begins with a `VAR` is made of pieces. -/
theorem pieces_segments {s : List Byte} : Pieces (segments isMssp (1 :: s)) := by
  have marked : AtMark isMssp (1 :: s) := by
    intro b hb
    cases hb
    rfl
  exact ⟨fun seg => mark_of_mem_segments marked, fun seg => not_mark_of_mem_segments⟩

/-- One entry for each `VAL` is made, and those of the pieces that the loop reads are filled. -/
theorem msspTelnet_events {t : Tracker} {s : List Byte} (hbuf : t.buffer = 1 :: s) :
    (msspTelnet t).2.2 =
      if t.allocOk then
        [.mssp ((msspEntries [] (readPieces (segments isMssp t.buffer))).map some ++
          List.replicate (t.buffer.count 2 -
            (msspEntries [] (readPieces (segments isMssp t.buffer))).length) none)]
      else [.warning "calloc() failed: Cannot allocate memory"] := by
  have pieces : Pieces (segments isMssp t.buffer) := hbuf ▸ pieces_segments
  have hjoin : join (segments isMssp t.buffer) = t.buffer := join_segments _
  obtain ⟨body, segs, hsegs⟩ : ∃ body segs, segments isMssp t.buffer = (1, body) :: segs := by
    rw [hbuf, segments]
    exact ⟨_, _, rfl⟩
  have text : t.buffer.drop 1 = body ++ join segs := by
    rw [hsegs] at hjoin
    rw [← hjoin]
    simp [join]
  rw [hsegs] at pieces
  obtain ⟨vals, k', raw, w, loop, -, reads⟩ := @msspLoop_adds t.buffer.length segs 1 body pieces
    ⟨t.buffer, 1, 0⟩ none [] (.inl rfl) Nat.one_pos rfl text []
  rw [List.nil_append] at loop
  rw [← hsegs] at reads
  have first : ¬ (1 : Byte) ≠ 1 := by decide
  rw [hbuf] at loop reads ⊢
  simp only [msspTelnet, hbuf, if_neg first, loop]
  rw [← reads, List.map_map, List.length_map]
  split_ifs <;> rfl

/-- For every content that begins with a `VAR`: there is one entry for each `VAL`; the event has
these entries, exactly if there is no memory for them or the content does not end with a `VAL`; and
the content is never found to be invalid. -/
theorem mssp_iff (t : Tracker) (s : List Byte) (hbuf : t.buffer = 1 :: s) :
    (msspReference t.buffer).length = t.buffer.count 2 ∧
      (MsspRaised t ↔ (t.allocOk = true → t.buffer.getLast? ≠ some 2)) ∧
      .warning "invalid MSSP subnegotiation data" ∉ (msspTelnet t).2.2 := by
  have pieces : Pieces (segments isMssp t.buffer) := hbuf ▸ pieces_segments
  have hjoin : join (segments isMssp t.buffer) = t.buffer := join_segments _
  have count : (msspEntries [] (segments isMssp t.buffer)).length = t.buffer.count 2 := by
    rw [length_msspEntries pieces, hjoin]
  obtain ⟨same, less⟩ := msspEntries_readPieces pieces []
  rw [hjoin] at same less
  refine ⟨count, ?_, ?_⟩
  · unfold MsspRaised
    rw [msspTelnet_events hbuf]
    by_cases ok : t.allocOk = true
    · rw [if_pos ok, if_pos ok]
      by_cases hlast : t.buffer.getLast? = some 2
      · -- the last entry was counted and not filled
        have short := less hlast
        refine iff_of_false ?_ fun h => h ok hlast
        intro heq
        have values := TelnetEvent.mssp.inj (List.singleton_inj.1 heq)
        have hnone : none ∈ (msspReference t.buffer).map some := by
          rw [← values]
          exact List.mem_append_right _ (List.mem_replicate.2 ⟨by omega, rfl⟩)
        obtain ⟨v, -, hv⟩ := List.mem_map.1 hnone
        cases hv
      · refine iff_of_true ?_ fun _ => hlast
        rw [same hlast, count, Nat.sub_self, List.replicate_zero, List.append_nil, msspReference]
    · rw [if_neg ok, if_neg ok]
      exact iff_of_true rfl fun h => absurd h ok
  · rw [msspTelnet_events hbuf]
    split_ifs <;> simp

/-- A name with two values. -/
theorem mssp_sample :
    (msspTelnet { telnetInit [] false [] with buffer := [1, 65, 2, 66, 2, 67] }).2.2 =
      [.mssp [some ⟨0, [65], [66]⟩, some ⟨0, [65], [67]⟩]] := by
  have raised := (mssp_iff { telnetInit [] false [] with buffer := [1, 65, 2, 66, 2, 67] }
    [65, 2, 66, 2, 67] rfl).2.1.2 (by decide)
  apply Eq.trans raised
  simp [telnetInit, Tracker.allocOk, msspReference, segments, msspEntries, isMssp]

/-- A name with an empty value: the entry is empty. -/
theorem not_mssp_sample :
    ¬ MsspRaised { telnetInit [] false [] with buffer := [1, 65, 2] } := by
  have event : (msspTelnet { telnetInit [] false [] with buffer := [1, 65, 2] }).2.2 =
      [.mssp [none]] := by
    simp [msspTelnet, telnetInit, Tracker.allocOk, msspLoop, copyUntil, Cursor.nul]
  rw [MsspRaised, event]
  simp [telnetInit, Tracker.allocOk, msspReference, segments, msspEntries, isMssp]

end Siproxy.Telnet
