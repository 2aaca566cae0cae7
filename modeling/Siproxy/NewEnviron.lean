import Siproxy.Environ
import Siproxy.SendSb

/-!
# Sending environment variables

`telnet_begin_newenviron` and `telnet_newenviron_value` write the variables of a `NEW-ENVIRON`
command between the marks that `_environ_telnet` looks for, and escape nothing but `IAC`.

`newenviron_iff`: the variables arrive exactly if none of their texts has a byte that the decoder
takes for a mark, and there is memory for them.
-/

namespace Siproxy.Telnet

open CString Escape Parts

/-! ### Sending -/

/-- `TELNET_ENVIRON_VAR` and `TELNET_ENVIRON_USERVAR`. -/
inductive VarType where
  | var
  | uservar
  deriving DecidableEq

def VarType.code : VarType → Byte
  | .var => 0
  | .uservar => 3

theorem VarType.code_eq (type : VarType) : type.code = 0 ∨ type.code = 3 := by
  cases type
  · exact .inl rfl
  · exact .inr rfl

/-- A variable, with or without a value. -/
structure Variable where
  type : VarType
  name : CStr
  value : Option CStr

/-- `telnet_begin_newenviron`. -/
def telnetBeginNewenviron (cmd : Byte) : List TelnetEvent := telnetBeginSb 39 ++ telnetSend [cmd]

/-- `telnet_newenviron_value`, with a string that may be a null pointer. -/
def telnetNewenvironValue (type : Byte) (string : Option CStr) : List TelnetEvent :=
  telnetSend [type] ++
    match string with
    | none => []
    | some s => telnetSend s.bytes

/-- `telnet_finish_newenviron`. -/
def telnetFinishNewenviron : List TelnetEvent := telnetFinishSb

namespace Variable

/-- The calls for a variable; `TELNET_ENVIRON_VALUE` is `1`. -/
def send (v : Variable) : List TelnetEvent :=
  telnetNewenvironValue v.type.code (some v.name) ++
    match v.value with
    | none => []
    | some s => telnetNewenvironValue 1 (some s)

/-- The value, or the empty string. -/
def text (v : Variable) : List Byte :=
  match v.value with
  | none => []
  | some s => s.bytes

/-- The entry of the event that the variable calls for. -/
def wanted (v : Variable) : EnvValue := ⟨v.type.code, v.name.bytes, v.text⟩

/-- What stands behind the type of a variable. -/
def body (v : Variable) : List Byte :=
  v.name.bytes ++
    match v.value with
    | none => []
    | some s => 1 :: s.bytes

/-- The bytes of a variable. -/
def bytes (v : Variable) : List Byte := v.type.code :: v.body

/-- No byte of the name is a `VALUE`, an `ESC` or a `USERVAR`, and no byte of the value is an `ESC`
or a `USERVAR`. -/
def Clean (v : Variable) : Prop :=
  (∀ b ∈ v.name.bytes, b ∉ [1, 2, 3]) ∧ ∀ b ∈ v.text, b ∉ [2, 3]

end Variable

/-- The calls for a command and its variables. -/
def sendNewenviron (cmd : Byte) (vars : List Variable) : List TelnetEvent :=
  telnetBeginNewenviron cmd ++ vars.flatMap Variable.send ++ telnetFinishNewenviron

/-- The content of the subnegotiation. -/
def newenvironContent (cmd : Byte) (vars : List Variable) : List Byte :=
  cmd :: vars.flatMap Variable.bytes

theorem sentBytes_send (v : Variable) : sentBytes v.send = v.bytes.flatMap escape := by
  have string (type : Byte) (s : CStr) :
      sentBytes (telnetNewenvironValue type (some s)) = (type :: s.bytes).flatMap escape := by
    rw [telnetNewenvironValue, sentBytes_append, sentBytes_telnetSend, sentBytes_telnetSend,
      ← List.flatMap_append]
    rfl
  obtain ⟨type, name, value⟩ := v
  cases value with
  | none =>
    rw [Variable.send, sentBytes_append, string]
    simp [Variable.bytes, Variable.body, sentBytes]
  | some s =>
    rw [Variable.send, sentBytes_append, string, string, ← List.flatMap_append]
    rfl

theorem sentBytes_sendNewenviron (cmd : Byte) (vars : List Variable) :
    sentBytes (sendNewenviron cmd vars) =
      (SendItem.subnegotiation 39 (newenvironContent cmd vars)).wire := by
  have values : sentBytes (vars.flatMap Variable.send) =
      (vars.flatMap Variable.bytes).flatMap escape := by
    induction vars with
    | nil => rfl
    | cons v vars ih =>
      rw [List.flatMap_cons, sentBytes_append, sentBytes_send, ih, List.flatMap_cons,
        List.flatMap_append]
  rw [sendNewenviron, telnetBeginNewenviron, sentBytes_append, sentBytes_append, sentBytes_append,
    sentBytes_telnetSend, values, SendItem.wire_subnegotiation, newenvironContent,
    List.flatMap_cons]
  simp [sentBytes, telnetBeginSb, telnetFinishNewenviron, telnetFinishSb, telnetIac,
    TelnetEvent.sent]

/-! ### The bytes of the texts -/

/-- The name and the value of an entry. -/
def EnvValue.texts (v : EnvValue) : List Byte := v.var ++ v.value

/-- Apart from the types and the `VALUE` bytes, the bytes of the variables are their texts. -/
theorem countP_bytes {p : Byte → Bool} (hp : p 1 = false) (vars : List Variable) :
    (vars.flatMap Variable.bytes).countP p =
      vars.countP (fun v => p v.type.code) +
        ((vars.map Variable.wanted).flatMap EnvValue.texts).countP p := by
  induction vars with
  | nil => rfl
  | cons v vars ih =>
    have body : v.body.countP p = v.wanted.texts.countP p := by
      obtain ⟨type, name, value⟩ := v
      cases value <;>
        simp [Variable.body, Variable.wanted, Variable.text, EnvValue.texts, hp]
    rw [List.flatMap_cons, List.countP_append, ih, Variable.bytes, List.countP_cons, body,
      List.countP_cons, List.map_cons, List.flatMap_cons, List.countP_append]
    omega

/-- The texts of an entry stand in its piece. -/
theorem texts_entry_sublist (seg : Tok Byte × List (Tok Byte)) :
    (entry seg).texts.Sublist (seg.2.map Prod.fst) := by
  have split := @List.takeWhile_append_dropWhile _ (!bare isValue ·) seg.2
  have parts : ((seg.2.takeWhile (!bare isValue ·)) ++
      ((seg.2.dropWhile (!bare isValue ·)).drop 1)).Sublist seg.2 := by
    nth_rewrite 3 [← split]
    exact (List.Sublist.refl _).append (List.drop_sublist 1 _)
  have texts := parts.map Prod.fst
  rwa [List.map_append] at texts

/-- The texts of the entries stand in the text that is decoded, one behind the other. -/
theorem texts_reference_sublist (s : List Byte) :
    ((reference s).flatMap EnvValue.texts).Sublist ((lex (some 2) s).map Prod.fst) := by
  have all (segs : List (Tok Byte × List (Tok Byte))) :
      ((segs.map entry).flatMap EnvValue.texts).Sublist ((join segs).map Prod.fst) := by
    induction segs with
    | nil => exact List.Sublist.refl _
    | cons seg segs ih =>
      rw [List.map_cons, List.flatMap_cons, join, List.flatMap_cons, List.map_append]
      exact ((texts_entry_sublist seg).cons _).append ih
  have whole := all (pieces s)
  rwa [pieces, join_segments] at whole

/-! ### What is decoded -/

section Decode

variable {vars : List Variable}

/-- The variables are decoded to what was sent. -/
def Decoded (vars : List Variable) : Prop :=
  reference (vars.flatMap Variable.bytes) = vars.map Variable.wanted

theorem lex_bytes (h : 2 ∉ vars.flatMap Variable.bytes) :
    lex (some 2) (vars.flatMap Variable.bytes) = plain (vars.flatMap Variable.bytes) :=
  lex_plain fun _ hb heq => h (Option.some.inj heq ▸ hb)

theorem count_esc (vars : List Variable) :
    (vars.flatMap Variable.bytes).count 2 =
      ((vars.map Variable.wanted).flatMap EnvValue.texts).count 2 := by
  have sent := @countP_bytes (· == 2) rfl vars
  have types : vars.countP (fun v => v.type.code == 2) = 0 := by
    rw [List.countP_eq_zero]
    intro v _
    cases v.type <;> decide
  rwa [types, Nat.zero_add] at sent

theorem no_esc_iff : 2 ∉ vars.flatMap Variable.bytes ↔ ∀ v ∈ vars, 2 ∉ v.wanted.texts := by
  rw [← List.count_eq_zero, count_esc, List.count_eq_zero]
  simp only [List.mem_flatMap, List.mem_map, exists_exists_and_eq_and, not_exists, not_and]

/-- An `ESC` in a text is lost. -/
theorem Decoded.no_esc (h : Decoded vars)
    (last : (vars.flatMap Variable.bytes).getLast? ≠ some 2) :
    2 ∉ vars.flatMap Variable.bytes := by
  have closed : Closed (some 2) (vars.flatMap Variable.bytes) := by
    intro e he
    cases he
    exact last
  have half := two_mul_count_lex closed
  have kept := (texts_reference_sublist (vars.flatMap Variable.bytes)).count_le 2
  rw [h, ← count_esc] at kept
  apply List.count_eq_zero.1
  omega

/-- Without an `ESC`, there are as many entries as `VAR` and `USERVAR` bytes. -/
theorem length_reference (hvars : vars ≠ []) (esc : 2 ∉ vars.flatMap Variable.bytes) :
    (reference (vars.flatMap Variable.bytes)).length =
      (vars.flatMap Variable.bytes).countP isVar := by
  obtain ⟨v, vs, rfl⟩ := List.exists_cons_of_ne_nil hvars
  have marked : AtMark (bare isVar) (lex (some 2) ((v :: vs).flatMap Variable.bytes)) :=
    atMark_lex v.type.code_eq _
  rw [reference, List.length_map, pieces, length_segments marked, lex_bytes esc, plain,
    List.countP_map]
  rfl

/-- A `USERVAR` in a text begins another entry. -/
theorem Decoded.no_uservar (h : Decoded vars) (hvars : vars ≠ [])
    (esc : 2 ∉ vars.flatMap Variable.bytes) {v : Variable} (hv : v ∈ vars) :
    ∀ b ∈ v.wanted.texts, isVar b = false := by
  have count := length_reference hvars esc
  have types : vars.countP (fun v => isVar v.type.code) = vars.length := by
    rw [List.countP_eq_length]
    intro v _
    cases v.type <;> rfl
  rw [h, List.length_map, countP_bytes rfl, types] at count
  have none : ((vars.map Variable.wanted).flatMap EnvValue.texts).countP isVar = 0 := by omega
  rw [List.countP_eq_zero] at none
  intro b hb
  simpa using none b (List.mem_flatMap.2 ⟨v.wanted, List.mem_map_of_mem hv, hb⟩)

theorem mem_body {v : Variable} {b : Byte} (h : b ∈ v.body) : b ∈ v.wanted.texts ∨ b = 1 := by
  obtain ⟨type, name, value⟩ := v
  cases value with
  | none => exact .inl h
  | some s =>
    rcases List.mem_append.1 h with h | h
    · exact .inl (List.mem_append_left _ h)
    · rcases List.mem_cons.1 h with rfl | h
      · exact .inr rfl
      · exact .inl (List.mem_append_right _ h)

/-- The piece of a variable. -/
def Variable.piece (v : Variable) : Tok Byte × List (Tok Byte) :=
  ((v.type.code, false), plain v.body)

/-- Without these bytes, the pieces of the text are those of the variables. -/
theorem reference_bytes (esc : 2 ∉ vars.flatMap Variable.bytes)
    (marks : ∀ v ∈ vars, ∀ b ∈ v.wanted.texts, isVar b = false) :
    reference (vars.flatMap Variable.bytes) = vars.map fun v => entry v.piece := by
  have whole : lex (some 2) (vars.flatMap Variable.bytes) = join (vars.map Variable.piece) := by
    rw [lex_bytes esc, plain, join, List.map_flatMap, List.flatMap_map]
    rfl
  rw [reference, pieces, whole, segments_join, List.map_map]
  · rfl
  · intro seg hseg
    obtain ⟨v, -, rfl⟩ := List.mem_map.1 hseg
    unfold Variable.piece
    cases v.type <;> rfl
  · intro seg hseg
    obtain ⟨v, hv, rfl⟩ := List.mem_map.1 hseg
    intro t ht
    obtain ⟨b, hb, rfl⟩ := List.mem_map.1 ht
    rcases mem_body hb with hb | rfl
    · exact marks v hv b hb
    · rfl

theorem entry_piece_iff (v : Variable) : entry v.piece = v.wanted ↔ 1 ∉ v.name.bytes := by
  have name : ((v.piece.2.takeWhile (!bare isValue ·)).map Prod.fst) =
      v.body.takeWhile (!isValue ·) := by
    rw [Variable.piece, plain, List.takeWhile_map]
    exact map_fst_plain _
  have value : (((v.piece.2.dropWhile (!bare isValue ·)).drop 1).map Prod.fst) =
      (v.body.dropWhile (!isValue ·)).drop 1 := by
    rw [Variable.piece, plain, List.dropWhile_map, ← List.map_drop]
    exact map_fst_plain _
  constructor
  · intro h hone
    have cut := congrArg EnvValue.var h
    rw [entry, name] at cut
    have hbody : v.body.takeWhile (!isValue ·) = v.name.bytes := cut
    rw [← hbody] at hone
    cases List.mem_takeWhile_imp hone
  · intro hone
    have go : ∀ b ∈ v.name.bytes, (!isValue b) = true := by
      intro b hb
      have hne : b ≠ 1 := fun heq => hone (heq ▸ hb)
      simpa [isValue] using hne
    rw [entry, name, value, Variable.body, List.takeWhile_append_of_pos go,
      List.dropWhile_append_of_pos go]
    cases hvalue : v.value <;>
      simp [Variable.wanted, Variable.text, Variable.piece, isValue, hvalue]

theorem clean_iff (v : Variable) : v.Clean ↔
    1 ∉ v.name.bytes ∧ 2 ∉ v.wanted.texts ∧ ∀ b ∈ v.wanted.texts, isVar b = false := by
  have noNul : 0 ∉ v.wanted.texts := by
    intro h
    rcases List.mem_append.1 h with h | h
    · exact v.name.noNul h
    · unfold Variable.wanted Variable.text at h
      cases hvalue : v.value with
      | none => simp [hvalue] at h
      | some s => exact s.noNul (by simpa [hvalue] using h)
  have noVar : (∀ b ∈ v.wanted.texts, isVar b = false) ↔ 3 ∉ v.wanted.texts := by
    constructor
    · intro h h3
      cases h 3 h3
    · intro h b hb
      have h0 : b ≠ 0 := fun heq => noNul (heq ▸ hb)
      have h3 : b ≠ 3 := fun heq => h (heq ▸ hb)
      simp [isVar, h0, h3]
  rw [noVar]
  show v.Clean ↔ _ ∧ 2 ∉ v.name.bytes ++ v.text ∧ 3 ∉ v.name.bytes ++ v.text
  unfold Variable.Clean
  grind

/-- The variables are decoded to what was sent exactly if their texts have none of these bytes. -/
theorem decoded_iff (hvars : vars ≠ [])
    (last : (vars.flatMap Variable.bytes).getLast? ≠ some 2) :
    Decoded vars ↔ ∀ v ∈ vars, v.Clean := by
  constructor
  · intro h v hv
    have esc := h.no_esc last
    have marks := fun v hv => @Decoded.no_uservar vars h hvars esc v hv
    rw [Decoded, reference_bytes esc marks] at h
    have name := (entry_piece_iff v).1 (List.map_inj_left.1 h v hv)
    exact (clean_iff v).2 ⟨name, no_esc_iff.1 esc v hv, marks v hv⟩
  · intro clean
    have parts := fun v hv => (clean_iff v).1 (clean v hv)
    have esc := no_esc_iff.2 fun v hv => (parts v hv).2.1
    rw [Decoded, reference_bytes esc fun v hv => (parts v hv).2.2]
    exact List.map_congr_left fun v hv => (entry_piece_iff v).2 (parts v hv).1

end Decode

/-! ### The event -/

/-- The command and the entries of an `ENVIRON` event. -/
def TelnetEvent.environ? : TelnetEvent → Option (Byte × List EnvValue)
  | .environ cmd values => some (cmd, values)
  | _ => none

theorem environTelnet_content {u : Tracker} {cmd : Byte} (hcmd : cmd = 0 ∨ cmd = 1 ∨ cmd = 2)
    {vars : List Variable} (hvars : vars ≠ []) (hbuf : u.buffer = newenvironContent cmd vars) :
    (environTelnet u).2.2.filterMap TelnetEvent.environ? = [(cmd, vars.map Variable.wanted)] ↔
      (∀ v ∈ vars, v.Clean) ∧ u.allocOk = true := by
  obtain ⟨v, vs, rfl⟩ := List.exists_cons_of_ne_nil hvars
  have text : u.buffer = cmd :: v.type.code :: (v.body ++ vs.flatMap Variable.bytes) := hbuf
  have last : u.buffer.getLast? = ((v :: vs).flatMap Variable.bytes).getLast? := by
    rw [text, List.getLast?_cons_cons]
    rfl
  by_cases hesc : u.buffer.getLast? = some 2
  · -- the last text ends with an `ESC`
    have dirty : ¬ ∀ v' ∈ v :: vs, v'.Clean := by
      intro clean
      have esc := no_esc_iff.2 fun v' hv' => ((clean_iff v').1 (clean v' hv')).2.1
      exact esc (List.mem_of_getLast? (last ▸ hesc))
    rw [environTelnet_typed text hcmd v.type.code_eq, if_pos hesc]
    exact iff_of_false (fun h => by cases h) fun h => dirty h.1
  · rw [environTelnet_valid text hcmd v.type.code_eq hesc, ← decoded_iff hvars (last ▸ hesc)]
    by_cases ok : u.allocOk = true
    · rw [if_pos ok]
      constructor
      · intro h
        exact ⟨(Prod.mk.inj (List.singleton_inj.1 h)).2, ok⟩
      · intro h
        exact congrArg (fun values => [(cmd, values)]) h.1
    · rw [if_neg ok]
      exact iff_of_false (fun h => by cases h) fun h => ok h.2

/-- A reachable receiver that waits for data, given the bytes of a command and one or more variables
that fit the largest buffer, in any chunks, raises one `ENVIRON` event with the command and the
variables, exactly if no text has a byte that the decoder takes for a mark, and the allocations for
the buffer and for the entries succeed. -/
theorem newenviron_iff (t : Tracker) (reachable : Reachable t) (state : t.state = .data)
    (cmd : Byte) (hcmd : cmd = 0 ∨ cmd = 1 ∨ cmd = 2) (vars : List Variable) (hvars : vars ≠ [])
    (short : (newenvironContent cmd vars).length ≤ 16384) (chunks : List (List Byte))
    (sent : chunks.flatten = sentBytes (sendNewenviron cmd vars)) :
    (others (recvAll t chunks).2).filterMap TelnetEvent.environ? =
        [(cmd, vars.map Variable.wanted)] ↔
      (∀ v ∈ vars, v.Clean) ∧
        AllocsOk t.heap (reallocs t.bufferSize (newenvironContent cmd vars).length + 1) := by
  rw [sentBytes_sendNewenviron] at sent
  obtain ⟨stored, lost⟩ :=
    others_recvAll_sb state reachable.bufferSize (by decide : (39 : Byte) ≠ 85) short sent
  rw [allocsOk_succ_iff]
  by_cases enough : AllocsOk t.heap (reallocs t.bufferSize (newenvironContent cmd vars).length)
  · obtain ⟨u, hopt, hbuf, heap, seen⟩ := stored enough
    have raised : (subnegotiate u).2.2 =
        .subnegotiation u.sbTelopt u.buffer :: (environTelnet u).2.2 := by
      simp [subnegotiate, hopt]
    have alloc : (t.heap.drop (reallocs t.bufferSize (newenvironContent cmd vars).length)).headD
        true = u.allocOk := by rw [← heap, Tracker.allocOk]
    rw [seen, raised, alloc, List.filterMap_cons_none rfl, environTelnet_content hcmd hvars hbuf]
    simp only [enough, true_and]
  · rw [lost enough]
    exact iff_of_false (fun h => by cases h) fun h => enough h.2.1

/-- A variable with an empty value, and a user variable whose name has an `IAC`. -/
def sampleVars : List Variable :=
  [⟨.var, .lit "A" (by decide), some (.lit "" (by decide))⟩,
    ⟨.uservar, ⟨[66, 255], by decide⟩, none⟩]

/-- The command `IS` with these variables, in two chunks. -/
def sampleChunks : List (List Byte) :=
  [[255, 250, 39, 0, 0, 65, 1, 3, 66, 255], [255, 255, 240]]

theorem newenviron_sample :
    (others (recvAll (telnetInit [] false []) sampleChunks).2).filterMap TelnetEvent.environ? =
      [(0, [⟨0, [65], []⟩, ⟨3, [66, 255], []⟩])] :=
  (newenviron_iff (telnetInit [] false []) (.init [] false []) rfl 0 (.inl rfl) sampleVars
    (by decide) (by decide) sampleChunks (by decide)).2
    ⟨by simp [sampleVars, Variable.Clean, Variable.text, CStr.lit, CString.text],
      by simp [AllocsOk, telnetInit]⟩

/-- A variable without a value whose name has a `VALUE`. -/
def sampleMarked : List Variable := [⟨.var, ⟨[65, 1, 66], by decide⟩, none⟩]

/-- It arrives with a shorter name and a value. -/
theorem not_newenviron_sample :
    Reachable (telnetInit [] false []) ∧ (telnetInit [] false []).state = .data ∧
      (others (recvAll (telnetInit [] false [])
          [sentBytes (sendNewenviron 0 sampleMarked)]).2).filterMap TelnetEvent.environ? =
        [(0, [⟨0, [65], [66]⟩])] ∧
      (others (recvAll (telnetInit [] false [])
          [sentBytes (sendNewenviron 0 sampleMarked)]).2).filterMap TelnetEvent.environ? ≠
        [(0, sampleMarked.map Variable.wanted)] :=
  ⟨.init [] false [], rfl, by decide +kernel, by decide +kernel⟩

end Siproxy.Telnet
