import Siproxy.TelnetRecv

/-!
# A command inside a subnegotiation

A byte other than `SE` and `IAC` that follows an `IAC` in a subnegotiation ends it: `_process`
reports the buffer, and then takes the byte as a command in a recursive call of its own.  Where the
decoder of the option returns a value other than `0`, it calls `telnet_recv` on what is behind the
byte instead.

`unexpected_iff`: the byte is taken as a command unless `_environ_telnet` accepts the buffer, which
is the only decoder that returns `1`.
-/

namespace Siproxy.Telnet

open CString

/-! ### What the decoders return -/

/-- `_environ_telnet` gets to the end: the command is valid and alone, or a list of variables
follows it that does not end in `ESC`, and there is memory for them. -/
def EnvironAccepts (t : Tracker) : Prop :=
  (t.sbTelopt = 36 ∨ t.sbTelopt = 39) ∧
    match t.buffer with
    | [] => False
    | cmd :: rest =>
      (cmd = 0 ∨ cmd = 1 ∨ cmd = 2) ∧
        match rest with
        | [] => True
        | type :: _ =>
          (type = 0 ∨ type = 3) ∧ t.buffer.getLast? ≠ some 2 ∧ t.allocOk = true

theorem zmpTelnet_returns (t : Tracker) : (zmpTelnet t).2.1 = false := by
  unfold zmpTelnet
  split_ifs <;> rfl

theorem ttypeTelnet_returns (t : Tracker) : (ttypeTelnet t).2.1 = false := by
  unfold ttypeTelnet
  repeat' split
  all_goals rfl

theorem msspTelnet_returns (t : Tracker) : (msspTelnet t).2.1 = false := by
  unfold msspTelnet
  repeat' split
  all_goals rfl

theorem environTelnet_returns_iff {t : Tracker} (h : t.sbTelopt = 36 ∨ t.sbTelopt = 39) :
    (environTelnet t).2.1 = true ↔ EnvironAccepts t := by
  unfold EnvironAccepts environTelnet
  simp only [h, true_and]
  cases t.buffer with
  | nil => simp
  | cons cmd rest =>
    dsimp only
    have commands : (cmd ≠ 1 ∧ cmd ≠ 0 ∧ cmd ≠ 2) ↔ ¬ (cmd = 0 ∨ cmd = 1 ∨ cmd = 2) := by tauto
    by_cases hcmd : cmd = 0 ∨ cmd = 1 ∨ cmd = 2
    · rw [if_neg (by rwa [commands, not_not])]
      cases rest with
      | nil => simp [hcmd]
      | cons type rest =>
        dsimp only
        have types : (type ≠ 0 ∧ type ≠ 3) ↔ ¬ (type = 0 ∨ type = 3) := by tauto
        by_cases htype : type = 0 ∨ type = 3
        · rw [if_neg (by rwa [types, not_not])]
          split_ifs with hesc halloc <;> simp_all
        · rw [if_pos (types.2 htype)]
          simp [htype]
    · rw [if_pos (commands.2 hcmd)]
      simp [hcmd]

theorem subnegotiate_returns_iff (t : Tracker) :
    (subnegotiate t).2.1 = true ↔ EnvironAccepts t := by
  unfold subnegotiate
  dsimp only
  split_ifs with hzmp httype henviron hmssp
  · simp [zmpTelnet_returns, EnvironAccepts, hzmp]
  · simp [ttypeTelnet_returns, EnvironAccepts, httype]
  · exact environTelnet_returns_iff henviron
  · simp [msspTelnet_returns, EnvironAccepts, hmssp]
  · simp [EnvironAccepts, henviron]

/-! ### The byte -/

/-- `_process` warns, reports the subnegotiation, and goes on with the byte and the rest of the
buffer in the state `IAC`. -/
def ContinuesInIac (t : Tracker) (b : Byte) : Prop :=
  let w := TelnetEvent.warning ("unexpected byte after IAC inside SB: " ++ toString b.toNat)
  let r := subnegotiate { t with state := .iac }
  ∀ base i start rest, process base t i start (b :: rest) =
    ((process base r.1 i (i + 1) (b :: rest)).1,
      w :: r.2.2 ++ (process base r.1 i (i + 1) (b :: rest)).2)

/-- The subnegotiation is reported first, and the tracker is left in the state `IAC`. -/
theorem subnegotiate_iac (t : Tracker) :
    (subnegotiate { t with state := .iac }).1.state = .iac ∧
      (subnegotiate { t with state := .iac }).2.2.head? =
        some (.subnegotiation t.sbTelopt t.buffer) := by
  obtain ⟨buffer, heap, frame, -⟩ := subnegotiate_frame { t with state := .iac }
  rw [frame]
  exact ⟨rfl, rfl⟩

theorem iacByte_state_ne (t : Tracker) (b : Byte) : (iacByte t b).1.state ≠ .iac := by
  unfold iacByte
  split_ifs <;> simp

/-- In the state `IAC`, a byte other than `IAC` is taken as a command, and data can start only
behind it. -/
theorem process_iac {t : Tracker} (hs : t.state = .iac) {b : Byte} (hiac : b ≠ 255) (base i : ℕ)
    (rest : List Byte) :
    process base t i (i + 1) (b :: rest) =
      ((process base (iacByte t b).1 (i + 1) (i + 1) rest).1,
        (iacByte t b).2.2 ++ (process base (iacByte t b).1 (i + 1) (i + 1) rest).2) := by
  have stays : reenters t b = false := by simp [reenters, hs]
  have quiet := (iacByte_noData hiac (t := t)).shift base
  simp only [process, byteStep, hs, stays, ite_self, Bool.false_eq_true, if_false, quiet]

/-- In every state of a subnegotiation behind an `IAC`, for every option, content and byte: the byte
is taken as a command, and the rest of the buffer processed behind it, exactly if `_environ_telnet`
does not accept the content. -/
theorem unexpected_iff (t : Tracker) (hs : t.state = .sbDataIac) (b : Byte) (hse : b ≠ 240)
    (hiac : b ≠ 255) : ContinuesInIac t b ↔ ¬ EnvironAccepts t := by
  obtain ⟨state, -⟩ := subnegotiate_iac t
  have noData := subnegotiate_noData { t with state := .iac }
  have returns : (subnegotiate { t with state := .iac }).2.1 = true ↔ EnvironAccepts t :=
    subnegotiate_returns_iff { t with state := .iac }
  unfold ContinuesInIac
  obtain ⟨r, hr⟩ : ∃ r, r = subnegotiate { t with state := .iac } := ⟨_, rfl⟩
  rw [← hr] at state noData returns
  simp only [← hr]
  constructor
  · -- nothing follows, and the tracker still waits for a command
    intro taken accepts
    have trackers := congrArg (fun s => s.1.state) (taken 0 0 0 [])
    have waits : (advance t b).state = .iac := by
      simp [advance, byteStep, hs, hse, hiac, ← hr, returns.2 accepts, state]
    have takes : advance r.1 b = (iacByte r.1 b).1 := by simp [advance, byteStep, state]
    simp only [process_eq_loop, loop_fst, List.foldl_cons, List.foldl_nil, waits, takes]
      at trackers
    exact iacByte_state_ne r.1 b trackers.symm
  · intro refused base i start rest
    have zero : r.2.1 = false := by
      rw [← Bool.not_eq_true, returns]
      exact refused
    have stays : reenters t b = false := by simp [reenters, hse, ← hr, zero]
    have step : byteStep t i start b = ((iacByte r.1 b).1, i + 1,
        .warning ("unexpected byte after IAC inside SB: " ++ toString b.toNat) :: r.2.2 ++
          (iacByte r.1 b).2.2) := by
      simp [byteStep, hs, hse, hiac, ← hr, zero]
    have quiet : NoData (.warning ("unexpected byte after IAC inside SB: " ++
        toString b.toNat) :: r.2.2 ++ (iacByte r.1 b).2.2) :=
      List.forall_mem_append.2 ⟨List.forall_mem_cons.2 ⟨rfl, noData⟩, iacByte_noData hiac⟩
    rw [process_iac state hiac, process, step, stays]
    simp only [Bool.false_eq_true, if_false, quiet.shift, List.append_assoc]

/-- A terminal type that is cut off by `IAC WILL`. -/
theorem unexpected_sample :
    ContinuesInIac ([255, 250, 24, 0, 255].foldl advance (telnetInit [] false [])) 251 :=
  (unexpected_iff _ (by decide) 251 (by decide) (by decide)).2 fun accepts =>
    absurd accepts.1 (by decide)

/-- A `NEW-ENVIRON IS` without variables that is cut off by `IAC WILL`: the `WILL` is skipped, and
its option is taken as a command. -/
theorem not_continues_sample :
    ¬ ContinuesInIac ([255, 250, 39, 0, 255].foldl advance (telnetInit [] false [])) 251 ∧
      (telnetRecv (telnetInit [] false []) [255, 250, 39, 0, 255, 251, 1]).2 =
        [.warning "unexpected byte after IAC inside SB: 251", .subnegotiation 39 [0],
          .environ 0 [], .iac 1] := by
  refine ⟨fun taken => ?_, by decide⟩
  have trackers := congrArg (fun s => s.1.state) (taken 0 0 0 [])
  revert trackers
  decide

end Siproxy.Telnet
