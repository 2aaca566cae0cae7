import Siproxy.SendSb

/-!
# Commands of the Zenith protocol

A command of ZMP is a list of strings, sent as a subnegotiation in which each string is followed by
its terminator.  `_zmp_telnet` finds them again in two passes over the buffer.

`zmp_decoded`: a receiver whose allocations succeed raises one `ZMP` event, with the strings that
were sent; and for every buffer that ends with a terminator, the counting loop stops at its end, and
the second pass finds the same strings.
-/

namespace Siproxy.Telnet

open CString Lines

/-! ### Sending -/

/-- `telnet_zmp_arg`. -/
def telnetZmpArg (arg : CStr) : List TelnetEvent := telnetSend (arg.bytes ++ [0])

/-- `telnet_begin_zmp`. -/
def telnetBeginZmp (cmd : CStr) : List TelnetEvent := telnetBeginSb 93 ++ telnetZmpArg cmd

/-- `telnet_send_zmp`, with `argv[0]` and the other arguments. -/
def telnetSendZmp (cmd : CStr) (args : List CStr) : List TelnetEvent :=
  telnetBeginZmp cmd ++ args.flatMap telnetZmpArg ++ telnetFinishSb

/-- The strings with their terminators. -/
def zmpContent (argv : List CStr) : List Byte := argv.flatMap fun arg => arg.bytes ++ [0]

theorem sentBytes_telnetSendZmp (cmd : CStr) (args : List CStr) :
    sentBytes (telnetSendZmp cmd args) =
      (SendItem.subnegotiation 93 (zmpContent (cmd :: args))).wire := by
  have parts : telnetBeginZmp cmd ++ args.flatMap telnetZmpArg =
      telnetBeginSb 93 ++
        ((cmd :: args).map fun arg => arg.bytes ++ [0]).flatMap telnetSend := by
    rw [telnetBeginZmp, List.append_assoc, List.flatMap_map]
    rfl
  rw [telnetSendZmp, parts, sentBytes_sb]
  rfl

theorem length_zmpContent (argv : List CStr) :
    (zmpContent argv).length = (argv.map fun arg => arg.strlen + 1).sum := by
  induction argv with
  | nil => rfl
  | cons arg argv ih =>
    rw [zmpContent, List.flatMap_cons, List.length_append, List.map_cons, List.sum_cons, ← ih,
      List.length_append]
    rfl

theorem getLast?_zmpContent (cmd : CStr) (args : List CStr) :
    (zmpContent (cmd :: args)).getLast? = some 0 := by
  induction args generalizing cmd with
  | nil => simp [zmpContent]
  | cons arg args ih =>
    have last := ih arg
    have nonempty : zmpContent (arg :: args) ≠ [] := by
      intro hnil
      rw [hnil] at last
      cases last
    rw [zmpContent, List.flatMap_cons]
    exact (List.getLast?_append_of_ne_nil _ nonempty).trans last

/-! ### The two passes -/

/-- The counting loop, with `c` an offset in the memory and `size` the end of the buffer.  There is
no result if `strlen` runs out of the memory, or if the loop takes more rounds than `fuel`. -/
def zmpCount (mem : List Byte) (size : ℕ) : ℕ → ℕ → ℕ → Option ℕ
  | 0, _, _ => none
  | fuel + 1, c, argc =>
    if c = size then some argc
    else if 0 ∈ mem.drop c then
      zmpCount mem size fuel (c + (cstr (mem.drop c)).length + 1) (argc + 1)
    else none

/-- The second loop: the strings and where it ends. -/
def zmpArgs (mem : List Byte) : ℕ → ℕ → List (List Byte) × ℕ
  | 0, c => ([], c)
  | n + 1, c =>
    let rest := zmpArgs mem n (c + (cstr (mem.drop c)).length + 1)
    (cstr (mem.drop c) :: rest.1, rest.2)

/-- The two passes over the strings that stand in the memory from `c` to the end of the buffer. -/
theorem zmp_passes {mem rest : List Byte} {ls : List (List Byte)} (free : ∀ l ∈ ls, 0 ∉ l)
    {c : ℕ} (hmem : mem.drop c = ls.flatMap (· ++ [0]) ++ rest) {size : ℕ}
    (hsize : size = c + (ls.flatMap (· ++ [0])).length) {fuel : ℕ} (enough : ls.length < fuel)
    (argc : ℕ) :
    zmpCount mem size fuel c argc = some (argc + ls.length) ∧
      zmpArgs mem ls.length c = (ls, size) := by
  induction ls generalizing c fuel argc with
  | nil =>
    obtain ⟨n, rfl⟩ := Nat.exists_eq_succ_of_ne_zero (Nat.ne_of_gt enough)
    have hc : c = size := hsize.symm
    rw [zmpCount, if_pos hc]
    exact ⟨rfl, by rw [hc]; rfl⟩
  | cons l ls ih =>
    obtain ⟨n, rfl⟩ := Nat.exists_eq_succ_of_ne_zero (Nat.ne_of_gt (Nat.zero_lt_of_lt enough))
    rw [List.forall_mem_cons] at free
    have hdrop : mem.drop c = l ++ 0 :: (ls.flatMap (· ++ [0]) ++ rest) := by
      rw [hmem, List.flatMap_cons]
      simp
    have string : cstr (mem.drop c) = l := by rw [hdrop, cstr_append_nul free.1]
    have next : mem.drop (c + l.length + 1) = ls.flatMap (· ++ [0]) ++ rest := by
      rw [Nat.add_assoc, ← List.drop_drop, hdrop, ← List.drop_drop, List.drop_left]
      rfl
    have size' : size = c + l.length + 1 + (ls.flatMap (· ++ [0])).length := by
      rw [hsize, List.flatMap_cons]
      simp only [List.length_append, List.length_singleton]
      omega
    obtain ⟨count, args⟩ := ih free.2 next size' (Nat.lt_of_succ_lt_succ enough) (argc + 1)
    have before : c ≠ size := by omega
    have nul : 0 ∈ mem.drop c := by simp [hdrop]
    constructor
    · rw [zmpCount, if_neg before, if_pos nul, string, count, List.length_cons]
      congr 1
      omega
    · rw [List.length_cons, zmpArgs, string, args]

theorem zmp_lines {buffer : List Byte} (h : buffer.getLast? = some 0) :
    (scan 0 [] buffer).1.flatMap (· ++ [0]) = buffer := by
  have whole := scan_join 0 [] buffer
  have last : (scan 0 [] buffer).2 = [] := by
    obtain ⟨pre, rfl⟩ := List.getLast?_eq_some_iff.1 h
    rw [scan_append]
    simp [scan]
  rw [last, List.append_nil, List.nil_append] at whole
  rw [List.flatMap_def]
  exact whole.symm

/-! ### What is sent is received -/

/-- The two passes over the buffer of a tracker, whatever lies behind it in memory: the first one
ends at the end of the buffer, within as many rounds as there are bytes, and the second one there
too, with the strings that the event has. -/
def PassesAgree (u : Tracker) : Prop :=
  ∀ (beyond : List Byte) (fuel : ℕ), u.buffer.length < fuel → ∃ argc,
    zmpCount (u.buffer ++ beyond) u.buffer.length fuel 0 0 = some argc ∧
      (zmpArgs (u.buffer ++ beyond) argc 0).2 = u.buffer.length ∧
      (u.allocOk = true →
        (zmpTelnet u).2.2 = [.zmp (zmpArgs (u.buffer ++ beyond) argc 0).1])

theorem passesAgree {u : Tracker} (h : u.buffer.getLast? = some 0) : PassesAgree u := by
  intro beyond fuel enough
  have lines := zmp_lines h
  have short : (scan 0 [] u.buffer).1.length ≤ u.buffer.length := by
    have le : ∀ ls : List (List Byte), ls.length ≤ (ls.flatMap (· ++ [0])).length := by
      intro ls
      induction ls with
      | nil => exact Nat.zero_le _
      | cons l ls ih =>
        rw [List.flatMap_cons]
        simp only [List.length_append, List.length_cons, List.length_nil]
        omega
    have := le (scan 0 [] u.buffer).1
    rwa [lines] at this
  have free := (scan_free (@List.not_mem_nil Byte 0) u.buffer).1
  obtain ⟨count, args⟩ := @zmp_passes (u.buffer ++ beyond) beyond (scan 0 [] u.buffer).1 free 0
    (by rw [lines]; rfl) u.buffer.length (by rw [lines, Nat.zero_add]) fuel
    (lt_of_le_of_lt short enough) 0
  rw [Nat.zero_add] at count
  refine ⟨_, count, by rw [args], fun alloc => ?_⟩
  rw [args, zmpTelnet, if_neg (not_not.2 h), if_pos alloc]

/-- A reachable receiver that waits for data and whose allocations succeed, given the bytes of any
command and any arguments that fit the largest buffer, in any chunks, raises the subnegotiation and
one `ZMP` event with the strings that were sent; and for every buffer that ends with a terminator
the two passes agree. -/
theorem zmp_decoded (t : Tracker) (reachable : Reachable t) (state : t.state = .data)
    (heap : ∀ ok ∈ t.heap, ok = true) (cmd : CStr) (args : List CStr)
    (short : ((cmd :: args).map fun arg => arg.strlen + 1).sum ≤ 16384)
    (chunks : List (List Byte)) (sent : chunks.flatten = sentBytes (telnetSendZmp cmd args)) :
    (recvAll t chunks).2 =
        [.other (.subnegotiation 93 (zmpContent (cmd :: args))),
          .other (.zmp ((cmd :: args).map CStr.bytes))] ∧
      ∀ u : Tracker, u.buffer.getLast? = some 0 → PassesAgree u := by
  refine ⟨?_, fun u => passesAgree⟩
  have fits : (SendItem.subnegotiation 93 (zmpContent (cmd :: args))).Ok := by
    rw [← length_zmpContent] at short
    exact ⟨short, fun h85 => absurd h85 (by decide)⟩
  obtain ⟨u, hopt, hbuf, alloc, seen⟩ := recvAll_sb ⟨state, reachable.bufferSize, heap⟩ fits
  rw [sentBytes_telnetSendZmp] at sent
  have lines : zmpContent (cmd :: args) = ((cmd :: args).map CStr.bytes).flatMap (· ++ [0]) := by
    rw [List.flatMap_map]
    rfl
  have last : u.buffer.getLast? = some 0 := by rw [hbuf, getLast?_zmpContent]
  have strings : (scan 0 [] u.buffer).1 = (cmd :: args).map CStr.bytes := by
    rw [hbuf, lines, scan_lines]
    intro l hl
    obtain ⟨arg, -, rfl⟩ := List.mem_map.1 hl
    exact arg.noNul
  have event : zmpTelnet u = (u.alloc, false, [.zmp ((cmd :: args).map CStr.bytes)]) := by
    rw [zmpTelnet, if_neg (not_not.2 last), if_pos alloc, strings]
  rw [seen chunks sent]
  simp only [subnegotiate, hopt, if_true, event, hbuf]
  rfl

/-- A command with an empty argument and one that has an `IAC`, in two chunks. -/
def sampleCmd : CStr := .lit "a" (by decide)

theorem emptyArg_noNul : 0 ∉ ([] : List Byte) := List.not_mem_nil

def sampleArgs : List CStr := [⟨[], emptyArg_noNul⟩, ⟨[255], by decide⟩]

theorem zmp_decoded_sample :
    (recvAll (telnetInit [] false [])
        [[255, 250, 93, 97, 0, 0, 255], [255, 0, 255, 240]]).2 =
      [.other (.subnegotiation 93 [97, 0, 0, 255, 0]), .other (.zmp [[97], [], [255]])] :=
  (zmp_decoded (telnetInit [] false []) (.init [] false []) rfl (by decide) sampleCmd sampleArgs
    (by decide) [[255, 250, 93, 97, 0, 0, 255], [255, 0, 255, 240]] (by decide)).1

/-- A receiver without memory for the arguments raises no `ZMP` event. -/
theorem not_zmp_decoded_sample :
    Reachable (telnetInit [] false [true, false]) ∧
      (telnetInit [] false [true, false]).state = .data ∧
      (recvAll (telnetInit [] false [true, false])
          [sentBytes (telnetSendZmp sampleCmd [])]).2 =
        [.other (.subnegotiation 93 [97, 0]),
          .other (.warning "calloc() failed: Cannot allocate memory")] ∧
      (recvAll (telnetInit [] false [true, false])
          [sentBytes (telnetSendZmp sampleCmd [])]).2 ≠
        [.other (.subnegotiation 93 (zmpContent [sampleCmd])), .other (.zmp [sampleCmd.bytes])] :=
  ⟨.init [] false [true, false], rfl, by decide, by decide⟩

end Siproxy.Telnet
