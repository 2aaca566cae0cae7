import Mathlib.Data.List.Forall2
import Siproxy.Lib.Machine
import Siproxy.Producers
import Siproxy.Telnet

/-!
# Input from the SIP client

`main` receives bytes into one buffer of 4096 bytes and hands them to the telnet tracker, whose
events go to `sip_event`; a `TELNET_EV_DATA` event is cut into lines by `strtok`, which works on the
receive buffer up to the next NUL and overwrites line ends with NULs, and every line that
`find_event` knows is queued.

The receive loop is a machine with one step for each `recv`, for each round of the loop of
`_process` and for its last statement; its outputs are the deliveries of events to `sip_event`,
each with the receive buffer at that moment.

`Delivery.ownLines_iff`: the events queued for a `TELNET_EV_DATA` event are those of the lines of
its bytes, exactly if the C string that starts where these bytes do adds and changes no event, and
`malloc` succeeds for the events of these lines.
-/

namespace Siproxy

open Allot CString Machine Lines Telnet

/-! ### `sip_event` -/

/-- What a producer queues. -/
def Produced.queued? : Produced → Option RawEvt
  | .returned _ queued => queued
  | _ => none

/-- A token of a text, as a C string. -/
def tokenStr (token : List Byte) : CStr := ⟨cstr token, cstr_noNul token⟩

/-- The event that `sip_event_queue` adds for a token when memory is left. -/
def sipEvt (token : List Byte) : Option RawEvt := (sipEventQueue true (tokenStr token)).queued?

/-- The loop over the tokens: what `sip_event_queue` adds for each of them, and the answers of
`malloc` that are left; `malloc` is called for the tokens that `find_event` knows. -/
def sipQueue : List Bool → List (List Byte) → List (Option RawEvt) × List Bool
  | mallocs, [] => ([], mallocs)
  | mallocs, token :: tokens =>
    let known := findEvent (tokenStr token).bytes sipEvents ≠ .none
    let rest := sipQueue (if known then mallocs.tail else mallocs) tokens
    ((sipEventQueue (mallocs.headD true) (tokenStr token)).queued? :: rest.1, rest.2)

theorem sipEvt_cases (token : List Byte) :
    (findEvent (cstr token) sipEvents = .none ∧ sipEvt token = none) ∨
      (findEvent (cstr token) sipEvents ≠ .none ∧
        ∃ raw, sipEvt token = some raw ∧ raw.event = some (findEvent (cstr token) sipEvents)) := by
  unfold sipEvt sipEventQueue
  by_cases h : findEvent (tokenStr token).bytes sipEvents = .none
  · exact .inl ⟨h, by simp [h, Produced.queued?]⟩
  · obtain ⟨raw, hraw, holds⟩ := queueEvt_holds (by decide)
      (findEvent (tokenStr token).bytes sipEvents) (strlen_snprintf_lt (by decide) (tokenStr token))
    exact .inr ⟨h, raw, by simp [h, hraw, Produced.queued?], holds.1⟩

theorem sipEvt_eq_none_iff {token : List Byte} :
    sipEvt token = none ↔ findEvent (cstr token) sipEvents = .none := by
  rcases sipEvt_cases token with ⟨h, hevt⟩ | ⟨h, raw, hevt, -⟩ <;> simp [h, hevt]

theorem queued_sipEventQueue (malloc : Bool) (token : List Byte) :
    (sipEventQueue malloc (tokenStr token)).queued? = if malloc then sipEvt token else none := by
  cases malloc with
  | true => rfl
  | false =>
    unfold sipEventQueue
    simp only [Bool.false_eq_true, if_false]
    split_ifs <;> rfl

/-- The events of the tokens for which memory is left. -/
theorem sipQueue_eq (mallocs : List Bool) (tokens : List (List Byte)) :
    sipQueue mallocs tokens = (allot mallocs (tokens.map sipEvt),
      mallocs.drop (tokens.filterMap sipEvt).length) := by
  induction tokens generalizing mallocs with
  | nil => rfl
  | cons token tokens ih =>
    have known : findEvent (tokenStr token).bytes sipEvents = .none ↔ sipEvt token = none :=
      sipEvt_eq_none_iff.symm
    simp only [sipQueue, queued_sipEventQueue, ne_eq, known, ih]
    cases hevt : sipEvt token with
    | none => simp [hevt, allot]
    | some raw => simp [hevt, allot]

/-- The memory after `strtok (str, "\n")` has returned `NULL`: each line end behind a token is
overwritten, up to the first NUL.  The flag tells whether the text continues a token. -/
def strtokMem : Bool → List Byte → List Byte
  | _, [] => []
  | inToken, b :: s =>
    if b = 0 then b :: s
    else if b = 10 then (if inToken then 0 else b) :: strtokMem false s
    else b :: strtokMem true s

/-- What `sip_event` works on: the receive buffer and `do_echo`, with the answers of `malloc` in
`sip_event_queue` and of the calls of `_send`; behind the end of the answers everything succeeds. -/
structure Sip where
  mem : List Byte
  doEcho : Bool
  mallocs : List Bool
  sends : List Bool
  deriving DecidableEq

/-- What `sip_event` does to the outside. -/
inductive SipOut where
  | queue (evt : RawEvt)
  | send (bytes : List Byte)
  deriving DecidableEq

/-- `_send`: the bytes are sent, in as many parts as it takes, or `exit` is called; without bytes,
`send` is not called. -/
def Sip.send (sip : Sip) (bytes : List Byte) : Option Sip :=
  if bytes = [] then some sip
  else if sip.sends.headD true then some { sip with sends := sip.sends.tail }
  else none

/-- `_send` for one part after the other. -/
def Sip.sendAll (sip : Sip) (parts : List (List Byte)) : Option (Sip × List SipOut) :=
  (parts.foldlM Sip.send sip).map fun sip => (sip, parts.map .send)

/-- `telnet_ttype_is` sends the terminal type in three parts. -/
def ttypeIs (term : CStr) : List (List Byte) := [[255, 250, 24, 0], term.bytes, [255, 240]]

/-- `sip_event`, with `term` for `getenv ("TERM")`; without a value, it has called `exit`, leaves an
array or reads a `NULL`.  `ECHO` is option `1`. -/
def sipEvent (term : Option CStr) (sip : Sip) : TelnetEvent → Option (Sip × List SipOut)
  | .data (.buffer off) _ =>
    if 0 ∈ sip.mem.drop off then
      let queued := sipQueue sip.mallocs (tokens 10 (cstr (sip.mem.drop off)))
      some ({ sip with
          mem := sip.mem.take off ++ strtokMem false (sip.mem.drop off)
          mallocs := queued.2 },
        queued.1.reduceOption.map .queue)
    else none
  | .data (.byte _) _ => none
  | .send bytes => sip.sendAll [bytes]
  | .will telopt => some (if telopt = 1 then { sip with doEcho := false } else sip, [])
  | .wont telopt => some (if telopt = 1 then { sip with doEcho := true } else sip, [])
  | .ttype cmd _ =>
    if cmd = 1 then
      match term with
      | none => none
      | some term => sip.sendAll (ttypeIs term)
    else some (sip, [])
  | _ => some (sip, [])

/-- What is sent for an event. -/
def sentParts (term : Option CStr) : TelnetEvent → List (List Byte)
  | .send bytes => [bytes]
  | .ttype cmd _ => if cmd = 1 then term.toList.flatMap ttypeIs else []
  | _ => []

/-- The answers of `_send` that the parts need. -/
def sendCount (parts : List (List Byte)) : ℕ := (parts.filter (· ≠ [])).length

theorem foldlM_send (sip : Sip) (parts : List (List Byte)) :
    parts.foldlM Sip.send sip =
      if Granted sip.sends (sendCount parts) then
        some { sip with sends := sip.sends.drop (sendCount parts) }
      else none := by
  induction parts generalizing sip with
  | nil => simp [sendCount]
  | cons bytes parts ih =>
    rw [List.foldlM_cons]
    by_cases hb : bytes = []
    · have first : sip.send bytes = some sip := if_pos hb
      have count : sendCount (bytes :: parts) = sendCount parts := by simp [sendCount, hb]
      rw [first, Option.bind_eq_bind, Option.bind_some, ih, count]
    · have count : sendCount (bytes :: parts) = sendCount parts + 1 := by simp [sendCount, hb]
      rw [count]
      by_cases ok : sip.sends.headD true = true
      · have first : sip.send bytes = some { sip with sends := sip.sends.tail } := by
          rw [Sip.send, if_neg hb, if_pos ok]
        rw [first, Option.bind_eq_bind, Option.bind_some, ih]
        simp only [granted_succ, ok, true_and, List.drop_tail]
      · have first : sip.send bytes = none := by rw [Sip.send, if_neg hb, if_neg ok]
        rw [first, if_neg (fun h => ok ((granted_succ _ _).1 h).1)]
        rfl

theorem sendAll_eq (sip : Sip) (parts : List (List Byte)) :
    sip.sendAll parts = if Granted sip.sends (sendCount parts) then
      some ({ sip with sends := sip.sends.drop (sendCount parts) }, parts.map .send)
    else none := by
  rw [Sip.sendAll, foldlM_send]
  split_ifs <;> rfl

/-! ### The receive loop -/

/-- `telopts` of `main.c`. -/
def telopts : List Telopt := [⟨1, 252, 253⟩, ⟨24, 251, 254⟩, ⟨86, 252, 253⟩, ⟨70, 252, 253⟩]

/-- The size of the receive buffer. -/
def recvSize : ℕ := 4096

/-- What `recv` returns. -/
structure Chunk where
  bytes : List Byte
  pos : bytes ≠ []
  fits : bytes.length ≤ recvSize

/-- The receive loop; while `busy`, `_process` is at position `i` of the chunk received last. -/
structure Receiver where
  t : Tracker
  sip : Sip
  chunk : List Byte
  i : ℕ
  start : ℕ
  busy : Bool
  deriving DecidableEq

/-- The answers of the environment: of the allocations of the tracker, of `malloc` in
`sip_event_queue` and of the calls of `_send`. -/
structure Answers where
  heap : List Bool
  mallocs : List Bool
  sends : List Bool

/-- Everything succeeds. -/
def Answers.good : Answers := ⟨[], [], []⟩

/-- The receive loop when `main` enters it. -/
def initReceiver (env : Answers) : Receiver :=
  ⟨telnetInit telopts false env.heap, ⟨List.replicate recvSize 0, true, env.mallocs, env.sends⟩,
    [], 0, 0, false⟩

/-- An event handed to `sip_event`, with the bytes received and the memory at that moment. -/
structure Delivery where
  chunk : List Byte
  sip : Sip
  ev : TelnetEvent
  deriving DecidableEq

/-- Events are handed to `sip_event` one after the other, until it fails. -/
def deliver (term : Option CStr) (chunk : List Byte) :
    Sip → List TelnetEvent → Option Sip × List Delivery
  | sip, [] => (some sip, [])
  | sip, ev :: evs =>
    match sipEvent term sip ev with
    | none => (none, [⟨chunk, sip, ev⟩])
    | some (sip', _) =>
      ((deliver term chunk sip' evs).1, ⟨chunk, sip, ev⟩ :: (deliver term chunk sip' evs).2)

theorem deliver_head (term : Option CStr) (chunk : List Byte) (sip : Sip) (ev : TelnetEvent)
    (evs : List TelnetEvent) : ⟨chunk, sip, ev⟩ ∈ (deliver term chunk sip (ev :: evs)).2 := by
  unfold deliver
  split <;> simp

/-- The steps of the receive loop. -/
inductive Feed where
  | recv (c : Chunk)
  | byte
  | flush

/-- `byte = buffer[i]`. -/
def Receiver.current (r : Receiver) : Byte := r.sip.mem.getD r.i 0

/-- The last statement of `_process`. -/
def pendingEvents (r : Receiver) : List TelnetEvent :=
  if r.t.state = .data ∧ r.i ≠ r.start then [.data (.buffer r.start) (sizeT r.i r.start)] else []

/-- `recv` writes to the beginning of the buffer, and `telnet_recv` is called on the bytes. -/
def Receiver.recv (r : Receiver) (c : Chunk) : Receiver :=
  { r with
    sip := { r.sip with mem := c.bytes ++ r.sip.mem.drop c.bytes.length }
    chunk := c.bytes
    i := 0
    start := 0
    busy := true }

/-- One step of the receive loop; nothing follows after `sip_event` has failed. -/
def recvStep (term : Option CStr) :
    Option Receiver → Feed → Except Unit (Option Receiver × List Delivery)
  | none, _ => .error ()
  | some r, .recv c =>
    if r.busy then .error () else .ok (some (r.recv c), [])
  | some r, .byte =>
    if r.busy ∧ r.i < r.chunk.length then
      let b := byteStep r.t r.i r.start r.current
      let d := deliver term r.chunk r.sip b.2.2
      .ok (d.1.map fun sip => { r with t := b.1, sip := sip, i := r.i + 1, start := b.2.1 }, d.2)
    else .error ()
  | some r, .flush =>
    if r.busy ∧ r.i = r.chunk.length then
      let d := deliver term r.chunk r.sip (pendingEvents r)
      .ok (d.1.map fun sip => { r with sip := sip, busy := false }, d.2)
    else .error ()

theorem recvStep_cases {term : Option CStr} {s s' : Option Receiver} {feed : Feed}
    {outs : List Delivery} (h : recvStep term s feed = .ok (s', outs)) :
    ∃ r, s = some r ∧
      ((∃ c, feed = .recv c ∧ r.busy = false ∧ s' = some (r.recv c) ∧ outs = []) ∨
        (feed = .byte ∧ r.busy = true ∧ r.i < r.chunk.length ∧
          let b := byteStep r.t r.i r.start r.current
          let d := deliver term r.chunk r.sip b.2.2
          s' = d.1.map (fun sip => { r with t := b.1, sip := sip, i := r.i + 1, start := b.2.1 }) ∧
            outs = d.2) ∨
        (feed = .flush ∧ r.busy = true ∧ r.i = r.chunk.length ∧
          let d := deliver term r.chunk r.sip (pendingEvents r)
          s' = d.1.map (fun sip => { r with sip := sip, busy := false }) ∧ outs = d.2)) := by
  rcases s with _ | r
  · simp [recvStep] at h
  refine ⟨r, rfl, ?_⟩
  cases feed with
  | recv c =>
    simp only [recvStep] at h
    split_ifs at h with busy
    cases h
    exact Or.inl ⟨c, rfl, by simpa using busy, rfl, rfl⟩
  | byte =>
    simp only [recvStep] at h
    split_ifs at h with hb
    cases h
    exact Or.inr (Or.inl ⟨rfl, hb.1, hb.2, rfl, rfl⟩)
  | flush =>
    simp only [recvStep] at h
    split_ifs at h with hb
    cases h
    exact Or.inr (Or.inr ⟨rfl, hb.1, hb.2, rfl, rfl⟩)

/-- A recorded step of the receive loop. -/
abbrev RecvMove := Move (Option Receiver) Feed Delivery

abbrev recvTrace (term : Option CStr) (env : Answers) (feeds : List Feed) : List RecvMove :=
  trace (recvStep term) (some (initReceiver env)) feeds

/-! ### What is queued for an event -/

def SipOut.evt? : SipOut → Option RawEvt
  | .queue evt => some evt
  | .send _ => none

/-- The events that `sip_event` queues, unless it fails. -/
def Delivery.queued (term : Option CStr) (d : Delivery) : Option (List RawEvt) :=
  (sipEvent term d.sip d.ev).map fun r => r.2.filterMap SipOut.evt?

/-- What `sip_event_queue` adds for each token of a `TELNET_EV_DATA` event. -/
def Delivery.tokenEvts (d : Delivery) : List (Option RawEvt) :=
  match d.ev with
  | .data (.buffer off) _ => (sipQueue d.sip.mallocs (tokens 10 (cstr (d.sip.mem.drop off)))).1
  | _ => []

/-- The bytes that a `TELNET_EV_DATA` event is about, as they were received. -/
def Delivery.received (d : Delivery) : Option (List Byte) :=
  match d.ev with
  | .data (.buffer off) size =>
    if off + size ≤ d.chunk.length then some ((d.chunk.drop off).take size) else none
  | .data (.byte b) _ => some [b]
  | _ => none

def Delivery.isData (d : Delivery) : Bool := d.ev.isData

/-- `sip_event` returns, and has queued the events of the tokens of the event's own bytes, each for
its own token and nothing for another one. -/
def Delivery.OwnLines (term : Option CStr) (d : Delivery) : Prop :=
  ∃ data, d.received = some data ∧ d.queued term ≠ none ∧
    Aligned d.tokenEvts ((tokens 10 data).map sipEvt)

/-- Of the C string `s` and the data, one goes on where the other ends.  Memory is left for the
results of the shorter one, and the rest of the longer one changes none of them and adds none for
which memory is left; results that the data add are missing in any case. -/
def Undisturbed {β : Type} (f : List Byte → Option β) (mallocs : List Bool)
    (s data : List Byte) : Prop :=
  (∀ y, s = data ++ y → Unheard f 10 mallocs data y) ∧
    ∀ y, data = s ++ y → Granted mallocs (results f 10 s).length ∧ Quiet f 10 s y

instance {β : Type} [DecidableEq β] (f : List Byte → Option β) (mallocs : List Bool)
    (s data : List Byte) : Decidable (Undisturbed f mallocs s data) :=
  decidable_of_iff
    ((data <+: s → Unheard f 10 mallocs data (s.drop data.length)) ∧
      (s <+: data → Granted mallocs (results f 10 s).length ∧
        Quiet f 10 s (data.drop s.length))) <| by
    constructor
    · rintro ⟨h₁, h₂⟩
      exact ⟨fun y hy => by simpa [hy] using h₁ ⟨y, hy.symm⟩,
        fun y hy => by simpa [hy] using h₂ ⟨y, hy.symm⟩⟩
    · rintro ⟨h₁, h₂⟩
      exact ⟨fun ⟨y, hy⟩ => h₁ _ (by simp [← hy]), fun ⟨y, hy⟩ => h₂ _ (by simp [← hy])⟩

/-- The event is not an escaped byte, lies inside the bytes received, is followed by a NUL inside
the buffer, and the text up to this NUL gives the events of the event's own lines. -/
def Delivery.Isolated {β : Type} (f : List Byte → Option β) (d : Delivery) : Prop :=
  ∃ r ∈ d.ev.range?, r.1 + r.2 ≤ d.chunk.length ∧ 0 ∈ d.sip.mem.drop r.1 ∧
    Undisturbed f d.sip.mallocs (cstr (d.sip.mem.drop r.1)) ((d.chunk.drop r.1).take r.2)

instance {β : Type} [DecidableEq β] (f : List Byte → Option β) :
    DecidablePred (Delivery.Isolated f) := fun d =>
  inferInstanceAs (Decidable (∃ r ∈ d.ev.range?, _))

theorem isolated_buffer {β : Type} {f : List Byte → Option β} {chunk : List Byte} {sip : Sip}
    {off size : ℕ} :
    (Delivery.mk chunk sip (.data (.buffer off) size)).Isolated f ↔
      off + size ≤ chunk.length ∧ 0 ∈ sip.mem.drop off ∧
        Undisturbed f sip.mallocs (cstr (sip.mem.drop off)) ((chunk.drop off).take size) := by
  simp [Delivery.Isolated, TelnetEvent.range?]

theorem not_isolated_byte {β : Type} {f : List Byte → Option β} {chunk : List Byte} {sip : Sip}
    {b : Byte} {size : ℕ} : ¬ (Delivery.mk chunk sip (.data (.byte b) size)).Isolated f := by
  simp [Delivery.Isolated, TelnetEvent.range?]

/-! ### The receive buffer -/

/-- `cur` is `orig`, with some line ends overwritten. -/
def Marked (orig cur : List Byte) : Prop :=
  List.Forall₂ (fun a b => b = a ∨ (a = 10 ∧ b = 0)) orig cur

theorem Marked.refl (mem : List Byte) : Marked mem mem := List.forall₂_same.2 fun _ _ => .inl rfl

theorem Marked.trans {a b c : List Byte} (hab : Marked a b) (hbc : Marked b c) : Marked a c := by
  induction hab generalizing c with
  | nil => exact hbc
  | cons h _ ih =>
    cases hbc with
    | cons h' hbc =>
      refine .cons ?_ (ih hbc)
      rcases h with rfl | ⟨rfl, rfl⟩
      · exact h'
      · rcases h' with rfl | ⟨h', -⟩
        · exact .inr ⟨rfl, rfl⟩
        · exact absurd h' (by decide)

theorem Marked.append {a b c e : List Byte} (hab : Marked a b) (hce : Marked c e) :
    Marked (a ++ c) (b ++ e) := List.rel_append hab hce

theorem strtokMem_marked (inToken : Bool) (mem : List Byte) :
    Marked mem (strtokMem inToken mem) := by
  induction mem generalizing inToken with
  | nil => exact .nil
  | cons b mem ih =>
    unfold strtokMem
    split_ifs with h0 h10 htok
    · exact Marked.refl _
    · exact .cons (.inr ⟨h10, rfl⟩) (ih false)
    · exact .cons (.inl rfl) (ih false)
    · exact .cons (.inl rfl) (ih true)

theorem sendAll_frame {sip sip' : Sip} {parts : List (List Byte)} {outs : List SipOut}
    (h : sip.sendAll parts = some (sip', outs)) :
    sip' = { sip with sends := sip.sends.drop (sendCount parts) } ∧ outs = parts.map .send := by
  rw [sendAll_eq] at h
  split_ifs at h
  cases h
  exact ⟨rfl, rfl⟩

/-- Only line ends are overwritten. -/
theorem sipEvent_marked {term : Option CStr} {sip sip' : Sip} {ev : TelnetEvent}
    {outs : List SipOut} (h : sipEvent term sip ev = some (sip', outs)) :
    Marked sip.mem sip'.mem := by
  unfold sipEvent at h
  split at h
  · next off size =>
    split_ifs at h
    cases h
    nth_rewrite 1 [← List.take_append_drop off sip.mem]
    exact (Marked.refl _).append (strtokMem_marked _ _)
  · cases h
  · rw [(sendAll_frame h).1]
    exact Marked.refl _
  · cases h
    split_ifs <;> exact Marked.refl _
  · cases h
    split_ifs <;> exact Marked.refl _
  · split_ifs at h
    · split at h
      · cases h
      · rw [(sendAll_frame h).1]
        exact Marked.refl _
    · cases h
      exact Marked.refl _
  · cases h
    exact Marked.refl _

/-- The bytes received are in the buffer, with some line ends overwritten. -/
def Sip.Sound (chunk : List Byte) (sip : Sip) : Prop := Marked chunk (sip.mem.take chunk.length)

theorem Sip.Sound.sipEvent {term : Option CStr} {chunk : List Byte} {sip sip' : Sip}
    {ev : TelnetEvent} {outs : List SipOut} (hs : sip.Sound chunk)
    (h : sipEvent term sip ev = some (sip', outs)) : sip'.Sound chunk :=
  hs.trans (List.forall₂_take _ (sipEvent_marked h))

/-- A byte of the buffer is as it was received, unless it is an overwritten line end. -/
theorem Sip.Sound.getD {chunk : List Byte} {sip : Sip} (hs : sip.Sound chunk) {i : ℕ}
    (hi : i < chunk.length) :
    sip.mem.getD i 0 = chunk[i] ∨ (chunk[i] = 10 ∧ sip.mem.getD i 0 = 0) := by
  have hs : Marked chunk (sip.mem.take chunk.length) := hs
  have hlen : i < (sip.mem.take chunk.length).length := hs.length_eq ▸ hi
  have hmem : i < sip.mem.length := hlen.trans_le (List.length_take_le' _ _)
  have hget := List.Forall₂.get hs hi hlen
  simpa [hmem] using hget

theorem deliver_sound {term : Option CStr} {chunk : List Byte} {sip : Sip}
    {evs : List TelnetEvent} (hs : sip.Sound chunk) :
    (∀ d ∈ (deliver term chunk sip evs).2, d.chunk = chunk ∧ d.sip.Sound chunk) ∧
      ∀ sip' ∈ (deliver term chunk sip evs).1, sip'.Sound chunk := by
  induction evs generalizing sip with
  | nil => exact ⟨by simp [deliver], by simpa [deliver] using hs⟩
  | cons ev evs ih =>
    rcases h : Siproxy.sipEvent term sip ev with _ | ⟨sip', outs⟩
    · simp [deliver, h, hs]
    · obtain ⟨hlog, hend⟩ := ih (hs.sipEvent h)
      simp only [deliver, h, List.mem_cons, forall_eq_or_imp]
      exact ⟨⟨⟨trivial, hs⟩, hlog⟩, hend⟩

/-- The receiver's buffer holds the bytes received last. -/
def Receiver.Sound (r : Receiver) : Prop := r.sip.Sound r.chunk

theorem Receiver.recv_sound (r : Receiver) (c : Chunk) : (r.recv c).Sound := by
  simpa [Receiver.Sound, Sip.Sound, Receiver.recv] using Marked.refl c.bytes

theorem recvStep_sound {term : Option CStr} {s s' : Option Receiver} {feed : Feed}
    {outs : List Delivery} (hs : ∀ r ∈ s, r.Sound)
    (h : recvStep term s feed = .ok (s', outs)) :
    (∀ r ∈ s', r.Sound) ∧ ∀ d ∈ outs, d.sip.Sound d.chunk := by
  obtain ⟨r, rfl, hcases⟩ := recvStep_cases h
  have hr : r.sip.Sound r.chunk := hs r rfl
  have log : ∀ evs, ∀ d ∈ (deliver term r.chunk r.sip evs).2, d.sip.Sound d.chunk := by
    intro evs d hd
    obtain ⟨hchunk, hsound⟩ := (deliver_sound hr).1 d hd
    rwa [hchunk]
  rcases hcases with ⟨c, -, -, rfl, rfl⟩ | ⟨-, -, -, rfl, rfl⟩ | ⟨-, -, -, rfl, rfl⟩
  · refine ⟨?_, by simp⟩
    rintro _ ⟨⟩
    exact r.recv_sound c
  all_goals
    refine ⟨fun r' hr' => ?_, log _⟩
    obtain ⟨sip', hsip, rfl⟩ := Option.map_eq_some_iff.1 hr'
    exact (deliver_sound hr).2 sip' hsip

theorem recvTrace_sound {term : Option CStr} {env : Answers} {feeds : List Feed} {m : RecvMove}
    (hm : m ∈ recvTrace term env feeds) {d : Delivery} (hd : d ∈ m.outs) :
    d.sip.Sound d.chunk := by
  obtain ⟨p, q, split⟩ := List.append_of_mem hm
  have start : ∀ r ∈ some (initReceiver env), r.Sound := by
    rintro _ ⟨⟩
    exact Marked.refl _
  have hinv := (trace_invariant (fun s : Option Receiver => ∀ r ∈ s, r.Sound) start
    (fun s feed s' outs hs h => (recvStep_sound hs h).1) hm).1
  exact (recvStep_sound hinv (trace_split split).2).2 d hd

/-! ### When an event's lines are its own -/

theorem quiet_nil {β : Type} {f : List Byte → Option β} (x : List Byte) : Quiet f 10 x [] := by
  simp [Quiet, firstLine, nextLines, results, tokens, scan]

theorem unheard_nil {β : Type} {f : List Byte → Option β} {mallocs : List Bool} {x : List Byte} :
    Unheard f 10 mallocs x [] ↔ Granted mallocs (results f 10 x).length := by
  simp [Unheard, firstLine]

/-- The C string at the data's place is a prefix of the data, or goes on behind it. -/
theorem Marked.cstr_append {data cur : List Byte} (h : Marked data cur) (rest : List Byte) :
    (∃ y, cstr (cur ++ rest) = data ++ y) ∨ ∃ y, data = cstr (cur ++ rest) ++ y := by
  induction h with
  | nil => exact .inl ⟨_, rfl⟩
  | @cons a b data cur hab h ih =>
    by_cases hb : b = 0
    · exact .inr ⟨a :: data, by simp [cstr, hb]⟩
    · have hba : b = a := hab.resolve_right fun h => hb h.2
      have hstep : cstr (b :: cur ++ rest) = b :: cstr (cur ++ rest) := by simp [cstr, hb]
      rw [hstep, hba]
      rcases ih with ⟨y, hy⟩ | ⟨y, hy⟩
      · exact .inl ⟨y, by rw [hy, List.cons_append]⟩
      · exact .inr ⟨y, by rw [List.cons_append, ← hy]⟩

/-- A classifier of lines for which an empty line has no result, and a line with a result keeps
having one when it goes on. -/
structure Growing {β : Type} (f : List Byte → Option β) : Prop where
  empty : f [] = none
  grows : ∀ l more, 0 ∉ l → f l ≠ none → f (l ++ more) ≠ none

/-- The open line of a text without NUL keeps having a result. -/
theorem Growing.openLine {β : Type} {f : List Byte → Option β} (hf : Growing f) {x : List Byte}
    (hx : 0 ∉ x) (t : List Byte) (h : f (scan 10 [] x).2 ≠ none) :
    f ((scan 10 [] x).2 ++ t) ≠ none := by
  refine hf.grows _ t (fun h0 => ?_) h
  rcases scan_subset 10 [] x 0 h0 with h | h
  · simp at h
  · exact hx h

theorem Growing.undisturbed_iff {β : Type} {f : List Byte → Option β} (hf : Growing f)
    (mallocs : List Bool) {data cur : List Byte} (h : Marked data cur) (rest : List Byte) :
    Aligned (allot mallocs ((tokens 10 (cstr (cur ++ rest))).map f)) ((tokens 10 data).map f) ↔
      Undisturbed f mallocs (cstr (cur ++ rest)) data := by
  have hs := cstr_noNul (cur ++ rest)
  rcases h.cstr_append rest with ⟨y, hy⟩ | ⟨y, hy⟩
  · -- the C string goes on
    rw [hy] at hs ⊢
    have hdata : 0 ∉ data := fun h0 => hs (List.mem_append_left _ h0)
    rw [aligned_append_iff hf.empty (hf.openLine hdata)]
    constructor
    · intro hu
      refine ⟨fun y' hy' => List.append_cancel_left hy' ▸ hu, fun y' hy' => ?_⟩
      obtain ⟨rfl, rfl⟩ : y = [] ∧ y' = [] := by simpa using hy'
      rw [List.append_nil]
      exact ⟨unheard_nil.1 hu, quiet_nil data⟩
    · exact fun hu => hu.1 y rfl
  · -- the data go on
    generalize cstr (cur ++ rest) = s at hs hy ⊢
    subst hy
    rw [aligned_front_iff hf.empty (hf.openLine hs)]
    constructor
    · intro hq
      refine ⟨fun y' hy' => ?_, fun y' hy' => List.append_cancel_left hy' ▸ hq⟩
      obtain ⟨rfl, rfl⟩ : y = [] ∧ y' = [] := by simpa using hy'
      rw [List.append_nil]
      exact unheard_nil.2 hq.1
    · exact fun hu => hu.2 y rfl

theorem sipEvents_growing {l : List Byte} (hl : 0 ∉ l) (more : List Byte)
    (h : findEvent (cstr l) sipEvents ≠ .none) :
    findEvent (cstr (l ++ more)) sipEvents ≠ .none := by
  rw [cstr_of_noNul hl] at h
  rw [cstr_append hl]
  exact findEvent_append (by decide) (cstr more) h

theorem sipEvt_growing : Growing sipEvt where
  empty := sipEvt_eq_none_iff.2 (by decide)
  grows l more hl h :=
    mt sipEvt_eq_none_iff.1 (sipEvents_growing hl more (mt sipEvt_eq_none_iff.2 h))

theorem Sip.Sound.range {chunk : List Byte} {sip : Sip} (hs : sip.Sound chunk) {off size : ℕ}
    (inside : off + size ≤ chunk.length) :
    Marked ((chunk.drop off).take size) ((sip.mem.drop off).take size) := by
  have h := List.forall₂_take size (List.forall₂_drop off hs)
  rwa [List.drop_take, List.take_take, min_eq_left (by omega)] at h

/-- What the C string at a range of the chunk gives is what the range gives, unless it is
disturbed. -/
theorem Sip.Sound.undisturbed_iff {β : Type} {f : List Byte → Option β} {chunk : List Byte}
    {sip : Sip} (hs : sip.Sound chunk) (hf : Growing f) {off size : ℕ}
    (inside : off + size ≤ chunk.length) :
    Aligned (allot sip.mallocs ((tokens 10 (cstr (sip.mem.drop off))).map f))
        ((tokens 10 ((chunk.drop off).take size)).map f) ↔
      Undisturbed f sip.mallocs (cstr (sip.mem.drop off)) ((chunk.drop off).take size) := by
  have iff := hf.undisturbed_iff sip.mallocs (hs.range inside)
    ((sip.mem.drop off).drop size)
  rwa [List.take_append_drop] at iff

theorem queued_buffer {term : Option CStr} {chunk : List Byte} {sip : Sip} {off size : ℕ} :
    let d := Delivery.mk chunk sip (.data (.buffer off) size)
    d.queued term = if 0 ∈ sip.mem.drop off then some d.tokenEvts.reduceOption else none := by
  have evts (l : List RawEvt) : (l.map SipOut.queue).filterMap SipOut.evt? = l := by
    rw [List.filterMap_map]
    exact List.filterMap_some
  simp only [Delivery.queued, Delivery.tokenEvts, sipEvent]
  split_ifs
  · simp [evts]
  · rfl

theorem tokenEvts_buffer {chunk : List Byte} {sip : Sip} {off size : ℕ} :
    (Delivery.mk chunk sip (.data (.buffer off) size)).tokenEvts =
      allot sip.mallocs ((tokens 10 (cstr (sip.mem.drop off))).map sipEvt) := by
  simp [Delivery.tokenEvts, sipQueue_eq]

theorem Delivery.ownLines_iff {term : Option CStr} {d : Delivery} (hs : d.sip.Sound d.chunk)
    (hdata : d.isData = true) : d.OwnLines term ↔ d.Isolated sipEvt := by
  rcases d with ⟨chunk, sip, ev⟩
  cases ev with
  | data ptr size =>
    cases ptr with
    | byte b => simp [OwnLines, not_isolated_byte, queued, sipEvent]
    | buffer off =>
      rw [isolated_buffer]
      simp only [OwnLines, received, queued_buffer, tokenEvts_buffer]
      by_cases inside : off + size ≤ chunk.length
      · by_cases nul : 0 ∈ sip.mem.drop off
        · have iff := Sip.Sound.undisturbed_iff hs sipEvt_growing inside
          simp [inside, nul, iff]
        · simp [nul]
      · simp [inside]
  | _ => simp [isData, TelnetEvent.isData] at hdata

/-- The events of the own lines are queued, in order. -/
theorem Delivery.OwnLines.queued_eq {term : Option CStr} {d : Delivery} (h : d.OwnLines term) :
    ∃ data, d.received = some data ∧ d.queued term = some (results sipEvt 10 data) := by
  obtain ⟨data, hdata, returns, aligned⟩ := h
  refine ⟨data, hdata, ?_⟩
  rcases d with ⟨chunk, sip, ev⟩
  cases ev with
  | data ptr size =>
    cases ptr with
    | byte b => exact absurd rfl returns
    | buffer off =>
      rw [queued_buffer] at returns ⊢
      split_ifs at returns ⊢
      · rw [aligned.reduceOption_eq, reduceOption_map_tokens]
      · exact absurd rfl returns
  | _ => cases hdata

end Siproxy
