import Mathlib.Data.Int.Notation
import Siproxy.Lib.Machine

/-!
# Connecting to the broker

The connection control of `MQTTAsync.c` for one client with a clean session, together with the
callbacks of `main.c`: `mqtt_init` asks for a connection, `connlost` asks again, and
`onConnectFailure` does nothing.  The send thread processes commands and timeouts; the receive
thread takes what `MQTTAsync_cycle` has read in a second critical section (`receive`), where it
looks for the client by the number of the socket once more; the handler thread publishes.

* `connection_life`: every request for a connection makes one attempt with version 3.1.1 and one
  with 3.1 at most, and is answered by one callback; after a failure nothing happens any more.
* `lost_attempt`: an attempt on a socket with the number of the one whose error the receive thread
  has still to handle, or for which it queues a late disconnection, is closed without an answer, and
  nothing happens any more.
* `request_answered`: every other request is answered after four steps of the send thread that go
  on with it at most, whatever the network does.
-/

namespace Siproxy.Mqtt

open Machine

/-! ### The client -/

/-- `connect_state`, without SSL; `-2` is there only while a command is processed. -/
inductive ConnectState where
  | none
  | tcp
  | connack
  deriving DecidableEq

/-- `MQTTAsync_queuedCommand`: a connection with its version of MQTT (`0` at first), an internal
disconnection, or anything else. -/
inductive Command where
  | connect (version : ℕ)
  | disconnect
  | request
  deriving DecidableEq

/-- What `MQTTAsync_cycle` has left to the receive thread: the socket, whether the return code is
`SOCKET_ERROR`, and the return code of a CONNACK. -/
structure Cycled where
  sock : ℤ
  error : Bool
  connack : Option ℕ
  deriving DecidableEq

/-- The client, with the locals of the receive thread, whether it is in
`MQTTAsync_disconnect_internal` with the mutex released, and whether the handler thread has begun to
publish. -/
structure Client where
  connected : Bool
  connectState : ConnectState
  socket : ℤ
  version : ℕ
  commands : List Command
  cycled : Option Cycled
  leaving : Bool
  publishing : Bool
  deriving DecidableEq

/-- After `mqtt_init`. -/
def initClient : Client := ⟨false, .none, 0, 0, [.connect 0], none, false, false⟩

/-- Calls of the callbacks and of `MQTTAsync_connect`, and the attempts. -/
inductive ClientOut where
  | requested
  | attempt (version : ℕ)
  | success
  | failure
  | lost
  deriving DecidableEq

/-- `MQTTAsync_checkConn`, without a list of servers. -/
def checkConn (version : ℕ) : Bool := version = 4

/-- `MQTTAsync_addCommand`. -/
def addCommand (command : Command) (commands : List Command) : List Command :=
  match command, commands with
  | .connect _, .connect _ :: _ => commands
  | .disconnect, .disconnect :: _ => commands
  | .request, _ => commands ++ [command]
  | _, _ => command :: commands

/-- `MQTTAsync_closeOnly`. -/
def Client.closeOnly (s : Client) : Client :=
  { s with
    connected := false
    connectState := .none
    socket := if 0 < s.socket then 0 else s.socket }

/-- `MQTTAsync_closeSession`, with a clean session. -/
def Client.closeSession (s : Client) : Client := { s.closeOnly with commands := [] }

/-- An attempt has failed: it is put back for the other version, or given up. -/
def Client.connectFailed (s : Client) : Client × List ClientOut :=
  if checkConn s.version then
    ({ s.closeOnly with commands := addCommand (.connect s.version) s.commands }, [])
  else (s.closeSession, [.failure])

/-- `MQTTAsync_disconnect_internal`. -/
def Client.disconnectInternal (s : Client) : Client :=
  if s.connected then { s with commands := addCommand .disconnect s.commands } else s

/-- What `Socket_new` returns, with the socket. -/
inductive Tcp where
  | failed (sock : ℤ)
  | pending (sock : ℤ)
  | done (sock : ℤ)
  deriving DecidableEq

/-- The version of the next attempt. -/
def nextVersion (version : ℕ) : ℕ := if version = 0 then 4 else if version = 4 then 3 else version

/-- `MQTTAsync_processCommand`, a CONNECT for a client that is not connected; `MQTTProtocol_connect`
also fails where CONNECT is not written whole at once. -/
def Client.connect (s : Client) (version : ℕ) (tcp : Tcp) (sent : Bool) :
    Client × List ClientOut :=
  let failed (sock : ℤ) : Client × List ClientOut :=
    if checkConn version then
      ({ s with socket := sock, commands := addCommand (.connect version) s.commands },
        [.attempt version])
    else ({ s with socket := sock }, [.attempt version, .failure])
  match tcp with
  | .failed sock => failed sock
  | .pending sock =>
    ({ s with socket := sock, connectState := .tcp, version := version }, [.attempt version])
  | .done sock =>
    if sent then
      ({ s with socket := sock, connectState := .connack, version := version }, [.attempt version])
    else failed sock

/-- `MQTTAsync_processCommand`; `sent` is whether the write succeeds. -/
def Client.process (s : Client) (tcp : Tcp) (sent : Bool) : Client × List ClientOut :=
  match s.commands with
  | [] => (s, [])
  | .connect version :: commands =>
    if s.connectState ≠ .none ∨ s.connected then
      ({ s with commands := commands, version := version }, [])
    else Client.connect { s with commands := commands } (nextVersion version) tcp sent
  | .disconnect :: commands =>
    let s' : Client := { s with commands := commands }
    if s.connectState ≠ .none ∨ s.connected then
      -- the timeout of an internal disconnection is 0, so it does not wait
      if s.connected then
        -- `connlost` asks for a connection
        ({ s'.closeSession with commands := addCommand (.connect 0) [] }, [.lost, .requested])
      else (s'.closeSession, [])
    else (s', [])
  | .request :: commands =>
    if s.connected ∧ s.connectState = .none then
      let s' : Client := { s with commands := commands }
      (if sent then s' else s'.disconnectInternal, [])
    else (s, [])

/-- What is found on a socket that is ready: the TCP connect or the read has failed, with
`SOCKET_ERROR` or another return code; a CONNACK; or another packet, whose handler may fail. -/
inductive Ready where
  | failed (error : Bool)
  | connack (rc : ℕ)
  | other (error : Bool)
  deriving DecidableEq

/-- `MQTTAsync_cycle` with `MQTTAsync_connecting`; where no client has the socket, the return code
stays `SOCKET_ERROR`. -/
def Client.cycle (s : Client) (sock : ℤ) (ready : Ready) : Client × List ClientOut :=
  if 0 < sock ∧ s.socket = sock then
    match s.connectState, ready with
    | .tcp, .failed error =>
      let failed := s.connectFailed
      ({ failed.1 with cycled := some ⟨sock, error, none⟩ }, failed.2)
    | .tcp, _ => ({ s with connectState := .connack, cycled := some ⟨sock, false, none⟩ }, [])
    | .connack, .failed true =>
      let failed := s.connectFailed
      ({ failed.1 with cycled := some ⟨sock, true, none⟩ }, failed.2)
    | _, .failed error => ({ s with cycled := some ⟨sock, error, none⟩ }, [])
    | _, .connack rc => ({ s with cycled := some ⟨sock, false, some rc⟩ }, [])
    | _, .other error => ({ s with cycled := some ⟨sock, error, none⟩ }, [])
  else ({ s with cycled := some ⟨sock, true, none⟩ }, [])

/-- `MQTTAsync_completeConnection` and the callbacks; `onConnect` publishes and subscribes to three
topics. -/
def Client.completeConnection (s : Client) (rc : ℕ) : Client × List ClientOut :=
  if s.connectState = .connack ∧ rc = 0 then
    ({ s with
      connected := true
      connectState := .none
      commands := [.request, .request, .request, .request] }, [.success])
  else s.connectFailed

/-- `MQTTAsync_receiveThread` behind `MQTTAsync_cycle`. -/
def Client.receive (s : Client) (c : Cycled) : Client × List ClientOut :=
  if c.sock = 0 ∨ s.socket ≠ c.sock then (s, [])
  else if c.error then (if s.connected then { s with leaving := true } else s.closeOnly, [])
  else
    match c.connack with
    | none => (s, [])
    | some rc => s.completeConnection rc

/-- The steps of the threads: a command or a timeout of the connection in the send thread, the two
parts of the receive thread, its `MQTTAsync_disconnect_internal`, which queues the disconnection or
finds that the connection is lost already, `MQTTProtocol_closeSession` in one of its calls of
`MQTTProtocol_keepalive` and `MQTTProtocol_retry`, and the two parts of `MQTTAsync_send` in the
handler thread. -/
inductive ClientOp where
  | process (tcp : Tcp) (sent : Bool)
  | checkTimeouts
  | cycle (sock : ℤ) (ready : Ready)
  | receive
  | hangUp
  | giveUp
  | closeSession
  | beginSend
  | endSend
  deriving DecidableEq

/-- A thread is not at this step, or `mqtt_pub` exits. -/
inductive ClientHalt where
  | notThere
  | exit
  deriving DecidableEq

def clientStep (s : Client) : ClientOp → Except ClientHalt (Client × List ClientOut)
  | .process tcp sent => .ok (s.process tcp sent)
  | .checkTimeouts => .ok (if s.connectState = .none then (s, []) else s.connectFailed)
  | .cycle sock ready =>
    if s.cycled = none ∧ s.leaving = false then .ok (s.cycle sock ready) else .error .notThere
  | .receive =>
    match s.cycled with
    | none => .error .notThere
    | some c => .ok (Client.receive { s with cycled := none } c)
  | .hangUp =>
    -- the connection was there when the thread came here
    if s.leaving then
      .ok ({ s with leaving := false, commands := addCommand .disconnect s.commands }, [])
    else .error .notThere
  | .giveUp =>
    if s.leaving ∧ s.connected = false then .ok ({ s with leaving := false }, [])
    else .error .notThere
  | .closeSession => .ok (s.disconnectInternal, [])
  | .beginSend =>
    if s.publishing then .error .notThere
    else if s.connected then .ok ({ s with publishing := true }, [])
    else .error .exit
  | .endSend =>
    if s.publishing then
      .ok ({ s with publishing := false, commands := addCommand .request s.commands }, [])
    else .error .notThere

abbrev ClientMove := Move Client ClientOp ClientOut

abbrev clientTrace (ops : List ClientOp) : List ClientMove := trace clientStep initClient ops

/-! ### The life of a connection -/

/-- A request with the version of its last attempt, a connection, the moment between its loss and
the next request, and the end. -/
inductive Life where
  | asked (version : ℕ)
  | up
  | down
  | ended
  deriving DecidableEq

/-- What may happen next. -/
def Life.see : Life → ClientOut → Option Life
  | .asked version, .attempt next =>
    if version ≠ 3 ∧ next = nextVersion version then some (.asked next) else none
  | .asked version, .success => if version ≠ 0 then some .up else none
  | .asked version, .failure => if version = 3 then some .ended else none
  | .up, .lost => some .down
  | .down, .requested => some (.asked 0)
  | _, _ => none

/-- The life that the outputs lead to. -/
def Life.after (life : Life) (outs : List ClientOut) : Option Life := outs.foldlM Life.see life

/-- A CONNACK is handled while an attempt is under way: the broker sends it as its answer to
CONNECT, and no socket that has failed has the number of the one it came on. -/
def ClientOp.Expected (s : Client) : ClientOp → Prop
  | .receive => ∀ c ∈ s.cycled, c.connack ≠ none → s.socket = c.sock → s.connectState ≠ .none
  | _ => True

instance (s : Client) (op : ClientOp) : Decidable (op.Expected s) :=
  match op with
  | .receive => inferInstanceAs (Decidable (∀ c ∈ s.cycled, _))
  | .process _ _ | .checkTimeouts | .cycle _ _ | .hangUp | .giveUp | .closeSession | .beginSend
  | .endSend => inferInstanceAs (Decidable True)

/-- An attempt is closed without an answer: the send thread processes a disconnection that the
receive thread has queued too late, when the connection had been lost and asked for again; or the
receive thread handles an error of a socket that is closed, and the one of the attempt has the same
number. -/
def Abandons (s : Client) : ClientOp → Prop
  | .process _ _ => s.connected = false ∧ s.connectState ≠ .none ∧
      s.commands.head? = some .disconnect
  | .receive => ∃ c ∈ s.cycled, c.error = true ∧ c.sock ≠ 0 ∧ s.socket = c.sock ∧
      s.connectState ≠ .none
  | _ => False

instance (s : Client) (op : ClientOp) : Decidable (Abandons s op) :=
  match op with
  | .process _ _ => inferInstanceAs (Decidable (_ ∧ _ ∧ _))
  | .receive => inferInstanceAs (Decidable (∃ c ∈ s.cycled, _))
  | .checkTimeouts | .cycle _ _ | .hangUp | .giveUp | .closeSession | .beginSend | .endSend =>
    inferInstanceAs (Decidable False)

/-- No connection is asked for. -/
def NoConnect (commands : List Command) : Prop := ∀ version, .connect version ∉ commands

/-- Nothing is under way. -/
structure Client.Silent (s : Client) : Prop where
  connected : s.connected = false
  state : s.connectState = .none
  others : NoConnect s.commands

/-- What is under way for the life of the connection. -/
inductive Client.Live (s : Client) : Life → Prop
  | queued (version : ℕ) (late commands : List Command) (connected : s.connected = false)
    (state : s.connectState = .none) (queue : s.commands = late ++ .connect version :: commands)
    (disconnects : ∀ c ∈ late, c = .disconnect) (others : NoConnect commands)
    (first : version = 0 ∨ version = 4) : s.Live (.asked version)
  | trying (connected : s.connected = false) (state : s.connectState ≠ .none)
    (others : NoConnect s.commands) (tried : s.version = 4 ∨ s.version = 3) :
    s.Live (.asked s.version)
  | up (connected : s.connected = true) (state : s.connectState = .none)
    (others : NoConnect s.commands) : s.Live .up
  | ended (silent : s.Silent) : s.Live .ended

/-- The life goes on. -/
def Goes (life : Life) (next : Client × List ClientOut) : Prop :=
  ∃ life', life.after next.2 = some life' ∧ next.1.Live life'

/-! ### What a step does -/

section Steps

variable {s : Client} {life : Life}

theorem Client.closeOnly_silent (others : NoConnect s.commands) : s.closeOnly.Silent :=
  ⟨rfl, rfl, others⟩

theorem Client.closeSession_silent (s : Client) : s.closeSession.Silent :=
  ⟨rfl, rfl, by simp [NoConnect, Client.closeSession]⟩

theorem NoConnect.of_suffix {commands rest : List Command} (others : NoConnect commands)
    (tail : rest <:+ commands) : NoConnect rest :=
  fun version mem => others version (tail.subset mem)

theorem NoConnect.queue {commands : List Command} {c : Command} (others : NoConnect commands)
    (other : ∀ version, c ≠ .connect version) : NoConnect (addCommand c commands) := by
  intro version mem
  have cases : Command.connect version ∈ commands ∨ Command.connect version = c := by
    unfold addCommand at mem
    split at mem
    · exact .inl mem
    · exact .inl mem
    · simpa using mem
    · simpa [or_comm] using mem
  rcases cases with mem | rfl
  · exact others version mem
  · exact other version rfl

theorem NoConnect.disconnect {commands : List Command} (others : NoConnect commands) :
    NoConnect (addCommand .disconnect commands) :=
  others.queue (by simp)

theorem NoConnect.request {commands : List Command} (others : NoConnect commands) :
    NoConnect (addCommand .request commands) :=
  others.queue (by simp)

/-- A connection is queued in front of the other commands. -/
theorem addCommand_connect {commands : List Command} (others : NoConnect commands)
    (version : ℕ) : addCommand (.connect version) commands = .connect version :: commands := by
  cases commands with
  | nil => rfl
  | cons c commands =>
    cases c with
    | connect other => exact absurd List.mem_cons_self (others other)
    | disconnect => rfl
    | request => rfl

/-- An attempt that has failed is put back once. -/
theorem Client.connectFailed_goes (others : NoConnect s.commands)
    (tried : s.version = 4 ∨ s.version = 3) : Goes (.asked s.version) s.connectFailed := by
  rcases tried with tried | tried
  · have again : checkConn s.version = true := by simp [checkConn, tried]
    rw [Client.connectFailed, if_pos again]
    refine ⟨.asked s.version, rfl, ?_⟩
    exact .queued _ [] s.commands rfl rfl (addCommand_connect others _) (by simp) others
      (.inr tried)
  · have last : ¬ checkConn s.version = true := by simp [checkConn, tried]
    rw [Client.connectFailed, if_neg last, tried]
    exact ⟨.ended, rfl, .ended s.closeSession_silent⟩

theorem Client.Live.goes (live : s.Live life) : Goes life (s, []) := ⟨life, rfl, live⟩

theorem Client.connect_goes (connected : s.connected = false) (state : s.connectState = .none)
    (others : NoConnect s.commands) {version : ℕ} (first : version = 0 ∨ version = 4)
    (tcp : Tcp) (sent : Bool) :
    Goes (.asked version) (s.connect (nextVersion version) tcp sent) := by
  have attempted : (Life.asked version).see (.attempt (nextVersion version)) =
      some (.asked (nextVersion version)) := by
    rcases first with rfl | rfl <;> rfl
  have next : nextVersion version = 4 ∨ nextVersion version = 3 := by
    rcases first with rfl | rfl <;> simp [nextVersion]
  generalize nextVersion version = tried at attempted next
  have failed (sock : ℤ) : Goes (.asked version) (s.connect tried (.failed sock) sent) := by
    rcases next with rfl | rfl
    · refine ⟨.asked 4, by simp [Client.connect, checkConn, Life.after, attempted], ?_⟩
      exact .queued 4 [] s.commands connected state (addCommand_connect others 4) (by simp) others
        (.inr rfl)
    · have given : (Life.asked version).after [.attempt 3, .failure] = some .ended := by
        rw [Life.after, List.foldlM_cons, attempted]
        rfl
      exact ⟨.ended, given, .ended ⟨connected, state, others⟩⟩
  cases tcp with
  | failed sock => exact failed sock
  | pending sock =>
    refine ⟨.asked tried, by simp [Client.connect, Life.after, attempted], ?_⟩
    exact .trying (s := (s.connect tried (.pending sock) sent).1) connected
      (by simp [Client.connect]) others next
  | done sock =>
    cases sent with
    | false => exact failed sock
    | true =>
      refine ⟨.asked tried, by simp [Client.connect, Life.after, attempted], ?_⟩
      exact .trying (s := (s.connect tried (.done sock) true).1) connected
        (by simp [Client.connect]) others next

/-- A late disconnection without an attempt is dropped. -/
theorem Client.process_drops (connected : s.connected = false) (state : s.connectState = .none)
    {commands : List Command} (queue : s.commands = .disconnect :: commands) (tcp : Tcp)
    (sent : Bool) : s.process tcp sent = ({ s with commands := commands }, []) := by
  unfold Client.process
  rw [queue]
  simp [connected, state]

/-- Without an attempt, what is not a connection does nothing. -/
theorem Client.process_idle (connected : s.connected = false) (others : NoConnect s.commands)
    (keeps : s.connectState = .none ∨ s.commands.head? ≠ some .disconnect) (tcp : Tcp)
    (sent : Bool) : ∃ commands, commands <:+ s.commands ∧
      s.process tcp sent = ({ s with commands := commands }, []) := by
  by_cases late : s.commands.head? = some .disconnect
  · obtain ⟨commands, queue⟩ := List.head?_eq_some_iff.1 late
    have state := keeps.resolve_right (not_not_intro late)
    refine ⟨commands, ?_, s.process_drops connected state queue tcp sent⟩
    rw [queue]
    exact List.suffix_cons _ _
  · have waits : s.process tcp sent = (s, []) := by
      unfold Client.process
      cases queue : s.commands with
      | nil => rfl
      | cons c commands =>
        cases c with
        | connect version => exact absurd (queue ▸ List.mem_cons_self) (others version)
        | disconnect => exact absurd (by rw [queue]; rfl) late
        | request => simp [connected]
    exact ⟨s.commands, List.suffix_refl _, waits⟩

/-- A late disconnection closes the attempt. -/
theorem Client.process_abandons (connected : s.connected = false) (state : s.connectState ≠ .none)
    (late : s.commands.head? = some .disconnect) (tcp : Tcp) (sent : Bool) :
    (s.process tcp sent).2 = [] ∧ (s.process tcp sent).1.Silent := by
  obtain ⟨commands, queue⟩ := List.head?_eq_some_iff.1 late
  unfold Client.process
  rw [queue]
  dsimp only
  rw [if_pos (.inl state), if_neg (by simp [connected])]
  exact ⟨rfl, Client.closeSession_silent _⟩

theorem Client.Live.frame (live : s.Live life) (cycled : Option Cycled)
    (leaving publishing : Bool) :
    Client.Live { s with cycled := cycled, leaving := leaving, publishing := publishing } life := by
  cases live with
  | queued version late commands connected state queue disconnects others first =>
    exact .queued version late commands connected state queue disconnects others first
  | trying connected state others tried =>
    exact .trying (s := { s with cycled := cycled, leaving := leaving, publishing := publishing })
      connected state others tried
  | up connected state others => exact .up connected state others
  | ended silent => exact .ended ⟨silent.connected, silent.state, silent.others⟩

theorem Client.Live.queueDisconnect (live : s.Live life) :
    Client.Live { s with commands := addCommand .disconnect s.commands } life := by
  cases live with
  | queued version late commands connected state queue disconnects others first =>
    cases late with
    | nil =>
      refine .queued version [.disconnect] commands connected state ?_ (by simp) others first
      rw [queue]
      rfl
    | cons c late =>
      refine .queued version (c :: late) commands connected state ?_ disconnects others first
      rw [queue, disconnects c List.mem_cons_self]
      rfl
  | trying connected state others tried =>
    exact .trying (s := { s with commands := addCommand .disconnect s.commands }) connected state
      others.disconnect tried
  | up connected state others => exact .up connected state others.disconnect
  | ended silent => exact .ended ⟨silent.connected, silent.state, silent.others.disconnect⟩

theorem Client.Live.disconnectInternal (live : s.Live life) : s.disconnectInternal.Live life := by
  unfold Client.disconnectInternal
  split_ifs
  · exact live.queueDisconnect
  · exact live

theorem Client.Live.process (live : s.Live life) (tcp : Tcp) (sent : Bool)
    (kept : ¬ Abandons s (.process tcp sent)) : Goes life (s.process tcp sent) := by
  cases live with
  | queued version late commands connected state queue disconnects others first =>
    cases late with
    | nil =>
      unfold Client.process
      rw [queue]
      dsimp only [List.nil_append]
      rw [if_neg (by simp [connected, state])]
      exact Client.connect_goes (s := { s with commands := commands }) connected state others first
        tcp sent
    | cons c late =>
      obtain rfl := disconnects c List.mem_cons_self
      have rest : ∀ c ∈ late, c = .disconnect :=
        fun c mem => disconnects c (List.mem_cons_of_mem _ mem)
      have live : Client.Live { s with commands := late ++ .connect version :: commands }
          (.asked version) :=
        .queued version late commands connected state rfl rest others first
      rw [s.process_drops connected state queue]
      exact live.goes
  | trying connected state others tried =>
    have keeps : s.commands.head? ≠ some .disconnect := fun late => kept ⟨connected, state, late⟩
    obtain ⟨commands, tail, same⟩ := s.process_idle connected others (.inr keeps) tcp sent
    rw [same]
    exact (Client.Live.trying (s := { s with commands := commands }) connected state
      (others.of_suffix tail) tried).goes
  | ended silent =>
    obtain ⟨commands, tail, same⟩ :=
      s.process_idle silent.connected silent.others (.inl silent.state) tcp sent
    have silent' : Client.Silent { s with commands := commands } :=
      ⟨silent.connected, silent.state, silent.others.of_suffix tail⟩
    rw [same]
    exact (Client.Live.ended silent').goes
  | up connected state others =>
    unfold Client.process
    cases queue : s.commands with
    | nil => exact (Client.Live.up connected state others).goes
    | cons c rest =>
      rw [queue] at others
      cases c with
      | connect version => exact absurd List.mem_cons_self (others version)
      | disconnect =>
        simp only [connected, state, or_true, if_true]
        refine ⟨.asked 0, rfl, ?_⟩
        exact .queued 0 [] [] rfl rfl rfl (by simp) (by simp [NoConnect]) (.inl rfl)
      | request =>
        have on : Client.Live { s with commands := rest } .up :=
          .up connected state (others.of_suffix (List.suffix_cons _ _))
        dsimp only
        rw [if_pos ⟨connected, state⟩]
        cases sent with
        | true => exact on.goes
        | false => exact on.disconnectInternal.goes

/-- Only an attempt is in a state other than `0`. -/
theorem Client.Live.trying_of_state (live : s.Live life) (state : s.connectState ≠ .none) :
    life = .asked s.version ∧ s.connected = false ∧ NoConnect s.commands ∧
      (s.version = 4 ∨ s.version = 3) := by
  cases live with
  | queued _ _ _ _ none => exact absurd none state
  | trying connected _ others tried => exact ⟨rfl, connected, others, tried⟩
  | up _ none => exact absurd none state
  | ended silent => exact absurd silent.state state

theorem Client.Live.connectFailed (live : s.Live life) (state : s.connectState ≠ .none) :
    Goes life s.connectFailed := by
  obtain ⟨rfl, -, others, tried⟩ := live.trying_of_state state
  exact Client.connectFailed_goes others tried

theorem Goes.frame {next : Client × List ClientOut} (h : Goes life next)
    (cycled : Option Cycled) : Goes life ({ next.1 with cycled := cycled }, next.2) := by
  obtain ⟨life', seen, live⟩ := h
  exact ⟨life', seen, live.frame cycled _ _⟩

theorem Client.cycle_of_none (state : s.connectState = .none) (sock : ℤ) (ready : Ready) :
    ∃ c, s.cycle sock ready = ({ s with cycled := c }, []) := by
  unfold Client.cycle
  rw [state]
  split_ifs
  · cases ready <;> exact ⟨_, rfl⟩
  · exact ⟨_, rfl⟩

theorem Client.Live.cycle (live : s.Live life) (sock : ℤ) (ready : Ready) :
    Goes life (s.cycle sock ready) := by
  by_cases state : s.connectState = .none
  · obtain ⟨c, same⟩ := Client.cycle_of_none state sock ready
    rw [same]
    exact (live.frame c _ _).goes
  · have failed := live.connectFailed state
    obtain ⟨rfl, connected, others, tried⟩ := live.trying_of_state state
    have sent (cycled : Option Cycled) : Client.Live
        { s with connectState := .connack, cycled := cycled } (.asked s.version) :=
      .trying (s := { s with connectState := .connack, cycled := cycled }) connected (by simp)
        others tried
    unfold Client.cycle
    split_ifs
    · split
      · exact failed.frame _
      · exact (sent _).goes
      · exact failed.frame _
      · exact (live.frame _ _ _).goes
      · exact (live.frame _ _ _).goes
      · exact (live.frame _ _ _).goes
    · exact (live.frame _ _ _).goes

theorem Client.Live.receive (live : s.Live life) {c : Cycled}
    (expected : c.connack ≠ none → s.socket = c.sock → s.connectState ≠ .none)
    (kept : ¬ (c.error = true ∧ c.sock ≠ 0 ∧ s.socket = c.sock ∧ s.connectState ≠ .none)) :
    Goes life (s.receive c) := by
  unfold Client.receive
  split_ifs with away error connected
  · exact live.goes
  · exact (live.frame s.cycled true s.publishing).goes
  · rw [not_or, not_not] at away
    have state : s.connectState = .none := by
      by_contra trying
      exact kept ⟨error, away.1, away.2, trying⟩
    cases live with
    | queued version late commands _ _ queue disconnects others first =>
      exact (Client.Live.queued (s := s.closeOnly) version late commands rfl rfl queue disconnects
        others first).goes
    | trying _ trying => exact absurd state trying
    | up on => exact absurd on connected
    | ended silent => exact (Client.Live.ended (Client.closeOnly_silent silent.others)).goes
  · rw [not_or, not_not] at away
    cases connack : c.connack with
    | none => exact live.goes
    | some rc =>
      have trying := expected (by simp [connack]) away.2
      dsimp only
      unfold Client.completeConnection
      split_ifs with accepted
      · obtain ⟨rfl, -, -, tried⟩ := live.trying_of_state trying
        refine ⟨.up, ?_, .up rfl rfl (by simp [NoConnect])⟩
        have attempted : s.version ≠ 0 := by omega
        simp [Life.after, Life.see, attempted]
      · exact live.connectFailed trying

theorem Client.Live.abandon (live : s.Live life) {c : Cycled} (error : c.error = true)
    (sock : c.sock ≠ 0) (found : s.socket = c.sock) (trying : s.connectState ≠ .none) :
    (s.receive c).2 = [] ∧ (s.receive c).1.Silent := by
  obtain ⟨-, connected, others, -⟩ := live.trying_of_state trying
  have away : ¬ (c.sock = 0 ∨ s.socket ≠ c.sock) := by simp [sock, found]
  rw [Client.receive, if_neg away, if_pos error, connected]
  exact ⟨rfl, Client.closeOnly_silent others⟩

theorem Client.Silent.frame (silent : s.Silent) (cycled : Option Cycled)
    (leaving publishing : Bool) :
    Client.Silent { s with cycled := cycled, leaving := leaving, publishing := publishing } :=
  ⟨silent.connected, silent.state, silent.others⟩

theorem Client.Silent.receive (silent : s.Silent) {c : Cycled}
    (expected : c.connack ≠ none → s.socket = c.sock → s.connectState ≠ .none) :
    (s.receive c).2 = [] ∧ (s.receive c).1.Silent := by
  unfold Client.receive
  split_ifs with away error connected
  · exact ⟨rfl, silent⟩
  · simp [silent.connected] at connected
  · exact ⟨rfl, Client.closeOnly_silent silent.others⟩
  · rw [not_or, not_not] at away
    cases connack : c.connack with
    | none => exact ⟨rfl, silent⟩
    | some rc =>
      exact absurd silent.state (expected (by simp [connack]) away.2)

theorem addCommand_request (commands : List Command) :
    addCommand .request commands = commands ++ [.request] := by
  unfold addCommand
  split <;> simp_all

theorem Client.Live.endSend (live : s.Live life) :
    Client.Live { s with publishing := false, commands := addCommand .request s.commands }
      life := by
  cases live with
  | queued version late commands connected state queue disconnects others first =>
    have added : NoConnect (commands ++ [.request]) := by
      rw [← addCommand_request]
      exact others.request
    refine .queued version late (commands ++ [.request]) connected state ?_ disconnects added first
    change addCommand .request s.commands = _
    rw [addCommand_request, queue, List.append_assoc]
    rfl
  | trying connected state others tried =>
    exact .trying (s := { s with publishing := false, commands := addCommand .request s.commands })
      connected state others.request tried
  | up connected state others => exact .up connected state others.request
  | ended silent => exact .ended ⟨silent.connected, silent.state, silent.others.request⟩

end Steps

/-- What each step does. -/
inductive Client.Steps (s : Client) : ClientOp → Client → List ClientOut → Prop
  | process (tcp : Tcp) (sent : Bool) :
    s.Steps (.process tcp sent) (s.process tcp sent).1 (s.process tcp sent).2
  | noTimeout (state : s.connectState = .none) : s.Steps .checkTimeouts s []
  | timeout (state : s.connectState ≠ .none) :
    s.Steps .checkTimeouts s.connectFailed.1 s.connectFailed.2
  | cycle (sock : ℤ) (ready : Ready) :
    s.Steps (.cycle sock ready) (s.cycle sock ready).1 (s.cycle sock ready).2
  | receive (c : Cycled) (cycled : s.cycled = some c) :
    s.Steps .receive (Client.receive { s with cycled := none } c).1
      (Client.receive { s with cycled := none } c).2
  | hangUp : s.Steps .hangUp
      { s with leaving := false, commands := addCommand .disconnect s.commands } []
  | giveUp : s.Steps .giveUp { s with leaving := false } []
  | closeSession : s.Steps .closeSession s.disconnectInternal []
  | beginSend (connected : s.connected = true) : s.Steps .beginSend { s with publishing := true } []
  | endSend : s.Steps .endSend
      { s with publishing := false, commands := addCommand .request s.commands } []

theorem Client.steps {s s' : Client} {op : ClientOp} {outs : List ClientOut}
    (taken : clientStep s op = .ok (s', outs)) : s.Steps op s' outs := by
  cases op with
  | process tcp sent =>
    have done := Client.Steps.process (s := s) tcp sent
    rw [Except.ok.inj taken] at done
    exact done
  | checkTimeouts =>
    rw [clientStep] at taken
    split_ifs at taken with state
    · cases taken
      exact .noTimeout state
    · have done := Client.Steps.timeout state
      rw [Except.ok.inj taken] at done
      exact done
  | cycle sock ready =>
    rw [clientStep] at taken
    split_ifs at taken
    have done := Client.Steps.cycle (s := s) sock ready
    rw [Except.ok.inj taken] at done
    exact done
  | receive =>
    rw [clientStep] at taken
    cases cycled : s.cycled with
    | none =>
      rw [cycled] at taken
      cases taken
    | some c =>
      rw [cycled] at taken
      have done := Client.Steps.receive c cycled
      rw [Except.ok.inj taken] at done
      exact done
  | hangUp =>
    rw [clientStep] at taken
    split_ifs at taken
    cases taken
    exact .hangUp
  | giveUp =>
    rw [clientStep] at taken
    split_ifs at taken
    cases taken
    exact .giveUp
  | closeSession =>
    cases taken
    exact .closeSession
  | beginSend =>
    rw [clientStep] at taken
    split_ifs at taken with _ connected
    cases taken
    exact .beginSend connected
  | endSend =>
    rw [clientStep] at taken
    split_ifs at taken
    cases taken
    exact .endSend

/-- A step keeps the life of the connection, or ends it without an answer. -/
theorem Client.Live.step {s s' : Client} {life : Life} {op : ClientOp} {outs : List ClientOut}
    (live : s.Live life) (taken : clientStep s op = .ok (s', outs)) (expected : op.Expected s) :
    ¬ Abandons s op ∧ Goes life (s', outs) ∨ Abandons s op ∧ outs = [] ∧ s'.Silent := by
  cases Client.steps taken with
  | process tcp sent =>
    by_cases abandoned : Abandons s (.process tcp sent)
    · obtain ⟨connected, state, late⟩ := abandoned
      exact .inr ⟨⟨connected, state, late⟩, s.process_abandons connected state late tcp sent⟩
    · exact .inl ⟨abandoned, live.process tcp sent abandoned⟩
  | noTimeout => exact .inl ⟨id, live.goes⟩
  | timeout state => exact .inl ⟨id, live.connectFailed state⟩
  | cycle sock ready => exact .inl ⟨id, live.cycle sock ready⟩
  | receive c cycled =>
    have framed : Client.Live { s with cycled := none } life :=
      live.frame none s.leaving s.publishing
    by_cases abandoned : Abandons s .receive
    · obtain ⟨c', found, error, sock, same, trying⟩ := abandoned
      obtain rfl : c = c' := Option.some.inj (cycled.symm.trans found)
      exact .inr ⟨⟨c, found, error, sock, same, trying⟩, framed.abandon error sock same trying⟩
    · have goes := framed.receive (expected c cycled) fun h => abandoned ⟨c, cycled, h⟩
      exact .inl ⟨abandoned, goes⟩
  | hangUp => exact .inl ⟨id, (live.queueDisconnect.frame s.cycled false s.publishing).goes⟩
  | giveUp => exact .inl ⟨id, (live.frame s.cycled false s.publishing).goes⟩
  | closeSession => exact .inl ⟨id, live.disconnectInternal.goes⟩
  | beginSend => exact .inl ⟨id, (live.frame s.cycled s.leaving true).goes⟩
  | endSend => exact .inl ⟨id, live.endSend.goes⟩

theorem Client.Silent.step {s s' : Client} {op : ClientOp} {outs : List ClientOut}
    (silent : s.Silent) (taken : clientStep s op = .ok (s', outs)) (expected : op.Expected s) :
    outs = [] ∧ s'.Silent := by
  cases Client.steps taken with
  | process tcp sent =>
    obtain ⟨commands, tail, same⟩ :=
      s.process_idle silent.connected silent.others (.inl silent.state) tcp sent
    rw [same]
    exact ⟨rfl, silent.connected, silent.state, silent.others.of_suffix tail⟩
  | noTimeout => exact ⟨rfl, silent⟩
  | timeout state => exact absurd silent.state state
  | cycle sock ready =>
    obtain ⟨c, same⟩ := Client.cycle_of_none silent.state sock ready
    rw [same]
    exact ⟨rfl, silent.frame c _ _⟩
  | receive c cycled =>
    have framed : Client.Silent { s with cycled := none } :=
      silent.frame none s.leaving s.publishing
    exact framed.receive (expected c cycled)
  | hangUp => exact ⟨rfl, silent.connected, silent.state, silent.others.disconnect⟩
  | giveUp => exact ⟨rfl, silent.frame s.cycled false s.publishing⟩
  | closeSession =>
    rw [Client.disconnectInternal, silent.connected]
    exact ⟨rfl, silent⟩
  | beginSend connected => simp [silent.connected] at connected
  | endSend => exact ⟨rfl, silent.connected, silent.state, silent.others.request⟩

/-! ### All runs -/

/-- What has been shown. -/
def shown (tr : List ClientMove) : List ClientOut := tr.flatMap Move.outs

/-- An attempt has been closed without an answer. -/
def Abandoned (tr : List ClientMove) : Prop := ∃ m ∈ tr, Abandons m.pre m.input

theorem Life.after_append (life : Life) (outs more : List ClientOut) :
    life.after (outs ++ more) = (life.after outs).bind fun next => next.after more := by
  rw [Life.after, List.foldlM_append]
  rfl

/-- What is shown is a life, and what is under way belongs to it. -/
def Lived (tr : List ClientMove) (s : Client) : Prop :=
  ∃ life, (Life.asked 0).after (shown tr) = some life ∧
    (¬ Abandoned tr ∧ s.Live life ∨ Abandoned tr ∧ s.Silent)

theorem Lived.concat {tr : List ClientMove} {m : ClientMove} (lived : Lived tr m.pre)
    (expected : m.input.Expected m.pre)
    (taken : clientStep m.pre m.input = .ok (m.post, m.outs)) : Lived (tr ++ [m]) m.post := by
  obtain ⟨life, seen, under⟩ := lived
  have shows : shown (tr ++ [m]) = shown tr ++ m.outs := by simp [shown]
  have abandoned : Abandoned (tr ++ [m]) ↔ Abandoned tr ∨ Abandons m.pre m.input := by
    simp [Abandoned, or_and_right, exists_or]
  rw [Lived, shows, abandoned, Life.after_append, seen]
  rcases under with ⟨kept, live⟩ | ⟨before, silent⟩
  · rcases live.step taken expected with ⟨keeps, life', next, live'⟩ | ⟨ends, none, silent⟩
    · exact ⟨life', next, .inl ⟨not_or.2 ⟨kept, keeps⟩, live'⟩⟩
    · rw [none]
      exact ⟨life, rfl, .inr ⟨.inr ends, silent⟩⟩
  · obtain ⟨none, silent'⟩ := silent.step taken expected
    rw [none]
    exact ⟨life, rfl, .inr ⟨.inl before, silent'⟩⟩

theorem clientTrace_lived {ops : List ClientOp}
    (expected : ∀ m ∈ clientTrace ops, m.input.Expected m.pre) {p q : List ClientMove}
    (split : clientTrace ops = p ++ q) : Lived p (final initClient p) := by
  have start : Lived [] initClient :=
    ⟨.asked 0, rfl, .inl ⟨by simp [Abandoned], .queued 0 [] [] rfl rfl rfl (by simp)
      (by simp [NoConnect]) (.inl rfl)⟩⟩
  exact trace_history Lived start (fun _ m mem lived taken => lived.concat (expected m mem) taken)
    split

/-- For all runs of the threads, in any order and with any answers of the network, in which a
CONNACK is handled while an attempt is under way: what is shown is a life, one request after the
other, and what is under way is what the life is about, as long as no attempt has been closed
without an answer; otherwise nothing is under way. -/
theorem connection_life (ops : List ClientOp)
    (expected : ∀ m ∈ clientTrace ops, m.input.Expected m.pre) :
    ∀ p q, clientTrace ops = p ++ q → ∃ life, (Life.asked 0).after (shown p) = some life ∧
      (¬ Abandoned p ∧ (final initClient p).Live life ∨
        Abandoned p ∧ (final initClient p).Silent) := by
  intro p q split
  exact clientTrace_lived expected split

/-- The connection is lost, and asked for again: an attempt fails, and so does the next one. -/
def sampleLife : List ClientOp :=
  [.process (.pending 5) true, .cycle 5 (.other false), .receive, .cycle 5 (.connack 0), .receive,
    .cycle 5 (.failed true), .receive, .hangUp, .process (.pending 5) true,
    .process (.pending 6) true, .checkTimeouts, .process (.pending 7) true, .checkTimeouts]

theorem connection_life_sample :
    shown (clientTrace sampleLife) =
        [.attempt 4, .success, .lost, .requested, .attempt 4, .attempt 3, .failure] ∧
      ∀ p q, clientTrace sampleLife = p ++ q → ∃ life, (Life.asked 0).after (shown p) = some life ∧
        (¬ Abandoned p ∧ (final initClient p).Live life ∨
          Abandoned p ∧ (final initClient p).Silent) :=
  ⟨by decide, connection_life sampleLife (by decide)⟩

/-- Once an attempt has been closed without an answer, no callback is called any more, no
connection is asked for, and no attempt is made. -/
theorem lost_attempt (ops : List ClientOp)
    (expected : ∀ m ∈ clientTrace ops, m.input.Expected m.pre) {p q : List ClientMove}
    (split : clientTrace ops = p ++ q) (abandoned : Abandoned p) :
    shown q = [] ∧ ∀ m ∈ q, m.post.Silent := by
  induction q generalizing p with
  | nil => simp [shown]
  | cons m q ih =>
    have taken := trace_split split
    obtain ⟨life, -, under⟩ := clientTrace_lived expected split
    have silent : m.pre.Silent := by
      rw [taken.1]
      rcases under with ⟨kept, -⟩ | ⟨-, silent⟩
      · exact absurd abandoned kept
      · exact silent
    have mem : m ∈ clientTrace ops := by
      rw [split]
      exact List.mem_append_right _ List.mem_cons_self
    obtain ⟨none, silent'⟩ := silent.step taken.2 (expected m mem)
    have later : Abandoned (p ++ [m]) := by
      obtain ⟨m', before, closes⟩ := abandoned
      exact ⟨m', List.mem_append_left _ before, closes⟩
    obtain ⟨rest, others⟩ := ih (p := p ++ [m]) (by rw [split]; simp) later
    refine ⟨?_, ?_⟩
    · rw [shown, List.flatMap_cons, none, List.nil_append]
      exact rest
    · intro m' mem'
      rcases List.mem_cons.1 mem' with rfl | mem'
      · exact silent'
      · exact others m' mem'

/-- The broker closes the connection on which it has received CONNECT; before the receive thread
handles the error, the send thread makes the next attempt, on a socket with the same number. -/
def sampleLost : List ClientOp :=
  [.process (.pending 5) true, .cycle 5 (.other false), .receive, .cycle 5 (.failed true),
    .process (.pending 5) true, .receive, .checkTimeouts, .cycle 5 (.other false), .receive]

theorem lost_attempt_sample :
    shown (clientTrace sampleLost) = [.attempt 4, .attempt 3] ∧
      shown ((clientTrace sampleLost).drop 6) = [] ∧
        ∀ m ∈ (clientTrace sampleLost).drop 6, m.post.Silent := by
  have abandoned : Abandoned ((clientTrace sampleLost).take 6) := by
    refine ⟨_, List.getElem_mem (n := 5) (by decide), ?_⟩
    exact ⟨_, rfl, rfl, by decide, rfl, by decide⟩
  exact ⟨by decide, lost_attempt sampleLost (by decide) (List.take_append_drop 6 _).symm abandoned⟩

/-- A ping has failed on a connection that breaks: the send thread has handled that, and makes an
attempt, when the receive thread queues the disconnection once more. -/
def sampleLate : List ClientOp :=
  [.process (.pending 5) true, .cycle 5 (.other false), .receive, .cycle 5 (.connack 0), .receive,
    .closeSession, .cycle 5 (.failed true), .receive, .process (.failed 0) true,
    .process (.pending 6) true, .hangUp, .process (.failed 0) true]

example : shown (clientTrace sampleLate) =
    [.attempt 4, .success, .lost, .requested, .attempt 4] ∧
      ∃ m ∈ clientTrace sampleLate, Abandons m.pre m.input := by decide

/-! ### Requests are answered -/

/-- The first command is a connection. -/
def asks : List Command → Bool
  | .connect _ :: _ => true
  | _ => false

theorem NoConnect.asks_eq {commands : List Command} (others : NoConnect commands) :
    asks commands = false := by
  cases commands with
  | nil => rfl
  | cons c commands =>
    cases c with
    | connect version => exact absurd List.mem_cons_self (others version)
    | disconnect => rfl
    | request => rfl

/-- The version with which the next connection is asked for. -/
def wanted : List Command → Option ℕ
  | [] => none
  | .connect version :: _ => some version
  | _ :: commands => wanted commands

theorem NoConnect.wanted_eq {commands : List Command} (others : NoConnect commands) :
    wanted commands = none := by
  induction commands with
  | nil => rfl
  | cons c commands ih =>
    have rest := ih (others.of_suffix (List.suffix_cons _ _))
    cases c with
    | connect version => exact absurd List.mem_cons_self (others version)
    | disconnect => exact rest
    | request => exact rest

theorem wanted_late {late : List Command} (disconnects : ∀ c ∈ late, c = .disconnect)
    (commands : List Command) : wanted (late ++ commands) = wanted commands := by
  induction late with
  | nil => rfl
  | cons c late ih =>
    obtain rfl := disconnects c List.mem_cons_self
    exact ih fun c mem => disconnects c (List.mem_cons_of_mem _ mem)

theorem wanted_disconnect (commands : List Command) :
    wanted (addCommand .disconnect commands) = wanted commands := by
  cases commands with
  | nil => rfl
  | cons c commands => cases c <;> rfl

theorem wanted_request (commands : List Command) :
    wanted (addCommand .request commands) = wanted commands := by
  rw [addCommand_request]
  induction commands with
  | nil => rfl
  | cons c commands ih =>
    cases c with
    | connect version => rfl
    | disconnect => exact ih
    | request => exact ih

/-- A step of the send thread that goes on with the request: it makes an attempt, or gives one
up. -/
def ClientOp.works (s : Client) : ClientOp → Bool
  | .process _ _ => asks s.commands
  | .checkTimeouts => s.connectState ≠ .none
  | _ => false

/-- How many of them are left. -/
def Client.rank (s : Client) : ℕ :=
  match wanted s.commands with
  | some version => if version = 0 then 4 else 2
  | none => if s.connectState = .none then 0 else if s.version = 4 then 3 else 1

theorem Client.rank_le (s : Client) : s.rank ≤ 4 := by
  unfold Client.rank
  split <;> split_ifs <;> omega

section Rank

variable {s : Client}

theorem Client.rank_queued {version : ℕ} {commands : List Command}
    (queue : s.commands = .connect version :: commands) :
    s.rank = if version = 0 then 4 else 2 := by
  rw [Client.rank, queue, wanted]

theorem Client.rank_trying (others : NoConnect s.commands) :
    s.rank = if s.connectState = .none then 0 else if s.version = 4 then 3 else 1 := by
  rw [Client.rank, others.wanted_eq]

theorem Client.rank_commands {commands : List Command}
    (same : wanted commands = wanted s.commands) :
    Client.rank { s with commands := commands } = s.rank := by
  unfold Client.rank
  dsimp only
  rw [same]

/-- While a request waits for an answer, one of them is left. -/
theorem Client.Live.one_le_rank {version : ℕ} (live : s.Live (.asked version)) : 1 ≤ s.rank := by
  cases live with
  | queued _ late commands connected state queue disconnects =>
    have asked : wanted s.commands = some version := by
      rw [queue, wanted_late disconnects]
      rfl
    rw [Client.rank, asked]
    dsimp only
    split_ifs <;> omega
  | trying connected state others =>
    rw [Client.rank_trying others, if_neg state]
    split_ifs <;> omega

theorem Client.rank_connectFailed (others : NoConnect s.commands)
    (state : s.connectState ≠ .none) (unanswered : .failure ∉ s.connectFailed.2) :
    s.connectFailed.1.rank + 1 ≤ s.rank := by
  rw [Client.rank_trying others, if_neg state]
  by_cases four : s.version = 4
  · have again : checkConn s.version = true := by simp [checkConn, four]
    have put : s.connectFailed.1.rank = 2 := by
      rw [Client.connectFailed, if_pos again,
        Client.rank_queued (addCommand_connect others s.version), if_neg (by omega)]
    rw [if_pos four]
    omega
  · have last : ¬ checkConn s.version = true := by simp [checkConn, four]
    rw [Client.connectFailed, if_neg last] at unanswered
    simp at unanswered

theorem Client.rank_connect (others : NoConnect s.commands) {version : ℕ}
    (first : version = 0 ∨ version = 4) (tcp : Tcp) (sent : Bool)
    (unanswered : .failure ∉ (s.connect (nextVersion version) tcp sent).2) :
    (s.connect (nextVersion version) tcp sent).1.rank + 1 ≤ if version = 0 then 4 else 2 := by
  have trying (sock : ℤ) {state : ConnectState} (tries : state ≠ .none) :
      Client.rank { s with
        socket := sock
        connectState := state
        version := nextVersion version } + 1 ≤ if version = 0 then 4 else 2 := by
    rw [Client.rank_trying (s := { s with
      socket := sock
      connectState := state
      version := nextVersion version }) others, if_neg tries]
    rcases first with rfl | rfl <;> simp [nextVersion]
  have failed (sock : ℤ)
      (unanswered : .failure ∉ (s.connect (nextVersion version) (.failed sock) sent).2) :
      (s.connect (nextVersion version) (.failed sock) sent).1.rank + 1 ≤
        if version = 0 then 4 else 2 := by
    rcases first with rfl | rfl
    · change Client.rank { s with
        socket := sock
        commands := addCommand (.connect 4) s.commands } + 1 ≤ 4
      rw [Client.rank_queued (s := { s with
        socket := sock
        commands := addCommand (.connect 4) s.commands }) (addCommand_connect others 4)]
      simp
    · simp [Client.connect, nextVersion, checkConn] at unanswered
  cases tcp with
  | failed sock => exact failed sock unanswered
  | pending sock => exact trying sock (by simp)
  | done sock =>
    cases sent with
    | false => exact failed sock unanswered
    | true => exact trying sock (by simp)

theorem Client.Live.off {version : ℕ} (live : s.Live (.asked version)) : s.connected = false := by
  cases live with
  | queued _ _ _ connected => exact connected
  | trying connected => exact connected

/-- The send thread processes a command of a client that asks for a connection. -/
theorem Client.Live.rank_process {version : ℕ} (live : s.Live (.asked version)) (tcp : Tcp)
    (sent : Bool) (kept : ¬ Abandons s (.process tcp sent))
    (unanswered : .failure ∉ (s.process tcp sent).2) :
    (s.process tcp sent).1.rank + (if (ClientOp.process tcp sent).works s then 1 else 0) ≤
      s.rank := by
  cases live with
  | queued _ late commands connected state queue disconnects others first =>
    cases late with
    | nil =>
      have works : (ClientOp.process tcp sent).works s = true := by
        rw [ClientOp.works, queue]
        rfl
      have connects : s.process tcp sent =
          Client.connect { s with commands := commands } (nextVersion version) tcp sent := by
        unfold Client.process
        rw [queue]
        dsimp only [List.nil_append]
        rw [if_neg (by simp [connected, state])]
      rw [connects] at unanswered ⊢
      rw [works, if_pos rfl, Client.rank_queued queue]
      exact Client.rank_connect (s := { s with commands := commands }) others first tcp sent
        unanswered
    | cons c late =>
      obtain rfl := disconnects c List.mem_cons_self
      have idle : (ClientOp.process tcp sent).works s = false := by
        rw [ClientOp.works, queue]
        rfl
      rw [s.process_drops connected state queue, idle]
      exact Nat.le_of_eq (Client.rank_commands (by rw [queue]; rfl))
  | trying connected state others =>
    have keeps : s.commands.head? ≠ some .disconnect := fun late => kept ⟨connected, state, late⟩
    obtain ⟨commands, tail, same⟩ := s.process_idle connected others (.inr keeps) tcp sent
    have idle : (ClientOp.process tcp sent).works s = false := others.asks_eq
    have none : wanted commands = wanted s.commands := by
      rw [(others.of_suffix tail).wanted_eq, others.wanted_eq]
    rw [same, idle]
    exact Nat.le_of_eq (Client.rank_commands none)

theorem Client.Live.rank_cycle {version : ℕ} (live : s.Live (.asked version)) (sock : ℤ)
    (ready : Ready) (unanswered : .failure ∉ (s.cycle sock ready).2) :
    (s.cycle sock ready).1.rank ≤ s.rank := by
  by_cases state : s.connectState = .none
  · obtain ⟨c, same⟩ := Client.cycle_of_none state sock ready
    rw [same]
    exact Nat.le_refl _
  · obtain ⟨-, connected, others, tried⟩ := live.trying_of_state state
    have failed (cycled : Option Cycled) (unanswered : .failure ∉ s.connectFailed.2) :
        Client.rank { s.connectFailed.1 with cycled := cycled } ≤ s.rank := by
      have fewer := Client.rank_connectFailed others state unanswered
      exact Nat.le_of_succ_le fewer
    have sent (cycled : Option Cycled) :
        Client.rank { s with connectState := .connack, cycled := cycled } ≤ s.rank := by
      have same : Client.rank { s with connectState := .connack, cycled := cycled } = s.rank := by
        rw [Client.rank_trying others, Client.rank_trying
          (s := { s with connectState := .connack, cycled := cycled }) others, if_neg state,
          if_neg (by simp)]
      exact Nat.le_of_eq same
    unfold Client.cycle at unanswered ⊢
    split_ifs at unanswered ⊢
    · split at unanswered
      · exact failed _ unanswered
      · exact sent _
      · exact failed _ unanswered
      · exact Nat.le_refl _
      · exact Nat.le_refl _
      · exact Nat.le_refl _
    · exact Nat.le_refl _

theorem Client.Live.rank_receive {version : ℕ} (live : s.Live (.asked version)) {c : Cycled}
    (expected : c.connack ≠ none → s.socket = c.sock → s.connectState ≠ .none)
    (kept : ¬ (c.error = true ∧ c.sock ≠ 0 ∧ s.socket = c.sock ∧ s.connectState ≠ .none))
    (refused : .success ∉ (s.receive c).2) (unanswered : .failure ∉ (s.receive c).2) :
    (s.receive c).1.rank ≤ s.rank := by
  have off := live.off
  unfold Client.receive at refused unanswered ⊢
  split_ifs at refused unanswered ⊢ with away error connected
  · exact Nat.le_refl _
  · simp [off] at connected
  · rw [not_or, not_not] at away
    have state : s.connectState = .none := by
      by_contra trying
      exact kept ⟨error, away.1, away.2, trying⟩
    have same : s.closeOnly.rank = s.rank := by
      simp [Client.rank, Client.closeOnly, state]
    exact Nat.le_of_eq same
  · rw [not_or, not_not] at away
    cases connack : c.connack with
    | none => exact Nat.le_refl _
    | some rc =>
      have trying := expected (by simp [connack]) away.2
      obtain ⟨-, -, others, -⟩ := live.trying_of_state trying
      rw [connack] at refused unanswered
      dsimp only at refused unanswered ⊢
      unfold Client.completeConnection at refused unanswered ⊢
      split_ifs at refused unanswered ⊢ with accepted
      · simp at refused
      · exact Nat.le_of_succ_le (Client.rank_connectFailed others trying unanswered)

end Rank

/-- A request that is not answered by a step has no more steps left than before. -/
theorem Client.Live.rank_step {s s' : Client} {version : ℕ} {op : ClientOp}
    {outs : List ClientOut} (live : s.Live (.asked version))
    (taken : clientStep s op = .ok (s', outs)) (expected : op.Expected s)
    (kept : ¬ Abandons s op) (refused : .success ∉ outs) (unanswered : .failure ∉ outs) :
    s'.rank + (if op.works s then 1 else 0) ≤ s.rank := by
  cases Client.steps taken with
  | process tcp sent => exact live.rank_process tcp sent kept unanswered
  | noTimeout state => simp [ClientOp.works, state]
  | timeout state =>
    obtain ⟨-, -, others, -⟩ := live.trying_of_state state
    simpa [ClientOp.works, state] using Client.rank_connectFailed others state unanswered
  | cycle sock ready => exact live.rank_cycle sock ready unanswered
  | receive c cycled =>
    have framed : Client.Live { s with cycled := none } (.asked version) :=
      live.frame none s.leaving s.publishing
    exact framed.rank_receive (expected c cycled) (fun h => kept ⟨c, cycled, h⟩) refused unanswered
  | hangUp => exact Nat.le_of_eq (Client.rank_commands (wanted_disconnect s.commands))
  | giveUp => exact Nat.le_refl _
  | closeSession =>
    rw [Client.disconnectInternal, live.off]
    exact Nat.le_refl _
  | beginSend => exact Nat.le_refl _
  | endSend => exact Nat.le_of_eq (Client.rank_commands (wanted_request s.commands))

theorem Life.asked_of_after {version : ℕ} {outs : List ClientOut} {life : Life}
    (seen : (Life.asked version).after outs = some life) (refused : .success ∉ outs)
    (unanswered : .failure ∉ outs) : ∃ version', life = .asked version' := by
  induction outs generalizing version with
  | nil => exact ⟨version, (Option.some.inj seen).symm⟩
  | cons out outs ih =>
    rw [Life.after, List.foldlM_cons] at seen
    simp only [List.mem_cons, not_or] at refused unanswered
    cases out with
    | attempt next =>
      rw [Life.see] at seen
      split_ifs at seen
      · exact ih seen refused.2 unanswered.2
      · cases seen
    | success => exact absurd rfl refused.1
    | failure => exact absurd rfl unanswered.1
    | requested | lost => cases seen

/-- The steps that go on with a request are fewer than those that are left. -/
theorem rank_run {ops : List ClientOp} (expected : ∀ m ∈ clientTrace ops, m.input.Expected m.pre)
    {p q : List ClientMove} (split : clientTrace ops = p ++ q) (kept : ¬ Abandoned (p ++ q))
    {version : ℕ} (live : (final initClient p).Live (.asked version))
    (refused : .success ∉ shown q) (unanswered : .failure ∉ shown q) :
    (q.filter fun m => m.input.works m.pre).length + 1 ≤ (final initClient p).rank := by
  induction q generalizing p version with
  | nil => exact live.one_le_rank
  | cons m q ih =>
    have taken := trace_split split
    rw [← taken.1] at live ⊢
    have mem : m ∈ clientTrace ops := by
      rw [split]
      exact List.mem_append_right _ List.mem_cons_self
    have notClosed : ¬ Abandons m.pre m.input := fun closes =>
      kept ⟨m, List.mem_append_right _ List.mem_cons_self, closes⟩
    simp only [shown, List.flatMap_cons, List.mem_append, not_or] at refused unanswered
    have fewer := live.rank_step taken.2 (expected m mem) notClosed refused.1 unanswered.1
    rcases live.step taken.2 (expected m mem) with ⟨-, life, seen, live'⟩ | ⟨closes, -⟩
    · obtain ⟨version', rfl⟩ := Life.asked_of_after seen refused.1 unanswered.1
      have rest := ih (p := p ++ [m]) (by rw [split]; simp) (by simpa using kept)
        (by rw [final_concat]; exact live') refused.2 unanswered.2
      rw [final_concat] at rest
      rw [List.filter_cons]
      split_ifs at fewer ⊢
      · rw [List.length_cons]
        omega
      · omega
    · exact absurd closes notClosed

/-- A request is answered after at most four steps of the send thread that go on with it, whatever
the network answers and whatever the other threads do, unless an attempt is closed without an
answer. -/
theorem request_answered (ops : List ClientOp)
    (expected : ∀ m ∈ clientTrace ops, m.input.Expected m.pre) {p q : List ClientMove}
    (split : clientTrace ops = p ++ q) (kept : ¬ Abandoned (p ++ q)) {version : ℕ}
    (asked : (Life.asked 0).after (shown p) = some (.asked version))
    (steps : 4 ≤ (q.filter fun m => m.input.works m.pre).length) :
    .success ∈ shown q ∨ .failure ∈ shown q := by
  by_contra none
  rw [not_or] at none
  obtain ⟨life, seen, under⟩ := clientTrace_lived expected split
  rcases under with ⟨-, live⟩ | ⟨closed, -⟩
  · obtain rfl : Life.asked version = life := Option.some.inj (asked.symm.trans seen)
    have few := rank_run expected split kept live none.1 none.2
    have bound := (final initClient p).rank_le
    omega
  · obtain ⟨m, mem, closes⟩ := closed
    exact kept ⟨m, List.mem_append_left _ mem, closes⟩

/-- No CONNACK comes for the first attempt; the second one connects, and the connection is lost. -/
def sampleAnswered : List ClientOp :=
  [.process (.pending 5) true, .checkTimeouts, .process (.pending 6) true, .cycle 6 (.other false),
    .receive, .cycle 6 (.connack 0), .receive, .closeSession, .process (.failed 0) true,
    .process (.pending 7) true, .checkTimeouts]

theorem request_answered_sample :
    .success ∈ shown (clientTrace sampleAnswered) ∨
      .failure ∈ shown (clientTrace sampleAnswered) := by
  have kept : ¬ Abandoned ([] ++ clientTrace sampleAnswered) := by
    unfold Abandoned
    decide
  exact request_answered sampleAnswered (by decide) rfl kept rfl (by decide)

end Siproxy.Mqtt
