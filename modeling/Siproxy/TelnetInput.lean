import Siproxy.Lib.Writers
import Siproxy.Options
import Siproxy.SipStream

/-!
# Commands and answers on one connection

The event handler thread sends its SIP commands with `telnet_input`, and the main thread answers
what it receives: `_send_negotiate` replies to a negotiation with one `TELNET_EV_SEND`, `sip_event`
sends the terminal type with three (`telnet_ttype_is`).  Both write to the same socket, and neither
takes a lock.

`connection_decoded`: the peer decodes the bytes of the commands and the terminal types, and nothing
else, in every run in which nothing is sent between the three parts of a terminal type.
-/

namespace Siproxy

open Allot CString Machine Parts Telnet Writers

/-! ### What is sent -/

/-- A byte of a command, with `CR LF` for a CR and for an LF. -/
def crlf (b : Byte) : List Byte := if b = 13 ∨ b = 10 then [13, 10] else [b]

/-- `telnet_input`. -/
def telnetInput (cmd : List Byte) : List TelnetEvent := cmd.flatMap fun b => telnetSend (crlf b)

def SipOut.sent? : SipOut → Option (List Byte)
  | .send bytes => some bytes
  | .queue _ => none

/-- What `sip_event` sends. -/
def Delivery.sends (term : CStr) (d : Delivery) : List (List Byte) :=
  match sipEvent (some term) d.sip d.ev with
  | none => []
  | some r => r.2.filterMap SipOut.sent?

/-- The events handed to `sip_event` in a run of the receive loop in which everything is sent. -/
def deliveries (term : CStr) (heap mallocs : List Bool) (feeds : List Feed) : List Delivery :=
  (recvTrace (some term) ⟨heap, mallocs, []⟩ feeds).flatMap (·.outs)

/-- What the peer has to see of the answer to an event. -/
def Delivery.answers (term : CStr) (d : Delivery) : List TelnetEvent :=
  if d.asksTerm then [.subnegotiation 24 (0 :: term.bytes), .ttype 0 (some term.bytes)] else []

/-- The terminal type has no `IAC` and fits the largest subnegotiation buffer. -/
def Sendable (term : CStr) : Prop := 255 ∉ term.bytes ∧ term.bytes.length ≤ 16383

instance (term : CStr) : Decidable (Sendable term) := inferInstanceAs (Decidable (_ ∧ _))

/-- The socket: the main thread is the left writer, with a block for each call of `sip_event`, and
the event handler thread is the right one, with a block for each call of `telnet_send`. -/
def connection (term : CStr) (ds : List Delivery) (cmds : List (List Byte)) : Port (List Byte) :=
  .start (ds.map (·.sends term)) ((cmds.flatMap telnetInput).map fun ev => [ev.sent])

theorem telnetInput_eq (cmd : List Byte) :
    telnetInput cmd = cmd.map fun b => .send ((crlf b).flatMap escape) := by
  have one (b : Byte) : telnetSend (crlf b) = [.send ((crlf b).flatMap escape)] := by
    by_cases hcr : b = 13 ∨ b = 10
    · rw [crlf, if_pos hcr]
      rfl
    · rw [crlf, if_neg hcr]
      by_cases h255 : b = 255
      · subst h255
        rfl
      · simp [telnetSend, sendLoop, escape, h255]
  simp only [telnetInput, one]
  exact List.map_eq_flatMap.symm

theorem connection_eq (term : CStr) (ds : List Delivery) (cmds : List (List Byte)) :
    connection term ds cmds = .start (ds.map (·.sends term))
      (cmds.flatten.map fun b => [(crlf b).flatMap escape]) := by
  have blocks : (cmds.flatMap telnetInput).map (fun ev => [ev.sent]) =
      cmds.flatten.map fun b => [(crlf b).flatMap escape] := by
    induction cmds with
    | nil => rfl
    | cons cmd cmds ih =>
      rw [List.flatMap_cons, List.map_append, ih, telnetInput_eq, List.map_map, List.flatten_cons,
        List.map_append]
      rfl
  rw [connection, blocks]

/-! ### The answers of the main thread -/

/-- The bytes of a reply to a negotiation. -/
def IsReply (bytes : List Byte) : Prop := ∃ cmd ∈ verbs, ∃ telopt, bytes = [255, cmd, telopt]

/-- The tracker sends nothing but replies. -/
theorem byteStep_send {t : Tracker} {i start : ℕ} {b : Byte} {bytes : List Byte}
    (h : .send bytes ∈ (byteStep t i start b).2.2) : IsReply bytes := by
  by_cases verb : t.state.IsVerb
  · rw [byteStep_verb verb] at h
    obtain ⟨cmd, hcmd, hbytes⟩ := negotiate_negotiates t b _ h
    exact ⟨cmd, hcmd, b, hbytes⟩
  · have quiet := byteStep_calm verb i start b _ h
    simp [TelnetEvent.isOption] at quiet

theorem recvStep_send {term : Option CStr} {s s' : Option Receiver} {feed : Feed}
    {outs : List Delivery} (h : recvStep term s feed = .ok (s', outs)) :
    ∀ d ∈ outs, ∀ bytes, d.ev = .send bytes → IsReply bytes := by
  obtain ⟨r, rfl, hcases⟩ := recvStep_cases h
  have log {evs : List TelnetEvent} (replies : ∀ bytes, .send bytes ∈ evs → IsReply bytes) :
      ∀ d ∈ (deliver term r.chunk r.sip evs).2, ∀ bytes, d.ev = .send bytes → IsReply bytes := by
    intro d hd bytes hev
    apply replies
    rw [← hev]
    exact deliver_ev_mem d hd
  rcases hcases with ⟨c, -, -, -, rfl⟩ | ⟨-, -, -, -, rfl⟩ | ⟨-, -, -, -, rfl⟩
  · simp
  · exact log fun bytes => byteStep_send
  · apply log
    intro bytes hmem
    unfold pendingEvents at hmem
    split_ifs at hmem <;> simp at hmem

theorem deliveries_send {term : CStr} {heap mallocs : List Bool} {feeds : List Feed} {d : Delivery}
    (hd : d ∈ deliveries term heap mallocs feeds) {bytes : List Byte} (hev : d.ev = .send bytes) :
    IsReply bytes := by
  obtain ⟨m, hm, hd⟩ := List.mem_flatMap.1 hd
  obtain ⟨p, q, split⟩ := List.append_of_mem hm
  exact recvStep_send (trace_split split).2 d hd bytes hev

/-! ### Nothing fails to be sent -/

/-- Without a negative answer, there is none after an event. -/
theorem sipEvent_sends {term : Option CStr} {sip sip' : Sip} {ev : TelnetEvent}
    {outs : List SipOut} (h : sipEvent term sip ev = some (sip', outs)) (good : sip.sends = []) :
    sip'.sends = [] := by
  have sent {parts : List (List Byte)} (h : sip.sendAll parts = some (sip', outs)) :
      sip'.sends = [] := by simp [(sendAll_frame h).1, good]
  unfold sipEvent at h
  split at h
  · split_ifs at h
    cases h
    exact good
  · cases h
  · exact sent h
  · cases h
    split_ifs <;> exact good
  · cases h
    split_ifs <;> exact good
  · split_ifs at h
    · split at h
      · cases h
      · exact sent h
    · cases h
      exact good
  · cases h
    exact good

theorem deliver_sends {term : Option CStr} {chunk : List Byte} {sip : Sip} {evs : List TelnetEvent}
    (good : sip.sends = []) :
    (∀ d ∈ (deliver term chunk sip evs).2, d.sip.sends = []) ∧
      ∀ sip' ∈ (deliver term chunk sip evs).1, sip'.sends = [] := by
  induction evs generalizing sip with
  | nil => exact ⟨by simp [deliver], by simpa [deliver] using good⟩
  | cons ev evs ih =>
    rcases h : sipEvent term sip ev with _ | ⟨sip', outs⟩
    · simp [deliver, h, good]
    · obtain ⟨hlog, hend⟩ := ih (sipEvent_sends h good)
      simp only [deliver, h, List.mem_cons, forall_eq_or_imp]
      exact ⟨⟨good, hlog⟩, hend⟩

theorem recvStep_sends {term : Option CStr} {s s' : Option Receiver} {feed : Feed}
    {outs : List Delivery} (good : ∀ r ∈ s, r.sip.sends = [])
    (h : recvStep term s feed = .ok (s', outs)) :
    (∀ r ∈ s', r.sip.sends = []) ∧ ∀ d ∈ outs, d.sip.sends = [] := by
  obtain ⟨r, rfl, hcases⟩ := recvStep_cases h
  have hr : r.sip.sends = [] := good r rfl
  rcases hcases with ⟨c, -, -, rfl, rfl⟩ | ⟨-, -, -, rfl, rfl⟩ | ⟨-, -, -, rfl, rfl⟩
  · exact ⟨by rintro _ ⟨⟩; exact hr, by simp⟩
  all_goals
    refine ⟨fun r' hr' => ?_, (deliver_sends hr).1⟩
    obtain ⟨sip', hsip, rfl⟩ := Option.map_eq_some_iff.1 hr'
    exact (deliver_sends hr).2 sip' hsip

theorem deliveries_sends {term : CStr} {heap mallocs : List Bool} {feeds : List Feed}
    {d : Delivery} (hd : d ∈ deliveries term heap mallocs feeds) : d.sip.sends = [] := by
  obtain ⟨m, hm, hd⟩ := List.mem_flatMap.1 hd
  obtain ⟨p, q, split⟩ := List.append_of_mem hm
  have start : ∀ r ∈ some (initReceiver ⟨heap, mallocs, []⟩), r.sip.sends = [] := by
    rintro _ ⟨⟩
    rfl
  have good := (trace_invariant (fun s : Option Receiver => ∀ r ∈ s, r.sip.sends = []) start
    (fun s feed s' outs hs h => (recvStep_sends hs h).1) hm).1
  exact (recvStep_sends good (trace_split split).2).2 d hd

/-- Then everything is sent for an event. -/
theorem sends_eq {term : CStr} {d : Delivery} (good : d.sip.sends = []) :
    d.sends term = sentParts (some term) d.ev := by
  have sent (parts : List (List Byte)) (sip : Sip) (hs : sip.sends = []) :
      (match sip.sendAll parts with
        | none => []
        | some r => r.2.filterMap SipOut.sent?) = parts := by
    have hsend := sendAll_eq sip parts
    rw [if_pos (hs ▸ granted_nil _)] at hsend
    rw [hsend]
    exact List.filterMap_map.trans List.filterMap_some
  rcases d with ⟨chunk, sip, ev⟩
  cases ev with
  | send bytes => exact sent [bytes] sip good
  | ttype cmd name =>
    by_cases hcmd : cmd = 1
    · simpa [Delivery.sends, sipEvent, sentParts, hcmd] using sent (ttypeIs term) sip good
    · simp [Delivery.sends, sipEvent, sentParts, hcmd]
  | data ptr size =>
    cases ptr with
    | buffer off => by_cases nul : 0 ∈ sip.mem.drop off <;>
        simp [Delivery.sends, sipEvent, sentParts, SipOut.sent?, nul]
    | byte b => rfl
  | _ => rfl

/-! ### What the peer decodes -/

/-- The events of option negotiation, and warnings. -/
def negotiation : TelnetEvent → Bool
  | .send _ | .will _ | .wont _ | .do_ _ | .dont _ | .warning _ => true
  | _ => false

/-- Everything that a receiver sees apart from data and negotiations. -/
def messages (s : List Seen) : List TelnetEvent := (others s).filter fun ev => !negotiation ev

theorem messages_append (s s' : List Seen) : messages (s ++ s') = messages s ++ messages s' := by
  simp [messages]

/-- The peer is ready again behind the bytes, which it decodes as data and messages. -/
structure Decodes (t : Tracker) (bytes data : List Byte) (msgs : List TelnetEvent) : Prop where
  ready : Ready (bytes.foldl advance t)
  plain : Plain t bytes
  data : parts (stream t bytes) = data
  msgs : messages (stream t bytes) = msgs

theorem decodes_nil {t : Tracker} (h : Ready t) : Decodes t [] [] [] := ⟨h, trivial, rfl, rfl⟩

theorem Decodes.append {t : Tracker} {a b data data' : List Byte} {msgs msgs' : List TelnetEvent}
    (ha : Decodes t a data msgs) (hb : Decodes (a.foldl advance t) b data' msgs') :
    Decodes t (a ++ b) (data ++ data') (msgs ++ msgs') := by
  refine ⟨?_, plain_append.2 ⟨ha.plain, hb.plain⟩, ?_, ?_⟩
  · rw [List.foldl_append]
    exact hb.ready
  · rw [stream_append, parts_append, ha.data, hb.data]
  · rw [stream_append, messages_append, ha.msgs, hb.msgs]

/-- The beginning of the bytes gives the beginning of the data and of the messages. -/
theorem Decodes.front {t : Tracker} {whole data : List Byte} {msgs : List TelnetEvent}
    (h : Decodes t whole data msgs) {a : List Byte} (ha : a <+: whole) :
    Plain t a ∧ parts (stream t a) <+: data ∧ messages (stream t a) <+: msgs := by
  obtain ⟨b, rfl⟩ := ha
  refine ⟨(plain_append.1 h.plain).1, ?_, ?_⟩
  · rw [← h.data, stream_append, parts_append]
    exact List.prefix_append _ _
  · rw [← h.msgs, stream_append, messages_append]
    exact List.prefix_append _ _

theorem decodes_text {t : Tracker} (h : Ready t) (bytes : List Byte) :
    Decodes t (bytes.flatMap escape) bytes [] := by
  induction bytes with
  | nil => exact decodes_nil h
  | cons b bytes ih =>
    obtain ⟨stays, plain, seen⟩ := stream_escape h.state b
    have first : Decodes t (escape b) [b] [] := by
      refine ⟨by rwa [stays], plain, ?_, ?_⟩
      · rw [seen]
        rfl
      · rw [seen]
        rfl
    rw [← stays] at ih
    exact first.append ih

theorem negotiate_heap (t : Tracker) (telopt : Byte) : (negotiate t telopt).1.heap ⊆ t.heap := by
  obtain ⟨q, heap, frame, sub⟩ := negotiate_frame t telopt
  rw [frame]
  exact sub

/-- A reply adds nothing to the data and to the messages, whatever the peer answers. -/
theorem decodes_reply {t : Tracker} (h : Ready t) {bytes : List Byte} (reply : IsReply bytes) :
    Decodes t bytes [] [] := by
  obtain ⟨cmd, hcmd, telopt, rfl⟩ := reply
  obtain ⟨state, size, heap⟩ := h
  have first : byteStep t 0 0 255 = ({ t with state := .iac }, 0, []) := by
    simp [byteStep, state]
  have second : ∃ verb, TelnetState.IsVerb verb ∧
      byteStep { t with state := .iac } 0 0 cmd = ({ t with state := verb }, 0, []) := by
    simp only [verbs, List.mem_cons, List.not_mem_nil, or_false] at hcmd
    rcases hcmd with rfl | rfl | rfl | rfl
    · exact ⟨.will, by decide, rfl⟩
    · exact ⟨.wont, by decide, rfl⟩
    · exact ⟨.do_, by decide, rfl⟩
    · exact ⟨.dont, by decide, rfl⟩
  have h255 : cmd ≠ 255 := by
    rintro rfl
    exact absurd hcmd (by decide)
  obtain ⟨verb, hverb, second⟩ := second
  have apart : verb ≠ .data ∧ verb ≠ .iac ∧ verb ≠ .sbData := by
    rcases hverb with rfl | rfl | rfl | rfl <;> decide
  obtain ⟨hdata, hiac, hsb⟩ := apart
  let u : Tracker := { t with state := verb }
  have third : byteStep u 0 0 telopt =
      ({ (negotiate u telopt).1 with state := .data }, 1, (negotiate u telopt).2) :=
    byteStep_verb hverb 0 0 telopt
  have seen : stream t [255, cmd, telopt] = (negotiate u telopt).2.map .other := by
    have last : byteSeen u telopt = (negotiate u telopt).2.map .other := by
      rw [byteSeen, if_neg (by simp [u, hdata, hiac]), third]
    simp [stream, byteSeen, advance, first, second, state, h255, ← last, u]
  have quiet : (negotiate u telopt).2.filter (fun ev => !negotiation ev) = [] := by
    rw [List.filter_eq_nil_iff]
    intro ev hev
    have raised := negotiate_negotiates u telopt ev hev
    cases ev <;> simp_all [TelnetEvent.Negotiates, negotiation]
  refine ⟨?_, ?_, ?_, ?_⟩
  · simp only [List.foldl_cons, List.foldl_nil, advance, first, second]
    rw [third]
    refine ⟨rfl, ?_, fun ok hok => heap ok (negotiate_heap u telopt hok)⟩
    show (negotiate u telopt).1.bufferSize ∈ bufferSizes
    rwa [negotiate_bufferSize]
  · simp only [Plain, advance, first, second]
    simp [OldCompress, state, hsb]
  · rw [seen, parts_map_other]
  · rw [seen, messages, others_map_other, quiet]

theorem ttype_raised {t : Tracker} {term : List Byte} (h : Collecting 24 (0 :: term) t) :
    (subnegotiate { t with state := .data }).2.2 =
      [.subnegotiation 24 (0 :: term), .ttype 0 (some term)] := by
  have raised {u : Tracker} (hopt : u.sbTelopt = 24) (hbuf : u.buffer = 0 :: term)
      (alloc : u.allocOk = true) :
      (subnegotiate u).2.2 = [.subnegotiation 24 (0 :: term), .ttype 0 (some term)] := by
    simp [subnegotiate, ttypeTelnet, hopt, hbuf, alloc]
  exact raised h.sbTelopt h.buffer (allocOk_of_heap h.heap)

/-- A terminal type is decoded as it was sent. -/
theorem decodes_ttype {t : Tracker} (h : Ready t) {term : List Byte} (iac : 255 ∉ term)
    (short : term.length ≤ 16383) :
    Decodes t ([255, 250, 24, 0] ++ term ++ [255, 240]) []
      [.subnegotiation 24 (0 :: term), .ttype 0 (some term)] := by
  obtain ⟨begun, quiet, plain⟩ := collecting_start h 24
  have literal : (0 :: term).flatMap escape = 0 :: term := by
    have one : ∀ b ∈ 0 :: term, escape b = [b] := by
      intro b hb
      rw [escape, if_neg]
      rintro rfl
      exact iac (by simpa using hb)
    rw [List.flatMap_congr one]
    exact List.flatMap_singleton' _
  have room : ([] : List Byte).length + (0 :: term).length ≤ 16384 := by
    simp only [List.length_nil, List.length_cons]
    omega
  obtain ⟨stored, quiet', plain'⟩ := begun.bytes room (fun h85 => absurd h85 (by decide))
  rw [literal] at stored quiet' plain'
  obtain ⟨ready, plain'', seen⟩ := stored.stream_finish
  rw [ttype_raised stored] at seen
  -- the header and the content raise nothing
  have whole : [255, 250, 24, 0] ++ term ++ [255, 240] =
      [255, 250, 24] ++ ((0 :: term) ++ [255, 240]) := by simp
  have raises : stream t ([255, 250, 24] ++ ((0 :: term) ++ [255, 240])) =
      [.other (.subnegotiation 24 (0 :: term)), .other (.ttype 0 (some term))] := by
    rw [stream_append, stream_append, quiet, quiet', seen]
    rfl
  rw [whole]
  refine ⟨?_, plain_append.2 ⟨plain, plain_append.2 ⟨plain', plain''⟩⟩, ?_, ?_⟩
  · rw [List.foldl_append, List.foldl_append]
    exact ready
  · rw [raises]
    rfl
  · rw [raises]
    rfl

/-! ### Interleavings -/

theorem decodes_delivery {term : CStr} {d : Delivery} (good : d.sip.sends = [])
    (replies : ∀ bytes, d.ev = .send bytes → IsReply bytes)
    (fits : d.asksTerm = true → Sendable term) {t : Tracker} (h : Ready t) :
    Decodes t (d.sends term).flatten [] (d.answers term) := by
  have none : Decodes t (List.flatten []) [] [] := decodes_nil h
  rw [sends_eq good]
  rcases d with ⟨chunk, sip, ev⟩
  cases ev with
  | send bytes =>
    show Decodes t [bytes].flatten [] []
    rw [List.flatten_singleton]
    exact decodes_reply h (replies bytes rfl)
  | ttype cmd name =>
    by_cases hcmd : cmd = 1
    · subst hcmd
      obtain ⟨iac, short⟩ := fits rfl
      exact decodes_ttype h iac short
    · have answers : (Delivery.mk chunk sip (.ttype cmd name)).answers term = [] := by
        simp [Delivery.answers, Delivery.asksTerm, hcmd]
      rw [answers, sentParts, if_neg hcmd]
      exact none
  | _ => exact none

theorem decodes_shuffle {term : CStr} {ds : List Delivery} {bytes : List Byte}
    {order : List (List (List Byte))}
    (shuffle : Shuffle (ds.map (·.sends term)) (bytes.map fun b => [(crlf b).flatMap escape]) order)
    (good : ∀ d ∈ ds, d.sip.sends = [])
    (replies : ∀ d ∈ ds, ∀ bytes, d.ev = .send bytes → IsReply bytes)
    (fits : ∀ d ∈ ds, d.asksTerm = true → Sendable term) {t : Tracker} (h : Ready t) :
    Decodes t order.flatten.flatten (bytes.flatMap crlf) (ds.flatMap (·.answers term)) := by
  generalize hxs : ds.map (·.sends term) = xs at shuffle
  generalize hys : bytes.map (fun b => [(crlf b).flatMap escape]) = ys at shuffle
  induction shuffle generalizing ds bytes t with
  | nil =>
    rw [List.map_eq_nil_iff.1 hxs, List.map_eq_nil_iff.1 hys]
    exact decodes_nil h
  | left x _ ih =>
    obtain ⟨d, ds, rfl, rfl, rfl⟩ := List.map_eq_cons_iff.1 hxs
    rw [List.forall_mem_cons] at good replies fits
    have first := decodes_delivery good.1 replies.1 fits.1 h
    rw [List.flatten_cons, List.flatten_append, List.flatMap_cons]
    exact first.append (ih good.2 replies.2 fits.2 first.ready rfl hys)
  | right y _ ih =>
    obtain ⟨b, bytes, rfl, rfl, rfl⟩ := List.map_eq_cons_iff.1 hys
    have first := decodes_text h (crlf b)
    rw [List.flatten_cons, List.flatten_append, List.flatten_singleton, List.flatMap_cons]
    exact first.append (ih good replies fits first.ready hxs rfl)

/-- The main thread answers any bytes received, and the event handler thread sends any commands,
under any schedule in which no thread sends while the other one is between the parts of a terminal
type; the terminal type is sendable, if it is asked for.  A reachable peer that waits for data and
whose allocations succeed, given the first bytes sent in any chunks, decodes as data a first part
of the commands, with `CR LF` for each CR and each LF, and as messages the first terminal types; and
it decodes all of them when everything was sent and received. -/
theorem connection_decoded (term : CStr) (heap mallocs : List Bool) (feeds : List Feed)
    (cmds : List (List Byte)) (sched : List Side)
    (alone : Port.Exclusive (connection term (deliveries term heap mallocs feeds) cmds) sched)
    (fits : ∀ d ∈ deliveries term heap mallocs feeds, d.asksTerm = true → Sendable term)
    (peer : Tracker) (reachable : Reachable peer) (state : peer.state = .data)
    (allocs : ∀ ok ∈ peer.heap, ok = true) (chunks : List (List Byte))
    (small : ∀ c ∈ chunks, c.length < 2 ^ 64)
    (received : chunks.flatten <+:
      ((connection term (deliveries term heap mallocs feeds) cmds).run sched).sent.flatten) :
    parts (recvAll peer chunks).2 <+: cmds.flatten.flatMap crlf ∧
      messages (recvAll peer chunks).2 <+:
        (deliveries term heap mallocs feeds).flatMap (·.answers term) ∧
      (((connection term (deliveries term heap mallocs feeds) cmds).run sched).Idle →
        chunks.flatten =
          ((connection term (deliveries term heap mallocs feeds) cmds).run sched).sent.flatten →
        parts (recvAll peer chunks).2 = cmds.flatten.flatMap crlf ∧
          messages (recvAll peer chunks).2 =
            (deliveries term heap mallocs feeds).flatMap (·.answers term)) := by
  rw [connection_eq] at alone received ⊢
  obtain ⟨order, shuffle, front, whole⟩ := Port.unbroken_of_exclusive alone
  have decoded := decodes_shuffle shuffle (fun d hd => deliveries_sends hd)
    (fun d hd bytes => deliveries_send hd) fits
    ⟨state, reachable.bufferSize, allocs⟩
  have ahead : chunks.flatten <+: order.flatten.flatten := by
    obtain ⟨more, hmore⟩ := front
    rw [← hmore, List.flatten_append]
    exact received.trans (List.prefix_append _ _)
  obtain ⟨plain, data, msgs⟩ := decoded.front ahead
  -- the chunks do not matter
  have same := merge_recvAll small plain
  have sameParts : parts (recvAll peer chunks).2 = parts (stream peer chunks.flatten) := by
    rw [← (views_merge _).1, same, (views_merge _).1]
  have sameMsgs : messages (recvAll peer chunks).2 = messages (stream peer chunks.flatten) := by
    rw [messages, ← (views_merge _).2, same, (views_merge _).2, messages]
  rw [sameParts, sameMsgs]
  refine ⟨data, msgs, fun idle all => ?_⟩
  rw [all, whole idle]
  exact ⟨decoded.data, decoded.msgs⟩

def sampleTerm : CStr := .lit "xterm" (by decide)

/-- The server asks for the option of the terminal type and for the terminal type. -/
def sampleAsk : Chunk := ⟨[255, 253, 24, 255, 250, 24, 1, 255, 240], by decide, by decide⟩

/-- The socket when the server has asked and a call is hung up. -/
def sampleConnection : Port (List Byte) :=
  connection sampleTerm (deliveries sampleTerm [] [] (feedsOf sampleAsk)) [text "hA\r\n"]

/-- The `h` is sent in front of the terminal type, and the rest of the command behind it. -/
def sampleApart : List Side := [.left, .right, .left, .left, .left, .right, .right, .right]

/-- The `h` is sent behind the header of the terminal type. -/
def sampleInside : List Side := [.left, .left, .right, .left, .left, .right, .right, .right]

theorem connection_decoded_sample :
    parts (recvAll (telnetInit [] false []) [(sampleConnection.run sampleApart).sent.flatten]).2 =
        text "hA\r\n\r\n" ∧
      messages
        (recvAll (telnetInit [] false []) [(sampleConnection.run sampleApart).sent.flatten]).2 =
          [.subnegotiation 24 (0 :: text "xterm"), .ttype 0 (some (text "xterm"))] := by
  have decoded := (connection_decoded sampleTerm [] [] (feedsOf sampleAsk) [text "hA\r\n"] sampleApart
    (by decide +kernel) (fun _ _ _ => by decide) (telnetInit [] false []) (.init [] false []) rfl
    (by decide) [(sampleConnection.run sampleApart).sent.flatten] (by decide +kernel)
    (by rw [List.flatten_singleton]; exact List.prefix_refl _)).2.2 (by decide +kernel)
    (List.flatten_singleton)
  exact ⟨decoded.1.trans (by decide), decoded.2.trans (by decide +kernel)⟩

/-- The `h` becomes a part of the terminal type. -/
theorem not_connection_decoded_sample :
    (sampleConnection.run sampleInside).Idle ∧
      ¬ (parts (recvAll (telnetInit [] false [])
          [(sampleConnection.run sampleInside).sent.flatten]).2 <+: text "hA\r\n\r\n") ∧
      messages (recvAll (telnetInit [] false [])
        [(sampleConnection.run sampleInside).sent.flatten]).2 =
          [.subnegotiation 24 (0 :: text "hxterm"), .ttype 0 (some (text "hxterm"))] := by
  refine ⟨?_, ?_, ?_⟩
  all_goals decide +kernel

end Siproxy
