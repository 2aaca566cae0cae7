import Siproxy.Events

/-!
# Classifying lines

The matcher of `match.c` and the three tables of `main.c` that map a line of the modem, a line of
the SIP client or an MQTT topic to an event.  Patterns and texts are C strings without their
terminators.
-/

namespace Siproxy

open CString

/-- `matchstar`, where `here` is `matchhere` on the rest of the pattern. -/
def matchstar (here : List Byte → Bool) (c : Byte) : List Byte → Bool
  | [] => here []
  | b :: txt => here (b :: txt) || ((b == c || c == 46) && matchstar here c txt)

/-- `matchhere`: the pattern matches at the beginning of the text.  `42` is `*`, `36` is `$` and
`46` is `.`. -/
def matchhere : List Byte → List Byte → Bool
  | [], _ => true
  | [c], txt =>
    if c = 36 then txt.isEmpty
    else
      match txt with
      | [] => false
      | b :: _ => c == 46 || c == b
  | c :: d :: re, txt =>
    if d = 42 then matchstar (matchhere re) c txt
    else
      match txt with
      | [] => false
      | b :: txt => (c == 46 || c == b) && matchhere (d :: re) txt

/-- The loop of `match` over the suffixes of the text, the empty one included. -/
def matchany (re : List Byte) : List Byte → Bool
  | [] => matchhere re []
  | b :: txt => matchhere re (b :: txt) || matchany re txt

/-- `match`: the pattern matches somewhere in the text; `94` is `^`. -/
def match_ (re txt : List Byte) : Bool :=
  match re with
  | 94 :: re => matchhere re txt
  | _ => matchany re txt

/-- `struct event_map`. -/
structure EventMap where
  event : Event
  regex : List Byte

/-- `modem_events`. -/
def modemEvents : List EventMap :=
  [⟨.none, text "NONE"⟩, ⟨.modemColp, text "+COLP"⟩, ⟨.modemClip, text "+CLIP"⟩,
    ⟨.modemNoCarrier, text "NO CARRIER"⟩, ⟨.modemNoAnswer, text "NO ANSWER"⟩,
    ⟨.modemBusy, text "BUSY"⟩, ⟨.modemOk, text "OK"⟩, ⟨.modemError, text "ERROR"⟩,
    ⟨.modemSms, text "+CMTI: \"SM\""⟩]

/-- `sip_events`. -/
def sipEvents : List EventMap :=
  [⟨.sipCalling, text "state changed to CALLING"⟩, ⟨.sipIncoming, text "Press ca a to answer"⟩,
    ⟨.sipEarly, text "NONE"⟩, ⟨.sipConnecting, text "state changed to CONNECTING"⟩,
    ⟨.sipConfirmed, text "state changed to CONFIRMED"⟩, ⟨.sipDisconnctd, text "is DISCONNECTED"⟩]

/-- `mqtt_events`: the patterns are `TOPIC_BOB_CALLING`, `PEERID_STATUS` and `PEERID_SMS`. -/
def mqttEvents : List EventMap :=
  [⟨.mqttCalling, text "/200002Bob/Calling/PhoneOther"⟩, ⟨.mqttStatus, text "/200002Bob/Status"⟩,
    ⟨.mqttSms, text "/200002Bob/SMS"⟩]

/-- `find_event`: the event of the first row whose pattern matches. -/
def findEvent (buf : List Byte) : List EventMap → Event
  | [] => .none
  | row :: rows => if match_ row.regex buf then row.event else findEvent buf rows

/-! ### More text -/

theorem matchstar_append {here : List Byte → Bool}
    (grows : ∀ txt more, here txt = true → here (txt ++ more) = true) {c : Byte}
    {txt : List Byte} (more : List Byte) (h : matchstar here c txt = true) :
    matchstar here c (txt ++ more) = true := by
  induction txt with
  | nil =>
    have hm : here more = true := grows [] more h
    cases more with
    | nil => exact h
    | cons b more => simp [matchstar, hm]
  | cons b txt ih =>
    simp only [matchstar, Bool.or_eq_true, Bool.and_eq_true, List.cons_append] at h ⊢
    exact h.imp (grows (b :: txt) more) fun h => ⟨h.1, ih h.2⟩

/-- A pattern without `$` goes on matching when the text goes on. -/
theorem matchhere_append : ∀ {re : List Byte}, 36 ∉ re → ∀ (txt more : List Byte),
    matchhere re txt = true → matchhere re (txt ++ more) = true
  | [], _, txt, more, _ => by simp [matchhere]
  | [c], hre, txt, more, h => by
    have hc : c ≠ 36 := fun hc => hre (by simp [hc])
    cases txt with
    | nil => simp [matchhere, hc] at h
    | cons b txt => simpa [matchhere, hc] using h
  | c :: d :: re, hre, txt, more, h => by
    simp only [List.mem_cons, not_or] at hre
    by_cases hd : d = 42
    · simp only [matchhere, hd, if_true] at h ⊢
      exact matchstar_append (matchhere_append hre.2.2) more h
    · have grows := @matchhere_append (d :: re) (by simp [hre])
      cases txt with
      | nil => simp [matchhere, hd] at h
      | cons b txt =>
        simp only [matchhere, hd, if_false, Bool.and_eq_true, List.cons_append] at h ⊢
        exact ⟨h.1, grows txt more h.2⟩

theorem matchany_append {re : List Byte} (hre : 36 ∉ re) {txt : List Byte} (more : List Byte)
    (h : matchany re txt = true) : matchany re (txt ++ more) = true := by
  induction txt with
  | nil =>
    have hm : matchhere re more = true := matchhere_append hre [] more h
    cases more with
    | nil => exact h
    | cons b more => simp [matchany, hm]
  | cons b txt ih =>
    simp only [matchany, Bool.or_eq_true, List.cons_append] at h ⊢
    exact h.imp (matchhere_append hre _ more) ih

theorem match_append {re : List Byte} (hre : 36 ∉ re) {txt : List Byte} (more : List Byte)
    (h : match_ re txt = true) : match_ re (txt ++ more) = true := by
  unfold match_ at h ⊢
  split at h
  · next re => exact matchhere_append (fun hm => hre (List.mem_cons_of_mem _ hm)) txt more h
  · exact matchany_append hre more h

/-- A line with an event goes on having one when it goes on. -/
theorem findEvent_append {rows : List EventMap}
    (hrows : ∀ row ∈ rows, 36 ∉ row.regex ∧ row.event ≠ .none) {txt : List Byte}
    (more : List Byte) (h : findEvent txt rows ≠ .none) : findEvent (txt ++ more) rows ≠ .none := by
  induction rows with
  | nil => exact absurd rfl h
  | cons row rows ih =>
    obtain ⟨hre, hevent⟩ := hrows row List.mem_cons_self
    unfold findEvent at h ⊢
    split_ifs with hmore
    · exact hevent
    · have hnot : match_ row.regex txt = false := by
        by_contra hm
        exact hmore (match_append hre more (by simpa using hm))
      rw [if_neg (by simp [hnot])] at h
      exact ih (fun row hrow => hrows row (List.mem_cons_of_mem _ hrow)) h

example : findEvent (text "NO CARRIER..") modemEvents = .modemNoCarrier := by decide

example : findEvent (text "Call 0 is DISCONNECTED [reason=603]") sipEvents = .sipDisconnctd := by
  decide

end Siproxy
