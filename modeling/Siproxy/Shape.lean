import Siproxy.Transitions

/-!
# The reachable shapes of the control block

Five state variables are updated by hand in three handlers.  `Shape` lists the combinations that
occur; every transition leads from one of them to one of them (`Transition.shape`), and a run on
inputs that fit their fields never halts (`step_progress`).
-/

namespace Siproxy

open CString Machine

variable {localtime : ℕ → Tm}

/-- The combinations of the state variables that a run can reach. -/
inductive Shape (c : SiproxyCtrl) : Prop
  /-- No session; `mqtt_state` tells whether a number is stored. -/
  | idle (hs : c.state = .init) (hd : c.initDir = .none) (hsip : c.sipState = .init)
      (hmodem : c.modemState = .init) (hmqtt : c.mqttState = .init ∨ c.mqttState = .incoming)
      (hnum : c.mqttState = .init → c.simNum = .zero 255)
  /-- The modem rings and the SIP peer is being called. -/
  | ringing (hs : c.state = .incoming) (hd : c.initDir = .fromModem) (hsip : c.sipState = .calling)
      (hmodem : c.modemState = .incoming)
  /-- The SIP peer has called; the modem is not dialling yet, or it is. -/
  | dialling (hs : c.state = .incoming) (hd : c.initDir = .fromSip)
      (hmqtt : c.mqttState = .incoming)
      (hlegs : (c.sipState = .incoming ∧ c.modemState = .init) ∨
        (c.sipState = .confirmed ∧ c.modemState = .calling))
  /-- A call from the modem is up. -/
  | answered (hs : c.state = .confirmed) (hd : c.initDir = .fromModem)
      (hsip : c.sipState = .confirmed) (hmodem : c.modemState = .confirmed)
  /-- A call from the SIP peer is up on the modem's side. -/
  | connected (hs : c.state = .confirmed) (hd : c.initDir = .fromSip)
      (hmqtt : c.mqttState = .incoming) (hmodem : c.modemState = .confirmed)
      (hsip : c.sipState = .incoming ∨ c.sipState = .confirmed)

theorem shape_initCtrl (sipPeer : CStr) (uartFd : ℤ) : Shape (initCtrl sipPeer uartFd) :=
  .idle rfl rfl rfl rfl (.inl rfl) fun _ => rfl

theorem Shape.state_eq {c : SiproxyCtrl} (h : Shape c) :
    c.state = .init ∨ c.state = .incoming ∨ c.state = .confirmed := by
  cases h <;> simp [*]

/-- A session has a direction exactly while it is active. -/
theorem Shape.initDir_eq_none_iff {c : SiproxyCtrl} (h : Shape c) :
    c.initDir = .none ↔ ¬ c.Active := by
  cases h <;> simp [SiproxyCtrl.Active, *]

theorem Shape.initDir_of_active {c : SiproxyCtrl} (h : Shape c) (ha : c.Active) :
    c.initDir = .fromSip ∨ c.initDir = .fromModem := by
  have hd := mt h.initDir_eq_none_iff.1 (not_not.2 ha)
  cases h : c.initDir <;> simp_all

theorem Transition.shape {c c' : SiproxyCtrl} {inp : Input} {outs : List Output}
    (h : Transition localtime c inp c' outs) (hc : Shape c) : Shape c' := by
  cases h with
  | smsIn => exact hc
  | smsOut => exact hc
  | idle => exact hc
  | store he hs simNum hnum =>
    cases hc with
    | idle hs hd hsip hmodem hmqtt hz => exact .idle hs hd hsip hmodem (.inr rfl) (by simp)
    | _ => simp_all
  | ring => exact .ringing rfl rfl rfl rfl
  | invite he hs hd hm =>
    cases hc with
    | idle hs hd hsip hmodem hmqtt hz => exact .dialling rfl rfl hm (.inl ⟨rfl, hmodem⟩)
    | _ => simp_all
  | colp he hs hd hrc =>
    cases hc with
    | dialling hs hd hmqtt hlegs =>
      exact .connected rfl hd hmqtt rfl (hlegs.imp And.left And.left)
    | _ => simp_all
  | dial he hs hd num hnum =>
    cases hc with
    | dialling hs hd hmqtt hlegs => exact .dialling hs hd hmqtt (.inr ⟨rfl, rfl⟩)
    | _ => simp_all
  | answer he hs hd => exact .answered rfl hd rfl rfl
  | modemEnd => exact shape_initCtrl _ _
  | sipEnd => exact shape_initCtrl _ _

/-- The handlers invoked in a step from one shape to another are those of the three live states. -/
theorem Shape.ran {c : SiproxyCtrl} {inp : Input} {o : Outcome} (hc : Shape c)
    (h : state localtime c inp = .ok o) :
    ∀ st ∈ o.ran, st = .init ∨ st = .incoming ∨ st = .confirmed := by
  have taken : Transition localtime c inp o.ctrl o.outs := step_transition (by rw [step, h]; rfl)
  have hpost : Shape o.ctrl := taken.shape hc
  intro st hst
  by_cases hsms : inp.evt.event.isSms = false
  · rw [state_eq_handlerOf hsms] at h
    obtain ⟨r, -, rfl⟩ := map_eq_ok.1 h
    rcases List.mem_cons.1 hst with rfl | hst
    · exact hc.state_eq
    · split_ifs at hst
      · simp at hst
      · rw [List.mem_singleton] at hst
        exact hst ▸ hpost.state_eq
  · simp only [Event.isSms, Bool.or_eq_false_iff, beq_eq_false_iff_ne, not_and_or, not_not] at hsms
    rcases hsms with he | he
    · rw [state_modemSms he] at h
      obtain ⟨pub, -, rfl⟩ := map_eq_ok.1 h
      simp at hst
    · rw [state_mqttSms he, Except.ok.injEq] at h
      simp [← h] at hst

/-! ### Progress -/

/-- The byte `"`. -/
def quote : Byte := 34

/-- What the environment grants a step: the payload fits the field it is copied to, a `+CLIP` line
carries a quoted number, and publishing succeeds. -/
structure Input.Fits (inp : Input) : Prop where
  calling : inp.evt.event = .mqttCalling → inp.evt.val.strlen < 255
  clip : inp.evt.event = .modemClip → ∃ pre num post,
    inp.evt.val.bytes = pre ++ quote :: (num ++ quote :: post) ∧ quote ∉ pre ∧ quote ∉ num ∧
      num.length < 256
  published : inp.sendRc = 0

theorem clipPhone_of_quoted {val : CStr} {pre num post : List Byte}
    (h : val.bytes = pre ++ quote :: (num ++ quote :: post)) (hpre : quote ∉ pre)
    (hnum : quote ∉ num) (short : num.length < 256) :
    ∃ phone, clipPhone val = .ok phone ∧ phone.bytes = num := by
  have q : text "\"" = [quote] := rfl
  have rest : val.bytes.drop (pre.length + 1) = num ++ quote :: post := by
    rw [h, List.drop_append, List.drop_of_length_le (by omega)]
    simp
  refine ⟨val.slice (pre.length + 1) num.length, ?_, ?_⟩
  · have first : strstr (text "\"") val.bytes = some pre.length := by
      rw [q, h, strstr_singleton hpre]
    have second : strstr (text "\"") (val.bytes.drop (pre.length + 1)) = some num.length := by
      rw [q, rest, strstr_singleton hnum]
    simp [clipPhone, first, second, short]
  · simp [CStr.slice, rest]

theorem mqttPub_eq_error {rc : ℤ} {topic payload : CStr} {retained : Bool} {e : Halt} :
    mqttPub rc topic payload retained = .error e ↔ rc ≠ 0 ∧ e = .exit := by
  unfold mqttPub
  split_ifs with h
  · simp [h]
  · simp [h, eq_comm]

theorem stateInit_error {c : SiproxyCtrl} {inp : Input} {e : Halt}
    (h : stateInit inp c = .error e) :
    (inp.sendRc ≠ 0 ∧ e = .exit) ∨
      (inp.evt.event = .modemClip ∧ clipPhone inp.evt.val = .error e) ∨
      (inp.evt.event = .mqttCalling ∧ 255 < inp.evt.val.strlen ∧ e = .simNumOverflow) := by
  unfold stateInit at h
  split at h
  · next he =>
    split at h
    · next hnone =>
      cases h
      refine .inr (.inr ⟨he, ?_, rfl⟩)
      by_contra hle
      obtain ⟨b, hb, -⟩ := CharArray.strncpy_strlen (a := .zero 255) (not_lt.1 hle)
      simp [hb] at hnone
    · cases h
  · next he =>
    split_ifs at h
    rcases bind_eq_error.1 h with hphone | ⟨phone, -, h⟩
    · exact .inr (.inl ⟨he, hphone⟩)
    · rcases bind_eq_error.1 h with hpub | ⟨pub, -, h⟩
      · exact .inl (mqttPub_eq_error.1 hpub)
      · cases h
  · split_ifs at h
  · cases h

theorem stateIncoming_error {c : SiproxyCtrl} {inp : Input} {e : Halt}
    (h : stateIncoming inp c = .error e) :
    (inp.sendRc ≠ 0 ∧ e = .exit) ∨ (c.simNum.str? = none ∧ e = .simNumUnterminated) := by
  unfold stateIncoming at h
  split at h
  · split_ifs at h
    rcases bind_eq_error.1 h with hpub | ⟨pub, -, h⟩
    · exact .inl (mqttPub_eq_error.1 hpub)
    · cases h
  · cases h
  · cases h
  · cases h
  · unfold sipConfirmed at h
    split at h
    · split at h
      · next hnone =>
        cases h
        exact .inr ⟨hnone, rfl⟩
      · cases h
    · cases h
    · cases h
  · cases h
  · cases h

/-- The reasons for which a step halts. -/
theorem step_error {c : SiproxyCtrl} {inp : Input} {e : Halt}
    (h : step localtime c inp = .error e) :
    (inp.sendRc ≠ 0 ∧ e = .exit) ∨
      (inp.evt.event = .modemClip ∧ clipPhone inp.evt.val = .error e) ∨
      (inp.evt.event = .mqttCalling ∧ 255 < inp.evt.val.strlen ∧ e = .simNumOverflow) ∨
      (c.simNum.str? = none ∧ e = .simNumUnterminated) := by
  by_cases h1 : inp.evt.event = .modemSms
  · rw [step, state_modemSms h1] at h
    exact .inl (mqttPub_eq_error.1 (map_eq_error.1 (map_eq_error.1 h)))
  by_cases h2 : inp.evt.event = .mqttSms
  · simp [step, state_mqttSms h2, Except.map] at h
  have hsms : inp.evt.event.isSms = false := by simp [Event.isSms, h1, h2]
  rw [step_eq_handlerOf hsms] at h
  cases hc : c.state with
  | init =>
    rw [hc] at h
    rcases stateInit_error h with h | h | h
    · exact .inl h
    · exact .inr (.inl h)
    · exact .inr (.inr (.inl h))
  | incoming =>
    rw [hc] at h
    rcases stateIncoming_error h with h | h
    · exact .inl h
    · exact .inr (.inr (.inr h))
  | confirmed =>
    rw [hc] at h
    simp only [handlerOf, stateConfirmed] at h
    split at h <;> cases h
  | _ =>
    rw [hc] at h
    cases h

/-- The stored number is terminated inside its array. -/
def SiproxyCtrl.Terminated (c : SiproxyCtrl) : Prop := 0 ∈ c.simNum.bytes

theorem terminated_initCtrl (sipPeer : CStr) (uartFd : ℤ) :
    (initCtrl sipPeer uartFd).Terminated :=
  List.mem_replicate.2 ⟨by decide, rfl⟩

theorem Transition.terminated {c c' : SiproxyCtrl} {inp : Input} {outs : List Output}
    (h : Transition localtime c inp c' outs)
    (short : inp.evt.event = .mqttCalling → inp.evt.val.strlen < 255) (hc : c.Terminated) :
    c'.Terminated := by
  cases h with
  | store he hs simNum hnum =>
    obtain ⟨-, hb⟩ := CharArray.strncpy_eq_some hnum
    have room := short he
    simp only [SiproxyCtrl.Terminated, hb, List.mem_append, CharArray.zero, List.drop_replicate]
    exact .inr (List.mem_replicate.2 ⟨by omega, rfl⟩)
  | modemEnd => exact terminated_initCtrl _ _
  | sipEnd => exact terminated_initCtrl _ _
  | _ => exact hc

theorem SiproxyCtrl.Terminated.str? {c : SiproxyCtrl} (h : c.Terminated) :
    c.simNum.str? ≠ none := by
  have h : 0 ∈ c.simNum.bytes := h
  simp [CharArray.str?, h]

/-- On an input that fits its fields the handler thread does not stop. -/
theorem step_progress {c : SiproxyCtrl} {inp : Input} (hc : c.Terminated) (fits : inp.Fits) :
    ∃ c' outs, step localtime c inp = .ok (c', outs) := by
  rcases h : step localtime c inp with e | ⟨c', outs⟩
  · exfalso
    rcases step_error h with ⟨hrc, -⟩ | ⟨he, hclip⟩ | ⟨he, hlen, -⟩ | ⟨hnone, -⟩
    · exact hrc fits.published
    · obtain ⟨pre, num, post, hval, hpre, hnum, hshort⟩ := fits.clip he
      obtain ⟨phone, hphone, -⟩ := clipPhone_of_quoted hval hpre hnum hshort
      simp [hphone] at hclip
    · have := fits.calling he
      omega
    · exact hc.str? hnone
  · exact ⟨c', outs, rfl⟩

/-- Every run on inputs that fit their fields goes through, every control block on the way has one
of the five shapes, and only the handlers of `INIT`, `INCOMING` and `CONFIRMED` are ever invoked. -/
theorem run_shape (localtime : ℕ → Tm) (sipPeer : CStr) (uartFd : ℤ) (inps : List Input)
    (fits : ∀ inp ∈ inps, inp.Fits) :
    (∃ c outs, run (step localtime) (initCtrl sipPeer uartFd) inps = .ok (c, outs) ∧ Shape c) ∧
      ∀ m ∈ trace (step localtime) (initCtrl sipPeer uartFd) inps,
        Shape m.pre ∧ Shape m.post ∧ ∀ o, state localtime m.pre m.input = .ok o →
          ∀ st ∈ o.ran, st = .init ∨ st = .incoming ∨ st = .confirmed := by
  constructor
  · have progress : ∀ c inp, Shape c ∧ c.Terminated → inp.Fits →
        ∃ c' outs, step localtime c inp = .ok (c', outs) ∧ Shape c' ∧ c'.Terminated := by
      intro c inp hc hfits
      obtain ⟨c', outs, h⟩ := step_progress hc.2 hfits
      have taken : Transition localtime c inp c' outs := step_transition h
      exact ⟨c', outs, h, taken.shape hc.1, taken.terminated hfits.calling hc.2⟩
    obtain ⟨c, outs, hrun, hc, -⟩ := run_total (fun c => Shape c ∧ c.Terminated) Input.Fits
      ⟨shape_initCtrl sipPeer uartFd, terminated_initCtrl sipPeer uartFd⟩ progress inps fits
    exact ⟨c, outs, hrun, hc⟩
  · intro m hm
    obtain ⟨hpre, hpost⟩ := trace_invariant Shape (shape_initCtrl sipPeer uartFd)
      (fun c inp c' outs hc h => (step_transition h).shape hc) hm
    exact ⟨hpre, hpost, fun o ho => hpre.ran ho⟩

/-! ### A sample run -/

/-- An event without text, at a moment when publishing succeeds. -/
def Input.bare (e : Event) : Input := ⟨.bare e, 0, 0⟩

def sampleLocaltime : ℕ → Tm := fun _ => ⟨2015, 8, 12, 22, 32, 42⟩

def samplePeer : CStr := .lit "sip:200002@121.42.52.171:5008" (by decide)

def sampleCtrl : SiproxyCtrl := initCtrl samplePeer 3

/-- The peer asks for a call to `13761124413`. -/
def sampleCalling : Input := ⟨⟨.mqttCalling, .lit "13761124413" (by decide), by decide⟩, 0, 0⟩

/-- The modem rings with `13761124413`. -/
def sampleClip : Input :=
  ⟨⟨.modemClip, .lit "+CLIP: \"13761124413\",161" (by decide), by decide⟩, 0, 0⟩

theorem Input.bare_fits {e : Event} (h : e ≠ .modemClip) : (Input.bare e).Fits :=
  ⟨fun _ => (by decide : 0 < 255), fun he => absurd he h, rfl⟩

theorem sampleCalling_fits : sampleCalling.Fits :=
  ⟨fun _ => by decide, fun he => absurd he (by decide), rfl⟩

theorem sampleClip_fits : sampleClip.Fits :=
  ⟨by decide, fun _ => ⟨text "+CLIP: ", text "13761124413", text ",161", by decide, by decide,
    by decide, by decide⟩, rfl⟩

/-- A call from the modem that the far end gives up, then a call from the SIP peer. -/
def sampleRun : List Input :=
  [sampleClip, .bare .sipConfirmed, .bare .modemNoCarrier, sampleCalling, .bare .sipIncoming,
    .bare .sipConfirmed, .bare .modemColp]

theorem sampleRun_fits : ∀ inp ∈ sampleRun, inp.Fits := by
  intro inp hinp
  simp only [sampleRun, List.mem_cons, List.not_mem_nil, or_false] at hinp
  rcases hinp with rfl | rfl | rfl | rfl | rfl | rfl | rfl
  · exact sampleClip_fits
  · exact Input.bare_fits (by decide)
  · exact Input.bare_fits (by decide)
  · exact sampleCalling_fits
  · exact Input.bare_fits (by decide)
  · exact Input.bare_fits (by decide)
  · exact Input.bare_fits (by decide)

theorem run_shape_sampleRun :
    (∀ inp ∈ sampleRun, inp.Fits) ∧
      ∃ c outs, run (step sampleLocaltime) sampleCtrl sampleRun = .ok (c, outs) ∧ Shape c :=
  ⟨sampleRun_fits, (run_shape sampleLocaltime samplePeer 3 sampleRun sampleRun_fits).1⟩

end Siproxy
