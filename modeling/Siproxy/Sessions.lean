import Siproxy.Shape

/-!
# Sessions

A session runs from the step that leaves `INIT` to the next reset.  This file follows whole runs of
the event handler thread with a few ghost variables computed from the history: the outputs of the
current session (`sessionOuts`) and the numbers offered since the last reset (`callings`).

* `hangup_balance`: a session ends with exactly one hang-up command, towards the leg that is still
  up, and no other step hangs up.
* `confirmed_iff`: `CONFIRMED` means that both legs are up, and `Ok` is published only after the
  modem has been told to dial, exactly in the runs in which no `+COLP` comes before the SIP leg of
  its session is confirmed.
* `setup_once_iff`: at most one call set-up command goes to each leg in a session, exactly in the
  runs in which the SIP leg of a session from the SIP peer is not confirmed twice while the modem
  is dialling.
* `dialled_number`: the number dialled is the last one offered while no session was active.
-/

namespace Siproxy

open CString Machine

variable {localtime : ℕ → Tm}

/-- A recorded step of the event handler thread. -/
abbrev CallMove := Move SiproxyCtrl Input Output

/-- The steps of the event handler thread from the initial control block. -/
abbrev callTrace (localtime : ℕ → Tm) (sipPeer : CStr) (uartFd : ℤ) (inps : List Input) :
    List CallMove :=
  trace (step localtime) (initCtrl sipPeer uartFd) inps

/-- The step leaves `INIT`. -/
def Starts (m : CallMove) : Prop := m.pre.state = .init ∧ m.post.Active

/-- The step ends an active session. -/
def Ends (m : CallMove) : Prop := m.pre.Active ∧ m.post.state = .init

instance (m : CallMove) : Decidable (Starts m) :=
  inferInstanceAs (Decidable (m.pre.state = .init ∧ m.post.Active))

instance (m : CallMove) : Decidable (Ends m) :=
  inferInstanceAs (Decidable (m.pre.Active ∧ m.post.state = .init))

theorem not_active_of_init {c : SiproxyCtrl} (h : c.state = .init) : ¬ c.Active := by
  simp [SiproxyCtrl.Active, h]

theorem Shape.init_of_not_active {c : SiproxyCtrl} (hc : Shape c) (h : ¬ c.Active) :
    c.state = .init := by
  rcases hc.state_eq with hs | hs | hs
  · exact hs
  · exact absurd (.inl hs) h
  · exact absurd (.inr hs) h

/-! ### Hang-ups -/

/-- `sip_hangup_call` and `modem_hangup_call`. -/
def Output.isHangup : Output → Bool
  | .sipHangupCall | .modemHangupCall _ => true
  | _ => false

theorem Transition.settings {c c' : SiproxyCtrl} {inp : Input} {outs : List Output}
    (h : Transition localtime c inp c' outs) :
    c'.sipPeer = c.sipPeer ∧ c'.uartFd = c.uartFd := by
  cases h <;> exact ⟨rfl, rfl⟩

/-- A step hangs up once if it ends a session, and otherwise not at all. -/
theorem Transition.hangup {c c' : SiproxyCtrl} {inp : Input} {outs : List Output}
    (h : Transition localtime c inp c' outs) (hc : Shape c) :
    (c.Active ∧ c' = siproxyReset c ∧
        ((inp.evt.event.isModemEnd = true ∧ outs = [.sipHangupCall]) ∨
          (inp.evt.event = .sipDisconnctd ∧ outs = [.modemHangupCall c.uartFd]))) ∨
      ((c.Active → c'.Active) ∧ ∀ o ∈ outs, o.isHangup = false) := by
  cases h with
  | modemEnd he ha =>
    refine .inl ⟨ha, rfl, .inl ⟨he, ?_⟩⟩
    rcases hc.initDir_of_active ha with hd | hd <;> simp [endFromModem, hd]
  | sipEnd he ha =>
    refine .inl ⟨ha, rfl, .inr ⟨he, ?_⟩⟩
    rcases hc.initDir_of_active ha with hd | hd <;> simp [endFromSip, hd]
  | smsIn => exact .inr ⟨id, by simp [Output.isHangup]⟩
  | smsOut => exact .inr ⟨id, by simp [Output.isHangup]⟩
  | store => exact .inr ⟨id, by simp⟩
  | ring => exact .inr ⟨fun _ => .inl rfl, by simp [Output.isHangup]⟩
  | invite => exact .inr ⟨fun _ => .inl rfl, by simp [Output.isHangup]⟩
  | colp => exact .inr ⟨fun _ => .inr rfl, by simp [Output.isHangup]⟩
  | dial => exact .inr ⟨id, by simp [Output.isHangup]⟩
  | answer => exact .inr ⟨fun _ => .inr rfl, by simp [Output.isHangup]⟩
  | idle => exact .inr ⟨id, by simp⟩

/-- What a step of a run is known to keep: the shape and the settings. -/
theorem callTrace_shape {sipPeer : CStr} {uartFd : ℤ} {inps : List Input} {m : CallMove}
    (hm : m ∈ callTrace localtime sipPeer uartFd inps) :
    Shape m.pre ∧ m.pre.sipPeer = sipPeer ∧ m.pre.uartFd = uartFd ∧
      Transition localtime m.pre m.input m.post m.outs := by
  obtain ⟨p, q, split⟩ := List.append_of_mem hm
  have taken : Transition localtime m.pre m.input m.post m.outs :=
    step_transition (trace_split split).2
  have kept := (trace_invariant
    (fun c : SiproxyCtrl => Shape c ∧ c.sipPeer = sipPeer ∧ c.uartFd = uartFd)
    ⟨shape_initCtrl sipPeer uartFd, rfl, rfl⟩ (by
      intro c inp c' outs ⟨hc, hp, hu⟩ h
      have taken : Transition localtime c inp c' outs := step_transition h
      obtain ⟨hp', hu'⟩ := taken.settings
      exact ⟨taken.shape hc, hp'.trans hp, hu'.trans hu⟩) hm).1
  exact ⟨kept.1, kept.2.1, kept.2.2, taken⟩

/-- A property of the history that every transition keeps holds at every prefix of every run. -/
theorem callTrace_history {sipPeer : CStr} {uartFd : ℤ} {inps : List Input}
    (Inv : List CallMove → SiproxyCtrl → Prop) (start : Inv [] (initCtrl sipPeer uartFd))
    (keep : ∀ tr, ∀ m ∈ callTrace localtime sipPeer uartFd inps, Inv tr m.pre → Shape m.pre →
      Transition localtime m.pre m.input m.post m.outs → Inv (tr ++ [m]) m.post)
    {p q : List CallMove} (split : callTrace localtime sipPeer uartFd inps = p ++ q) :
    Inv p (final (initCtrl sipPeer uartFd) p) :=
  (trace_history (fun tr c => Shape c ∧ Inv tr c) ⟨shape_initCtrl sipPeer uartFd, start⟩
    (fun tr m hm hi h =>
      ⟨(step_transition h).shape hi.1, keep tr m hm hi.2 hi.1 (step_transition h)⟩) split).2

/-- Sessions started are hang-ups plus the session that is active. -/
def Balanced (tr : List CallMove) (c : SiproxyCtrl) : Prop :=
  tr.countP (fun m => Starts m) =
    (tr.flatMap Move.outs).countP Output.isHangup + if c.Active then 1 else 0

theorem Balanced.concat {tr : List CallMove} {m : CallMove} (h : Balanced tr m.pre)
    (hc : Shape m.pre) (taken : Transition localtime m.pre m.input m.post m.outs) :
    Balanced (tr ++ [m]) m.post := by
  unfold Balanced at h ⊢
  rw [List.countP_append, List.flatMap_append, List.countP_append, h]
  rcases taken.hangup hc with ⟨ha, hreset, houts⟩ | ⟨hkeep, hquiet⟩
  · have hs : ¬ m.post.Active := by
      rw [hreset]
      exact not_active_of_init rfl
    have one : m.outs.countP Output.isHangup = 1 := by
      rcases houts with ⟨-, ho⟩ | ⟨-, ho⟩ <;> simp [ho, Output.isHangup]
    simp [Starts, ha, hs, one]
  · have none : m.outs.countP Output.isHangup = 0 :=
      List.countP_eq_zero.2 (by simpa using hquiet)
    by_cases ha : m.pre.Active
    · have hs : m.pre.state ≠ .init := fun hs => not_active_of_init hs ha
      simp [Starts, ha, hkeep ha, hs, none]
    · have hs := hc.init_of_not_active ha
      by_cases hp : m.post.Active <;> simp [Starts, ha, hp, hs, none]

/-- In every run, a step that ends a session asks for exactly one hang-up, of the SIP leg if the
modem's leg ended and of the modem's leg if the SIP leg ended, and resets the control block; no
other step hangs up; and sessions started are hang-ups plus the active session. -/
theorem hangup_balance (localtime : ℕ → Tm) (sipPeer : CStr) (uartFd : ℤ) (inps : List Input) :
    (∀ m ∈ callTrace localtime sipPeer uartFd inps, Ends m →
      ((m.input.evt.event.isModemEnd = true ∧ m.outs = [.sipHangupCall]) ∨
        (m.input.evt.event = .sipDisconnctd ∧ m.outs = [.modemHangupCall uartFd])) ∧
      m.post = initCtrl sipPeer uartFd) ∧
    (∀ m ∈ callTrace localtime sipPeer uartFd inps, ¬ Ends m → ∀ o ∈ m.outs, o.isHangup = false) ∧
    Balanced (callTrace localtime sipPeer uartFd inps)
      (final (initCtrl sipPeer uartFd) (callTrace localtime sipPeer uartFd inps)) := by
  refine ⟨fun m hm hend => ?_, fun m hm hend => ?_, ?_⟩
  · obtain ⟨hc, hp, hu, taken⟩ := callTrace_shape hm
    rcases taken.hangup hc with ⟨-, hreset, houts⟩ | ⟨hkeep, -⟩
    · rw [hu] at houts
      rw [hreset, siproxyReset_eq, hp, hu]
      exact ⟨houts, rfl⟩
    · exact absurd (hkeep hend.1) (not_active_of_init hend.2)
  · obtain ⟨hc, -, -, taken⟩ := callTrace_shape hm
    rcases taken.hangup hc with ⟨ha, hreset, -⟩ | ⟨-, hquiet⟩
    · exact absurd ⟨ha, by rw [hreset]; rfl⟩ hend
    · exact hquiet
  · have start : Balanced [] (initCtrl sipPeer uartFd) := by
      simp [Balanced, initCtrl, SiproxyCtrl.Active]
    exact callTrace_history Balanced start
      (fun tr m _ h hc taken => h.concat hc taken) (List.append_nil _).symm

/-! ### The outputs of the current session -/

/-- The outputs since the step that left `INIT`, that step included. -/
def sessionOuts (tr : List CallMove) : List Output :=
  tr.foldl (fun acc m => if m.pre.Active then acc ++ m.outs else m.outs) []

theorem sessionOuts_concat (tr : List CallMove) (m : CallMove) :
    sessionOuts (tr ++ [m]) = if m.pre.Active then sessionOuts tr ++ m.outs else m.outs := by
  simp [sessionOuts]

/-- The modem has been told to dial in the current session. -/
def Dialled (outs : List Output) : Prop := ∃ uart num, Output.modemMakeCall uart num ∈ outs

/-- In a session from the SIP peer whose SIP leg is confirmed, the modem has been told to dial. -/
def DialledIfConfirmed (tr : List CallMove) (c : SiproxyCtrl) : Prop :=
  c.state = .incoming → c.initDir = .fromSip → c.sipState = .confirmed → Dialled (sessionOuts tr)

theorem DialledIfConfirmed.concat {tr : List CallMove} {m : CallMove}
    (h : DialledIfConfirmed tr m.pre) (taken : Transition localtime m.pre m.input m.post m.outs) :
    DialledIfConfirmed (tr ++ [m]) m.post := by
  unfold DialledIfConfirmed at h ⊢
  rw [sessionOuts_concat]
  rcases m with ⟨c, inp, outs, c'⟩
  dsimp only at h taken ⊢
  cases taken with
  | dial he hs hd num hnum =>
    have ha : c.Active := .inl hs
    intro _ _ _
    rw [if_pos ha]
    exact ⟨c.uartFd, num, by simp⟩
  | ring | invite | colp | answer => simp
  | modemEnd | sipEnd => simp [endFromModem, endFromSip, siproxyReset]
  | store he hs => simp [hs]
  | smsIn | smsOut | idle =>
    intro hs hd hsip
    have ha : c.Active := .inl hs
    obtain ⟨uart, num, hmem⟩ := h hs hd hsip
    exact ⟨uart, num, by simp [ha, hmem]⟩

theorem dialled_before {sipPeer : CStr} {uartFd : ℤ} {inps : List Input} {p q : List CallMove}
    {m : CallMove} (split : callTrace localtime sipPeer uartFd inps = p ++ m :: q) :
    DialledIfConfirmed p m.pre := by
  rw [(trace_split split).1]
  exact callTrace_history DialledIfConfirmed (by simp [DialledIfConfirmed, initCtrl])
    (fun tr m _ h _ taken => h.concat taken) split

/-! ### Both legs of a confirmed call -/

/-- `+COLP` in a session from the SIP peer whose SIP leg is not confirmed yet. -/
def EarlyColp (m : CallMove) : Prop :=
  m.input.evt.event = .modemColp ∧ m.pre.state = .incoming ∧ m.pre.initDir = .fromSip ∧
    m.pre.sipState ≠ .confirmed

/-- Whenever the state is `CONFIRMED` both legs are up, and the modem status `Ok` is published only
in a session in which the modem has been told to dial. -/
def LegsUp (tr : List CallMove) : Prop :=
  (∀ m ∈ tr, m.post.state = .confirmed →
    m.post.sipState = .confirmed ∧ m.post.modemState = .confirmed) ∧
  ∀ p m q, tr = p ++ m :: q → Output.mqttPub topicAliceModem modemCallOk false ∈ m.outs →
    Dialled (sessionOuts p)

theorem Transition.confirmed {c c' : SiproxyCtrl} {inp : Input} {outs : List Output}
    (h : Transition localtime c inp c' outs)
    (hup : c.state = .confirmed → c.sipState = .confirmed ∧ c.modemState = .confirmed)
    (early : ¬ (inp.evt.event = .modemColp ∧ c.state = .incoming ∧ c.initDir = .fromSip ∧
      c.sipState ≠ .confirmed)) (hs' : c'.state = .confirmed) :
    c'.sipState = .confirmed ∧ c'.modemState = .confirmed := by
  cases h with
  | smsIn | smsOut | idle => exact hup hs'
  | answer => exact ⟨rfl, rfl⟩
  | colp he hs hd hrc =>
    by_contra hne
    exact early ⟨he, hs, hd, fun hsip => hne ⟨hsip, rfl⟩⟩
  | dial he hs | store he hs => simp [hs] at hs'
  | ring | invite | modemEnd | sipEnd => simp [endFromModem, endFromSip, siproxyReset] at hs'

theorem ok_ne_called (phone : CStr) :
    Output.mqttPub topicAliceModem modemCallOk false ≠ .mqttPub topicAliceCalled phone false := by
  intro h
  have topics : topicAliceModem = topicAliceCalled := by injection h
  exact absurd topics (by decide)

/-- `Ok` is published by the `+COLP` transition only. -/
theorem Transition.ok_published {c c' : SiproxyCtrl} {inp : Input} {outs : List Output}
    (h : Transition localtime c inp c' outs)
    (hok : Output.mqttPub topicAliceModem modemCallOk false ∈ outs) :
    inp.evt.event = .modemColp ∧ c.state = .incoming ∧ c.initDir = .fromSip := by
  cases h with
  | colp he hs hd hrc => exact ⟨he, hs, hd⟩
  | ring he hs hd phone hphone hrc =>
    rcases List.mem_cons.1 hok with h | h
    · exact absurd h (ok_ne_called phone)
    · simp at h
  | smsIn => simp at hok
  | modemEnd he ha | sipEnd he ha =>
    simp only [endFromModem, endFromSip] at hok
    split_ifs at hok <;> simp at hok
  | _ => simp at hok

/-- Both legs are up whenever the state is `CONFIRMED`, and `Ok` is only published once the modem
has been told to dial, exactly in the runs without an early `+COLP`. -/
theorem confirmed_iff (localtime : ℕ → Tm) (sipPeer : CStr) (uartFd : ℤ) (inps : List Input) :
    LegsUp (callTrace localtime sipPeer uartFd inps) ↔
      ∀ m ∈ callTrace localtime sipPeer uartFd inps, ¬ EarlyColp m := by
  constructor
  · rintro ⟨up, -⟩ m hm ⟨he, hs, hd, hsip⟩
    obtain ⟨hc, -, -, taken⟩ := callTrace_shape hm
    have := up m hm
    rcases m with ⟨c, inp, outs, c'⟩
    dsimp only at *
    cases taken with
    | colp => exact hsip (this rfl).1
    | idle hi => exact hi.2.2.2.2.1 hs hd he
    | smsIn he' | smsOut he' | sipEnd he' => simp [he] at he'
    | modemEnd he' => simp [he, Event.isModemEnd] at he'
    | _ => simp_all
  · intro calm
    refine ⟨fun m hm hs' => ?_, fun p m q split hok => ?_⟩
    · obtain ⟨p, q, split⟩ := List.append_of_mem hm
      have up : (final (initCtrl sipPeer uartFd) (p ++ [m])).state = .confirmed →
          (final (initCtrl sipPeer uartFd) (p ++ [m])).sipState = .confirmed ∧
            (final (initCtrl sipPeer uartFd) (p ++ [m])).modemState = .confirmed :=
        callTrace_history (fun _ c => c.state = .confirmed →
            c.sipState = .confirmed ∧ c.modemState = .confirmed)
          (by simp [initCtrl]) (fun tr m hm hi _ taken => taken.confirmed hi (calm m hm))
          (split.trans (List.append_cons p m q))
      rw [final_concat] at up
      exact up hs'
    · have hm : m ∈ callTrace localtime sipPeer uartFd inps := by simp [split]
      obtain ⟨hc, -, -, taken⟩ := callTrace_shape hm
      obtain ⟨he, hs, hd⟩ := taken.ok_published hok
      have hsip : m.pre.sipState = .confirmed := by
        by_contra hne
        exact calm m hm ⟨he, hs, hd, hne⟩
      exact dialled_before split hs hd hsip

/-- `+COLP` right after the SIP peer's call: `CONFIRMED` with a SIP leg that is not. -/
theorem not_legsUp_earlyColp :
    ¬ LegsUp (callTrace sampleLocaltime samplePeer 3
      [sampleCalling, .bare .sipIncoming, .bare .modemColp]) :=
  fun h => absurd h.1 (by decide)

/-! ### One set-up command for each leg -/

/-- `sip_make_call` and `sip_answer_call`. -/
def Output.isSipSetup : Output → Bool
  | .sipMakeCall _ | .sipAnswerCall => true
  | _ => false

/-- `modem_make_call` and `modem_answer_call`. -/
def Output.isModemSetup : Output → Bool
  | .modemMakeCall _ _ | .modemAnswerCall _ => true
  | _ => false

/-- In every session, up to every moment, at most one set-up command has gone to each leg. -/
def SetupOnce (tr : List CallMove) : Prop :=
  ∀ p q, tr = p ++ q → (sessionOuts p).countP Output.isSipSetup ≤ 1 ∧
    (sessionOuts p).countP Output.isModemSetup ≤ 1

/-- The SIP leg is confirmed once more while the modem is already dialling. -/
def Redials (m : CallMove) : Prop :=
  m.input.evt.event = .sipConfirmed ∧ m.pre.state = .incoming ∧ m.pre.initDir = .fromSip ∧
    m.pre.sipState = .confirmed

/-- Set-up commands go to the SIP leg only from `INIT`, and to the modem's leg only from a session
whose SIP leg is being confirmed. -/
theorem Transition.setup {c c' : SiproxyCtrl} {inp : Input} {outs : List Output}
    (h : Transition localtime c inp c' outs) (hc : Shape c) :
    outs.countP Output.isSipSetup ≤ (if c.Active then 0 else 1) ∧
      (outs.countP Output.isModemSetup = 0 ∨
        (outs.countP Output.isModemSetup = 1 ∧ inp.evt.event = .sipConfirmed ∧
          c.state = .incoming ∧ c'.sipState = .confirmed ∧
          (c.initDir = .fromSip ∨ c.sipState ≠ .confirmed))) := by
  cases h with
  | ring he hs | invite he hs =>
    simp [Output.isSipSetup, Output.isModemSetup, not_active_of_init hs]
  | dial he hs hd num hnum =>
    exact ⟨by simp [Output.isSipSetup], .inr ⟨by simp [Output.isModemSetup], he, hs, rfl, .inl hd⟩⟩
  | answer he hs hd =>
    refine ⟨by simp [Output.isSipSetup], .inr ⟨by simp [Output.isModemSetup], he, hs, rfl, .inr ?_⟩⟩
    cases hc with
    | ringing hs hd hsip hmodem => simp [hsip]
    | _ => simp_all
  | modemEnd | sipEnd =>
    simp only [endFromModem, endFromSip]
    split_ifs <;> simp [Output.isSipSetup, Output.isModemSetup]
  | _ => simp [Output.isSipSetup, Output.isModemSetup]

/-- The set-up commands of the current session so far, when nothing was dialled twice. -/
structure SetupCount (tr : List CallMove) (c : SiproxyCtrl) : Prop where
  sip : (sessionOuts tr).countP Output.isSipSetup ≤ 1
  modem : (sessionOuts tr).countP Output.isModemSetup ≤ 1
  fresh : c.state = .incoming → c.sipState ≠ .confirmed →
    (sessionOuts tr).countP Output.isModemSetup = 0

theorem Transition.sipState_of_active {c c' : SiproxyCtrl} {inp : Input} {outs : List Output}
    (h : Transition localtime c inp c' outs) (ha : c.Active) (hs : c'.state = .incoming)
    (hsip : c'.sipState ≠ .confirmed) : c.state = .incoming ∧ c.sipState ≠ .confirmed := by
  cases h with
  | smsIn | smsOut | idle => exact ⟨hs, hsip⟩
  | store he hi | ring he hi | invite he hi => exact absurd ha (not_active_of_init hi)
  | colp | answer => simp at hs
  | dial => simp at hsip
  | modemEnd | sipEnd => simp [endFromModem, endFromSip, siproxyReset] at hs

theorem SetupCount.concat {tr : List CallMove} {m : CallMove} (h : SetupCount tr m.pre)
    (hc : Shape m.pre) (taken : Transition localtime m.pre m.input m.post m.outs)
    (calm : ¬ Redials m) : SetupCount (tr ++ [m]) m.post := by
  obtain ⟨hsip, hmodem⟩ := taken.setup hc
  by_cases ha : m.pre.Active
  · rw [if_pos ha] at hsip
    have outs : sessionOuts (tr ++ [m]) = sessionOuts tr ++ m.outs := by
      rw [sessionOuts_concat, if_pos ha]
    have sip : (sessionOuts (tr ++ [m])).countP Output.isSipSetup ≤ 1 := by
      rw [outs, List.countP_append]
      have := h.sip
      omega
    rcases hmodem with none | ⟨one, he, hs, hconf, hfirst⟩
    · have same : (sessionOuts (tr ++ [m])).countP Output.isModemSetup =
          (sessionOuts tr).countP Output.isModemSetup := by
        rw [outs, List.countP_append, none, Nat.add_zero]
      refine ⟨sip, same ▸ h.modem, fun hs' hsip' => ?_⟩
      obtain ⟨hs, hsip⟩ := taken.sipState_of_active ha hs' hsip'
      rw [same]
      exact h.fresh hs hsip
    · have unconfirmed : m.pre.sipState ≠ .confirmed := by
        rcases hfirst with hd | hne
        · exact fun hsip => calm ⟨he, hs, hd, hsip⟩
        · exact hne
      refine ⟨sip, ?_, fun _ hsip' => absurd hconf hsip'⟩
      rw [outs, List.countP_append, one, h.fresh hs unconfirmed]
  · rw [if_neg ha] at hsip
    have outs : sessionOuts (tr ++ [m]) = m.outs := by
      rw [sessionOuts_concat, if_neg ha]
    have none : m.outs.countP Output.isModemSetup = 0 := by
      rcases hmodem with none | ⟨-, -, hs, -⟩
      · exact none
      · exact absurd (.inl hs) ha
    exact ⟨by rw [outs]; exact hsip, by rw [outs, none]; exact Nat.zero_le _,
      fun _ _ => by rw [outs, none]⟩

/-- At most one set-up command goes to each leg of a session exactly in the runs in which the SIP
leg is not confirmed once more while the modem is dialling. -/
theorem setup_once_iff (localtime : ℕ → Tm) (sipPeer : CStr) (uartFd : ℤ) (inps : List Input) :
    SetupOnce (callTrace localtime sipPeer uartFd inps) ↔
      ∀ m ∈ callTrace localtime sipPeer uartFd inps, ¬ Redials m := by
  constructor
  · rintro once m hm ⟨he, hs, hd, hsip⟩
    obtain ⟨p, q, split⟩ := List.append_of_mem hm
    obtain ⟨uart, num, before⟩ := dialled_before split hs hd hsip
    have again : ∃ num, m.outs = [.modemMakeCall m.pre.uartFd num] := by
      obtain ⟨-, -, -, taken⟩ := callTrace_shape hm
      rcases m with ⟨c, inp, outs, c'⟩
      dsimp only at *
      cases taken with
      | dial _ _ _ num hnum => exact ⟨num, rfl⟩
      | idle hi => exact absurd he (hi.2.2.2.2.2.1 hs (by simp [hd]))
      | smsIn he' | smsOut he' | sipEnd he' => simp [he] at he'
      | modemEnd he' => simp [he, Event.isModemEnd] at he'
      | _ => simp_all
    obtain ⟨num', again⟩ := again
    have two := (once (p ++ [m]) q (split.trans (List.append_cons p m q))).2
    have one : 0 < (sessionOuts p).countP Output.isModemSetup :=
      List.countP_pos_iff.2 ⟨_, before, rfl⟩
    rw [sessionOuts_concat, if_pos (.inl hs), again, List.countP_append] at two
    simp only [List.countP_singleton, Output.isModemSetup, if_true] at two
    omega
  · intro calm p q split
    have count : SetupCount p (final (initCtrl sipPeer uartFd) p) :=
      callTrace_history SetupCount ⟨by simp [sessionOuts], by simp [sessionOuts],
        by simp [sessionOuts]⟩ (fun tr m hm h hc taken => h.concat hc taken (calm m hm)) split
    exact ⟨count.sip, count.modem⟩

/-- The SIP leg reported as confirmed twice: `ATD` twice. -/
theorem not_setupOnce_redial :
    ¬ SetupOnce (callTrace sampleLocaltime samplePeer 3
      [sampleCalling, .bare .sipIncoming, .bare .sipConfirmed, .bare .sipConfirmed]) :=
  fun h => absurd (h _ [] (List.append_nil _).symm).2 (by decide)

/-! ### The number dialled -/

/-- The payloads of the `EVT_MQTT_CALLING` events processed in `INIT` since the last reset. -/
def callings (tr : List CallMove) : List CStr :=
  tr.foldl (fun acc m =>
    if Ends m then []
    else if m.pre.state = .init ∧ m.input.evt.event = .mqttCalling then acc ++ [m.input.evt.val]
    else acc) []

theorem callings_concat (tr : List CallMove) (m : CallMove) :
    callings (tr ++ [m]) =
      if Ends m then []
      else if m.pre.state = .init ∧ m.input.evt.event = .mqttCalling then
        callings tr ++ [m.input.evt.val]
      else callings tr := by
  simp [callings]

/-- While a number is stored, it is the last one offered. -/
def StoredIsLast (tr : List CallMove) (c : SiproxyCtrl) : Prop :=
  c.mqttState = .incoming →
    ∃ num, (callings tr).getLast? = some num ∧ c.simNum.str? = some num

theorem Transition.keeps_number {c c' : SiproxyCtrl} {inp : Input} {outs : List Output}
    (h : Transition localtime c inp c' outs) :
    (c.Active ∧ c'.state = .init ∧ c'.mqttState = .init) ∨
      (c.state = .init ∧ inp.evt.event = .mqttCalling ∧ c'.state = .init ∧
        (CharArray.zero 255).strncpy inp.evt.val inp.evt.val.strlen = some c'.simNum) ∨
      (¬ (c.Active ∧ c'.state = .init) ∧ ¬ (c.state = .init ∧ inp.evt.event = .mqttCalling) ∧
        c'.mqttState = c.mqttState ∧ c'.simNum = c.simNum) := by
  have calm : ¬ (c.Active ∧ c.state = .init) := fun h => not_active_of_init h.2 h.1
  cases h with
  | modemEnd he ha | sipEnd he ha => exact .inl ⟨ha, rfl, rfl⟩
  | store he hs simNum hnum => exact .inr (.inl ⟨hs, he, hs, hnum⟩)
  | smsIn he | smsOut he => exact .inr (.inr ⟨calm, by simp [he], rfl, rfl⟩)
  | ring he | invite he | colp he | answer he =>
    exact .inr (.inr ⟨by simp, by simp [he], rfl, rfl⟩)
  | dial he hs => exact .inr (.inr ⟨by simp [hs], by simp [he], rfl, rfl⟩)
  | idle hi => exact .inr (.inr ⟨calm, fun h => hi.2.1 h.1 h.2, rfl, rfl⟩)

theorem StoredIsLast.concat {tr : List CallMove} {m : CallMove} (h : StoredIsLast tr m.pre)
    (taken : Transition localtime m.pre m.input m.post m.outs)
    (short : m.input.evt.event = .mqttCalling → m.input.evt.val.strlen < 255) :
    StoredIsLast (tr ++ [m]) m.post := by
  unfold StoredIsLast at h ⊢
  rw [callings_concat]
  rcases taken.keeps_number with ⟨ha, hs, hm⟩ | ⟨hs, he, hs', hnum⟩ | ⟨hend, hcall, hm, hnum⟩
  · simp [hm]
  · have hend : ¬ Ends m := fun hend => not_active_of_init hs hend.1
    obtain ⟨-, hb⟩ := CharArray.strncpy_eq_some hnum
    rw [if_neg hend, if_pos ⟨hs, he⟩]
    exact fun _ => ⟨m.input.evt.val, by simp, CharArray.str?_of_zero (short he) hb⟩
  · rw [if_neg (show ¬ Ends m from hend), if_neg hcall, hm, hnum]
    exact h

/-- The offered numbers fit `sim_num` with their terminator. -/
def ShortOffers (inps : List Input) : Prop :=
  ∀ inp ∈ inps, inp.evt.event = .mqttCalling → inp.evt.val.strlen < 255

instance (inps : List Input) : Decidable (ShortOffers inps) :=
  inferInstanceAs (Decidable (∀ inp ∈ inps, inp.evt.event = .mqttCalling → _))

theorem callings_of_dial {sipPeer : CStr} {uartFd : ℤ} {inps : List Input}
    (short : ShortOffers inps) {p q : List CallMove} {m : CallMove}
    (split : callTrace localtime sipPeer uartFd inps = p ++ m :: q) {uart : ℤ} {num : CStr}
    (hmem : .modemMakeCall uart num ∈ m.outs) : (callings p).getLast? = some num := by
  have stored : StoredIsLast p (final (initCtrl sipPeer uartFd) p) :=
    callTrace_history StoredIsLast (by simp [StoredIsLast, initCtrl])
      (fun tr m hm h _ taken => h.concat taken (short _ (trace_input_mem hm))) split
  rw [← (trace_split split).1] at stored
  have hm : m ∈ callTrace localtime sipPeer uartFd inps := by simp [split]
  obtain ⟨hc, -, -, taken⟩ := callTrace_shape hm
  rcases m with ⟨c, inp, outs, c'⟩
  dsimp only at *
  cases taken with
  | dial he hs hd num' hnum =>
    have hmqtt : c.mqttState = .incoming := by
      cases hc with
      | dialling hs hd hmqtt hlegs => exact hmqtt
      | _ => simp_all
    obtain ⟨last, hlast, hstr⟩ := stored hmqtt
    rw [hnum, Option.some.injEq] at hstr
    simp only [List.mem_singleton, Output.modemMakeCall.injEq] at hmem
    rw [hlast, hmem.2, hstr]
  | modemEnd | sipEnd =>
    simp only [endFromModem, endFromSip] at hmem
    split_ifs at hmem <;> simp at hmem
  | _ => simp at hmem

theorem clipPhone_eq_error {val : CStr} {e : Halt} (h : clipPhone val = .error e) :
    e = .clipUnquoted ∨ e = .phoneOverflow := by
  unfold clipPhone at h
  split at h
  · cases h
    exact .inl rfl
  · split at h
    · cases h
      exact .inl rfl
    · split_ifs at h
      cases h
      exact .inr rfl

/-- In every run whose offered numbers are shorter than `sim_num`, the number dialled is the last
one offered in `INIT` since the last reset; two runs with the same offers since the last reset dial
the same number, whatever was offered before it or in a session; and neither storing nor reading
the number leaves the field. -/
theorem dialled_number (localtime : ℕ → Tm) (sipPeer : CStr) (uartFd : ℤ) (inps : List Input)
    (short : ShortOffers inps) :
    (∀ p m q, callTrace localtime sipPeer uartFd inps = p ++ m :: q →
      ∀ uart num, .modemMakeCall uart num ∈ m.outs → (callings p).getLast? = some num) ∧
    (∀ inps', ShortOffers inps' → ∀ p m q p' m' q',
      callTrace localtime sipPeer uartFd inps = p ++ m :: q →
      callTrace localtime sipPeer uartFd inps' = p' ++ m' :: q' → callings p = callings p' →
      ∀ uart num uart' num', .modemMakeCall uart num ∈ m.outs →
        .modemMakeCall uart' num' ∈ m'.outs → num = num') ∧
    ∀ e, halt? (step localtime) (initCtrl sipPeer uartFd) inps = some e →
      e ≠ .simNumOverflow ∧ e ≠ .simNumUnterminated := by
  refine ⟨fun p m q split uart num => callings_of_dial short split, ?_, ?_⟩
  · intro inps' short' p m q p' m' q' split split' same uart num uart' num' hmem hmem'
    have last := callings_of_dial short split hmem
    have last' := callings_of_dial short' split' hmem'
    rw [same, last', Option.some.injEq] at last
    exact last.symm
  · intro e h
    obtain ⟨c, inp, hinp, hc, herr⟩ := halt_cause SiproxyCtrl.Terminated
      (terminated_initCtrl sipPeer uartFd)
      (fun c inp hinp c' outs hc h => (step_transition h).terminated (short inp hinp) hc) h
    rcases step_error herr with ⟨-, rfl⟩ | ⟨-, hclip⟩ | ⟨he, hlen, -⟩ | ⟨hnone, -⟩
    · simp
    · rcases clipPhone_eq_error hclip with rfl | rfl <;> simp
    · have := short inp hinp he
      omega
    · exact absurd hnone hc.str?

/-- The peer changes its mind: a call to `10086`. -/
def sampleRecalling : Input := ⟨⟨.mqttCalling, .lit "10086" (by decide), by decide⟩, 0, 0⟩

/-- Two offers before a call from the SIP peer and one in it: the second one is dialled. -/
theorem dialled_number_sample :
    (callings ((callTrace sampleLocaltime samplePeer 3 [sampleCalling, sampleRecalling,
      .bare .sipIncoming, sampleCalling, .bare .sipConfirmed]).take 4)).getLast? =
      some sampleRecalling.evt.val :=
  (dialled_number sampleLocaltime samplePeer 3 [sampleCalling, sampleRecalling,
    .bare .sipIncoming, sampleCalling, .bare .sipConfirmed] (by decide)).1 _ _ []
    (List.take_append_getLast _ (by decide)).symm 3 sampleRecalling.evt.val (by decide)

end Siproxy
