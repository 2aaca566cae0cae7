import Siproxy.Control

/-!
# What one event can do

`Transition` lists everything that a step can do, and the later files argue by cases on that list
only.

`state` scans every row of `state_tbl` and compares each with the state that the rows before it
have left, so a handler may be followed by a second one for the same event.  `state_eq_handlerOf`
shows that the second one never does anything: a call of `state` amounts to the handler of the
state held on entry.  With it, every step is one of the list (`step_transition`).
-/

namespace Siproxy

open CString Machine

variable {localtime : ℕ → Tm}

/-- The handler that `state_tbl` has for a state. -/
def handlerOf : State → Input → SiproxyCtrl → Result
  | .init => stateInit
  | .incoming => stateIncoming
  | .calling => stateCalling
  | .early => stateEarly
  | .connecting => stateConnecting
  | .confirmed => stateConfirmed
  | .disconnctd => stateDisconnctd
  | .terminated => stateTerminated
  | .unknow => stateUnknow

/-- The handlers invoked by a call of `state` that moves from one state to another. -/
def ranOf (before after : State) : List State :=
  before :: if after = before ∨ after = .init then [] else [after]

/-- One of the two events that `state` serves before it looks at the table. -/
def Event.isSms (e : Event) : Bool := e == .modemSms || e == .mqttSms

/-! ### The list of transitions -/

/-- `INCOMING` and `CONFIRMED`: a session is active. -/
def SiproxyCtrl.Active (c : SiproxyCtrl) : Prop := c.state = .incoming ∨ c.state = .confirmed

instance (c : SiproxyCtrl) : Decidable c.Active :=
  inferInstanceAs (Decidable (c.state = .incoming ∨ c.state = .confirmed))

/-- The event has no effect on the control block and asks for nothing. -/
def Idle (c : SiproxyCtrl) (e : Event) : Prop :=
  e.isSms = false ∧ (c.state = .init → e ≠ .mqttCalling) ∧
    (c.state = .init → c.initDir = .none → e ≠ .modemClip) ∧
    (c.state = .init → c.initDir = .none → c.mqttState = .incoming → e ≠ .sipIncoming) ∧
    (c.state = .incoming → c.initDir = .fromSip → e ≠ .modemColp) ∧
    (c.state = .incoming → c.initDir ≠ .none → e ≠ .sipConfirmed) ∧
    (c.Active → e.isModemEnd = false) ∧ (c.Active → e ≠ .sipDisconnctd)

/-- Everything a step can do: the new control block and the outputs, with the guards that hold. -/
inductive Transition (localtime : ℕ → Tm) (c : SiproxyCtrl) (inp : Input) :
    SiproxyCtrl → List Output → Prop
  | smsIn (he : inp.evt.event = .modemSms) (hrc : inp.sendRc = 0) :
      Transition localtime c inp c
        [.mqttPub (smsTopic (localtime inp.tvSec)) inp.evt.val true]
  | smsOut (he : inp.evt.event = .mqttSms) :
      Transition localtime c inp c
        [.modemSendSms c.uartFd inp.evt.val (tpduLen inp.evt.val)]
  | store (he : inp.evt.event = .mqttCalling) (hs : c.state = .init) (simNum : CharArray 255)
      (hnum : (CharArray.zero 255).strncpy inp.evt.val inp.evt.val.strlen = some simNum) :
      Transition localtime c inp { c with simNum := simNum, mqttState := .incoming } []
  | ring (he : inp.evt.event = .modemClip) (hs : c.state = .init) (hd : c.initDir = .none)
      (phone : CStr) (hphone : clipPhone inp.evt.val = .ok phone) (hrc : inp.sendRc = 0) :
      Transition localtime c inp
        { c with
          initDir := .fromModem
          modemState := .incoming
          sipState := .calling
          state := .incoming }
        [.mqttPub topicAliceCalled phone false, .sipMakeCall c.sipPeer]
  | invite (he : inp.evt.event = .sipIncoming) (hs : c.state = .init) (hd : c.initDir = .none)
      (hm : c.mqttState = .incoming) :
      Transition localtime c inp
        { c with initDir := .fromSip, sipState := .incoming, state := .incoming } [.sipAnswerCall]
  | colp (he : inp.evt.event = .modemColp) (hs : c.state = .incoming) (hd : c.initDir = .fromSip)
      (hrc : inp.sendRc = 0) :
      Transition localtime c inp { c with modemState := .confirmed, state := .confirmed }
        [.mqttPub topicAliceModem modemCallOk false]
  | dial (he : inp.evt.event = .sipConfirmed) (hs : c.state = .incoming)
      (hd : c.initDir = .fromSip) (num : CStr) (hnum : c.simNum.str? = some num) :
      Transition localtime c inp { c with sipState := .confirmed, modemState := .calling }
        [.modemMakeCall c.uartFd num]
  | answer (he : inp.evt.event = .sipConfirmed) (hs : c.state = .incoming)
      (hd : c.initDir = .fromModem) :
      Transition localtime c inp
        { c with sipState := .confirmed, modemState := .confirmed, state := .confirmed }
        [.modemAnswerCall c.uartFd]
  | modemEnd (he : inp.evt.event.isModemEnd = true) (ha : c.Active) :
      Transition localtime c inp (endFromModem c).1 (endFromModem c).2
  | sipEnd (he : inp.evt.event = .sipDisconnctd) (ha : c.Active) :
      Transition localtime c inp (endFromSip c).1 (endFromSip c).2
  | idle (hi : Idle c inp.evt.event) : Transition localtime c inp c []

theorem mqttPub_eq_ok {rc : ℤ} {topic payload : CStr} {retained : Bool} {o : Output} :
    mqttPub rc topic payload retained = .ok o ↔ rc = 0 ∧ o = .mqttPub topic payload retained := by
  unfold mqttPub
  split_ifs with h
  · simp [h, eq_comm]
  · simp [h]

theorem stateInit_transition {inp : Input} {c c' : SiproxyCtrl} {outs : List Output}
    (hsms : inp.evt.event.isSms = false) (hs : c.state = .init)
    (h : stateInit inp c = .ok (c', outs)) : Transition localtime c inp c' outs := by
  have calm : ¬ c.Active := by simp [SiproxyCtrl.Active, hs]
  unfold stateInit at h
  split at h
  · next he =>
    split at h
    · cases h
    · next simNum hnum =>
      cases h
      exact .store he hs simNum hnum
  · next he =>
    split_ifs at h with hd
    · obtain ⟨phone, hphone, h⟩ := bind_eq_ok.1 h
      obtain ⟨pub, hpub, h⟩ := bind_eq_ok.1 h
      obtain ⟨hrc, rfl⟩ := mqttPub_eq_ok.1 hpub
      cases h
      exact .ring he hs hd phone hphone hrc
    · cases h
      exact .idle (by simp [Idle, he, hd, calm, Event.isSms])
  · next he =>
    split_ifs at h with hd
    · cases h
      exact .invite he hs hd.1 hd.2
    · cases h
      exact .idle (by simpa [Idle, he, hs, calm, Event.isSms] using hd)
  · cases h
    exact .idle (by simp_all [Idle])

theorem stateIncoming_transition {inp : Input} {c c' : SiproxyCtrl} {outs : List Output}
    (hsms : inp.evt.event.isSms = false) (hs : c.state = .incoming)
    (h : stateIncoming inp c = .ok (c', outs)) : Transition localtime c inp c' outs := by
  unfold stateIncoming at h
  split at h
  · next he =>
    split_ifs at h with hd
    · obtain ⟨pub, hpub, h⟩ := bind_eq_ok.1 h
      obtain ⟨hrc, rfl⟩ := mqttPub_eq_ok.1 hpub
      cases h
      exact .colp he hs hd hrc
    · cases h
      exact .idle (by simp [Idle, he, hs, hd, Event.isSms, Event.isModemEnd])
  · next he =>
    cases h
    exact .modemEnd (by simp [he, Event.isModemEnd]) (.inl hs)
  · next he =>
    cases h
    exact .modemEnd (by simp [he, Event.isModemEnd]) (.inl hs)
  · next he =>
    cases h
    exact .modemEnd (by simp [he, Event.isModemEnd]) (.inl hs)
  · next he =>
    unfold sipConfirmed at h
    split at h
    · next hd =>
      split at h
      · cases h
      · next num hnum =>
        cases h
        exact .dial he hs hd num hnum
    · next hd =>
      cases h
      exact .answer he hs hd
    · next hd =>
      cases h
      exact .idle (by simp [Idle, he, hs, hd, Event.isSms, Event.isModemEnd])
  · next he =>
    cases h
    exact .sipEnd he (.inl hs)
  · cases h
    refine .idle ⟨hsms, ?_⟩
    cases he : inp.evt.event <;> simp_all [Event.isModemEnd]

theorem stateConfirmed_transition {inp : Input} {c c' : SiproxyCtrl} {outs : List Output}
    (hsms : inp.evt.event.isSms = false) (hs : c.state = .confirmed)
    (h : stateConfirmed inp c = .ok (c', outs)) : Transition localtime c inp c' outs := by
  unfold stateConfirmed at h
  split at h
  · next he =>
    cases h
    exact .modemEnd (by simp [he, Event.isModemEnd]) (.inr hs)
  · next he =>
    cases h
    exact .modemEnd (by simp [he, Event.isModemEnd]) (.inr hs)
  · next he =>
    cases h
    exact .modemEnd (by simp [he, Event.isModemEnd]) (.inr hs)
  · next he =>
    cases h
    exact .sipEnd he (.inr hs)
  · cases h
    refine .idle ⟨hsms, ?_⟩
    cases he : inp.evt.event <;> simp_all [Event.isModemEnd]

/-- A transition keeps the state, resets it, or moves on from `INIT` or from `INCOMING` on one of
two events. -/
theorem Transition.state_eq {c c' : SiproxyCtrl} {inp : Input} {outs : List Output}
    (h : Transition localtime c inp c' outs) :
    c'.state = c.state ∨ c'.state = .init ∨
      (c.state = .init ∧ c'.state = .incoming ∧
        (inp.evt.event = .modemClip ∨ inp.evt.event = .sipIncoming)) ∨
      (c.state = .incoming ∧ c'.state = .confirmed ∧
        (inp.evt.event = .modemColp ∨ inp.evt.event = .sipConfirmed)) := by
  cases h with
  | smsIn | smsOut | store | dial | idle => exact .inl rfl
  | modemEnd | sipEnd => exact .inr (.inl rfl)
  | ring he hs => exact .inr (.inr (.inl ⟨hs, rfl, .inl he⟩))
  | invite he hs => exact .inr (.inr (.inl ⟨hs, rfl, .inr he⟩))
  | colp he hs => exact .inr (.inr (.inr ⟨hs, rfl, .inl he⟩))
  | answer he hs => exact .inr (.inr (.inr ⟨hs, rfl, .inr he⟩))

/-! ### Single dispatch -/

theorem scanTbl_cons {inp : Input} (hsms : inp.evt.event.isSms = false) (st : State)
    (func : Input → SiproxyCtrl → Result) (rows : List (State × (Input → SiproxyCtrl → Result)))
    (c : SiproxyCtrl) :
    scanTbl localtime inp ((st, func) :: rows) c =
      if c.state = st then do
        let (c', outs) ← func inp c
        let rest ← scanTbl localtime inp rows c'
        .ok ⟨rest.ctrl, outs ++ rest.outs, st :: rest.ran⟩
      else scanTbl localtime inp rows c := by
  rw [scanTbl]
  split
  · next h => simp [Event.isSms, h] at hsms
  · next h => simp [Event.isSms, h] at hsms
  · rfl

theorem scanTbl_append {inp : Input} (hsms : inp.evt.event.isSms = false)
    {pre : List (State × (Input → SiproxyCtrl → Result))} {c : SiproxyCtrl}
    (other : ∀ r ∈ pre, c.state ≠ r.1) (rows : List (State × (Input → SiproxyCtrl → Result))) :
    scanTbl localtime inp (pre ++ rows) c = scanTbl localtime inp rows c := by
  induction pre with
  | nil => rfl
  | cons r pre ih =>
    rw [List.cons_append, scanTbl_cons hsms, if_neg (other r List.mem_cons_self)]
    exact ih fun r hr => other r (List.mem_cons_of_mem _ hr)

theorem scanTbl_skip {inp : Input} (hsms : inp.evt.event.isSms = false)
    {rows : List (State × (Input → SiproxyCtrl → Result))} {c : SiproxyCtrl}
    (other : ∀ r ∈ rows, c.state ≠ r.1) : scanTbl localtime inp rows c = .ok ⟨c, [], []⟩ := by
  have h : scanTbl localtime inp (rows ++ []) c = scanTbl localtime inp [] c :=
    scanTbl_append hsms other []
  rwa [List.append_nil] at h

theorem scanTbl_hit {inp : Input} (hsms : inp.evt.event.isSms = false) {st : State}
    {func : Input → SiproxyCtrl → Result} (rows : List (State × (Input → SiproxyCtrl → Result)))
    {c c' : SiproxyCtrl} {outs : List Output} (hst : c.state = st)
    (hfunc : func inp c = .ok (c', outs)) :
    scanTbl localtime inp ((st, func) :: rows) c =
      (scanTbl localtime inp rows c').map fun o => ⟨o.ctrl, outs ++ o.outs, st :: o.ran⟩ := by
  rw [scanTbl_cons hsms, if_pos hst, hfunc]
  simp only [bind, Except.bind, Except.map]

theorem scanTbl_halt {inp : Input} (hsms : inp.evt.event.isSms = false) {st : State}
    {func : Input → SiproxyCtrl → Result} (rows : List (State × (Input → SiproxyCtrl → Result)))
    {c : SiproxyCtrl} {e : Halt} (hst : c.state = st) (hfunc : func inp c = .error e) :
    scanTbl localtime inp ((st, func) :: rows) c = .error e := by
  rw [scanTbl_cons hsms, if_pos hst, hfunc]
  rfl

/-- A handler to which the rows behind its own add nothing. -/
theorem state_dispatch {inp : Input} (hsms : inp.evt.event.isSms = false) {st : State}
    {func : Input → SiproxyCtrl → Result} (pre post : List (State × (Input → SiproxyCtrl → Result)))
    (split : stateTbl = pre ++ (st, func) :: post) {c : SiproxyCtrl} (hst : c.state = st)
    (other : ∀ r ∈ pre, st ≠ r.1)
    (after : ∀ c' outs, func inp c = .ok (c', outs) →
      scanTbl localtime inp post c' = .ok ⟨c', [], (ranOf st c'.state).tail⟩) :
    state localtime c inp = (func inp c).map fun r => ⟨r.1, r.2, ranOf st r.1.state⟩ := by
  subst hst
  rw [state, split, scanTbl_append hsms other]
  rcases hh : func inp c with e | ⟨c', outs⟩
  · exact scanTbl_halt hsms post rfl hh
  · rw [scanTbl_hit hsms post rfl hh, after c' outs hh]
    simp [Except.map, ranOf]

/-- In a state whose handler ignores every event nothing happens. -/
theorem state_ignored {inp : Input} (hsms : inp.evt.event.isSms = false) {st : State}
    (pre post : List (State × (Input → SiproxyCtrl → Result)))
    (split : stateTbl = pre ++ (st, stateIgnore) :: post) {c : SiproxyCtrl} (hst : c.state = st)
    (other : (∀ r ∈ pre, st ≠ r.1) ∧ ∀ r ∈ post, st ≠ r.1) :
    state localtime c inp =
      (stateIgnore inp c).map fun r => ⟨r.1, r.2, ranOf st r.1.state⟩ := by
  apply state_dispatch hsms pre post split hst other.1
  intro c' outs h
  cases h
  rw [scanTbl_skip hsms (hst ▸ other.2)]
  simp [ranOf, hst]

theorem scanTbl_second {inp : Input} (hsms : inp.evt.event.isSms = false) {st : State}
    {func : Input → SiproxyCtrl → Result} (pre post : List (State × (Input → SiproxyCtrl → Result)))
    {rows : List (State × (Input → SiproxyCtrl → Result))}
    (split : rows = pre ++ (st, func) :: post) {c : SiproxyCtrl} (hst : c.state = st)
    (other : (∀ r ∈ pre, st ≠ r.1) ∧ ∀ r ∈ post, st ≠ r.1) (idle : func inp c = .ok (c, [])) :
    scanTbl localtime inp rows c = .ok ⟨c, [], [st]⟩ := by
  subst hst
  rw [split, scanTbl_append hsms other.1, scanTbl_hit hsms post rfl idle,
    scanTbl_skip hsms other.2]
  rfl

/-- A call of `state` on an event that is not an SMS is one call of the handler of the state held
on entry. -/
theorem state_eq_handlerOf {inp : Input} (hsms : inp.evt.event.isSms = false) (c : SiproxyCtrl) :
    state localtime c inp =
      (handlerOf c.state inp c).map fun r => ⟨r.1, r.2, ranOf c.state r.1.state⟩ := by
  cases hc : c.state with
  | init =>
    apply state_dispatch hsms [] (stateTbl.drop 1) rfl hc (by simp)
    intro c' outs h
    have taken : Transition localtime c inp c' outs := stateInit_transition hsms hc h
    rcases taken.state_eq with hs | hs | ⟨-, hs, he⟩ | ⟨hi, -⟩
    · rw [scanTbl_skip hsms (by simp [stateTbl, hs, hc])]
      simp [ranOf, hs, hc]
    · rw [scanTbl_skip hsms (by simp [stateTbl, hs])]
      simp [ranOf, hs]
    · have idle : stateIncoming inp c' = .ok (c', []) := by
        rcases he with he | he <;> simp [stateIncoming, he]
      have ran : (ranOf .init c'.state).tail = [.incoming] := by simp [ranOf, hs]
      rw [ran]
      exact scanTbl_second hsms [] (stateTbl.drop 2) rfl hs (by decide) idle
    · rw [hc] at hi
      cases hi
  | incoming =>
    refine state_dispatch hsms (stateTbl.take 1) (stateTbl.drop 2) rfl hc (by decide)
      fun c' outs h => ?_
    have taken : Transition localtime c inp c' outs := stateIncoming_transition hsms hc h
    rcases taken.state_eq with hs | hs | ⟨hi, -⟩ | ⟨-, hs, he⟩
    · rw [scanTbl_skip hsms (by simp [stateTbl, hs, hc])]
      simp [ranOf, hs, hc]
    · rw [scanTbl_skip hsms (by simp [stateTbl, hs])]
      simp [ranOf, hs]
    · rw [hc] at hi
      cases hi
    · have idle : stateConfirmed inp c' = .ok (c', []) := by
        rcases he with he | he <;> simp [stateConfirmed, he]
      have ran : (ranOf .incoming c'.state).tail = [.confirmed] := by simp [ranOf, hs]
      rw [ran]
      exact scanTbl_second hsms ((stateTbl.drop 2).take 3) (stateTbl.drop 6) rfl hs (by decide) idle
  | confirmed =>
    refine state_dispatch hsms (stateTbl.take 5) (stateTbl.drop 6) rfl hc (by decide)
      fun c' outs h => ?_
    have taken : Transition localtime c inp c' outs := stateConfirmed_transition hsms hc h
    rcases taken.state_eq with hs | hs | ⟨hi, -⟩ | ⟨hi, -⟩
    · rw [scanTbl_skip hsms (by simp [stateTbl, hs, hc])]
      simp [ranOf, hs, hc]
    · rw [scanTbl_skip hsms (by simp [stateTbl, hs])]
      simp [ranOf, hs]
    · rw [hc] at hi
      cases hi
    · rw [hc] at hi
      cases hi
  | calling => exact state_ignored hsms (stateTbl.take 2) (stateTbl.drop 3) rfl hc (by decide)
  | early => exact state_ignored hsms (stateTbl.take 3) (stateTbl.drop 4) rfl hc (by decide)
  | connecting => exact state_ignored hsms (stateTbl.take 4) (stateTbl.drop 5) rfl hc (by decide)
  | disconnctd => exact state_ignored hsms (stateTbl.take 6) (stateTbl.drop 7) rfl hc (by decide)
  | terminated => exact state_ignored hsms (stateTbl.take 7) (stateTbl.drop 8) rfl hc (by decide)
  | unknow => exact state_ignored hsms (stateTbl.take 8) (stateTbl.drop 9) rfl hc (by decide)

theorem state_modemSms {inp : Input} (h : inp.evt.event = .modemSms) (c : SiproxyCtrl) :
    state localtime c inp =
      (mqttPub inp.sendRc (smsTopic (localtime inp.tvSec)) inp.evt.val true).map
        fun pub => ⟨c, [pub], []⟩ := by
  simp [state, stateTbl, scanTbl, h, bind, Except.bind, Except.map]

theorem state_mqttSms {inp : Input} (h : inp.evt.event = .mqttSms) (c : SiproxyCtrl) :
    state localtime c inp =
      .ok ⟨c, [.modemSendSms c.uartFd inp.evt.val (tpduLen inp.evt.val)], []⟩ := by
  simp [state, stateTbl, scanTbl, h]

theorem step_eq_handlerOf {inp : Input} (hsms : inp.evt.event.isSms = false) (c : SiproxyCtrl) :
    step localtime c inp = handlerOf c.state inp c := by
  rw [step, state_eq_handlerOf hsms]
  rcases handlerOf c.state inp c with e | r <;> rfl

/-- Every step is one of the listed transitions. -/
theorem step_transition {c c' : SiproxyCtrl} {inp : Input} {outs : List Output}
    (h : step localtime c inp = .ok (c', outs)) : Transition localtime c inp c' outs := by
  by_cases h1 : inp.evt.event = .modemSms
  · rw [step, state_modemSms h1] at h
    obtain ⟨o, ho, h⟩ := map_eq_ok.1 h
    obtain ⟨pub, hpub, rfl⟩ := map_eq_ok.1 ho
    obtain ⟨hrc, rfl⟩ := mqttPub_eq_ok.1 hpub
    cases h
    exact .smsIn h1 hrc
  by_cases h2 : inp.evt.event = .mqttSms
  · simp only [step, state_mqttSms h2, Except.map, Except.ok.injEq, Prod.mk.injEq] at h
    obtain ⟨rfl, rfl⟩ := h
    exact .smsOut h2
  have hsms : inp.evt.event.isSms = false := by simp [Event.isSms, h1, h2]
  rw [step_eq_handlerOf hsms] at h
  cases hc : c.state with
  | init =>
    rw [hc] at h
    exact stateInit_transition hsms hc h
  | incoming =>
    rw [hc] at h
    exact stateIncoming_transition hsms hc h
  | confirmed =>
    rw [hc] at h
    exact stateConfirmed_transition hsms hc h
  | _ =>
    rw [hc] at h
    cases h
    exact .idle (by simp [Idle, hsms, hc, SiproxyCtrl.Active])

end Siproxy
