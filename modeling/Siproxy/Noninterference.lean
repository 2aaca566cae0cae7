import Siproxy.Shape

/-!
# Events that do not take part in call control

Short messages are served in front of the state machine, and several informational events are
accepted by every handler without effect.  Leaving any of them out of a run changes neither the
control block nor what the run asks of the call (`thinned_run`), as long as the short messages left
out can be published: `mqtt_pub` ends the program otherwise.  What a run does with short messages
depends on the short messages alone.
-/

namespace Siproxy

open CString Machine

variable {localtime : ℕ → Tm}

/-- The events that call control does not need. -/
def Event.isBystander : Event → Bool
  | .modemSms | .mqttSms | .modemOk | .modemError | .mqttStatus | .sipCalling | .sipEarly
  | .sipConnecting => true
  | _ => false

/-- Outputs that belong to a call: publishes on a call topic, SIP commands, `ATD`, `ATA`, `ATH`. -/
def Output.isCall : Output → Bool
  | .mqttPub topic _ _ => topic = topicAliceCalled ∨ topic = topicAliceModem
  | .sipMakeCall _ | .sipAnswerCall | .sipHangupCall => true
  | .modemMakeCall _ _ | .modemAnswerCall _ | .modemHangupCall _ => true
  | .modemSendSms _ _ _ => false

/-- Outputs that belong to a short message: publishes below `TOPIC_SMS`, and `AT+CMGS`. -/
def Output.isSms : Output → Bool
  | .mqttPub topic _ _ => (text "/100001Alice/SMS/").isPrefixOf topic.bytes
  | .modemSendSms _ _ _ => true
  | _ => false

/-- What an event asks for as a short message. -/
def smsOuts (localtime : ℕ → Tm) (uartFd : ℤ) (inp : Input) : List Output :=
  match inp.evt.event with
  | .modemSms => [.mqttPub (smsTopic (localtime inp.tvSec)) inp.evt.val true]
  | .mqttSms => [.modemSendSms uartFd inp.evt.val (tpduLen inp.evt.val)]
  | _ => []

theorem smsTopic_bytes (tm : Tm) :
    (smsTopic tm).bytes = text "/100001Alice/SMS/" ++ (strftime tm).bytes := by
  have full : text "/100001Alice/SMS/" ++ (strftime tm).bytes =
      topicSms.bytes ++ text "/" ++ (strftime tm).bytes := rfl
  rw [full]
  exact List.take_of_length_le (by simp [topicSms, CStr.lit, text, strftime, twoDigits])

theorem smsTopic_isSms (tm : Tm) (payload : CStr) (retained : Bool) :
    (Output.mqttPub (smsTopic tm) payload retained).isSms = true := by
  simp [Output.isSms, smsTopic_bytes]

theorem smsTopic_not_isCall (tm : Tm) (payload : CStr) (retained : Bool) :
    (Output.mqttPub (smsTopic tm) payload retained).isCall = false := by
  have key : ∀ topic : CStr, topic.bytes.take 17 ≠ text "/100001Alice/SMS/" →
      smsTopic tm ≠ topic := by
    rintro topic hne rfl
    rw [smsTopic_bytes] at hne
    exact hne (List.take_left' rfl)
  simp [Output.isCall, key topicAliceCalled (by decide), key topicAliceModem (by decide)]

/-- The outputs of a step are those of a short message, or all belong to the call. -/
theorem Transition.outs_sorted {c c' : SiproxyCtrl} {inp : Input} {outs : List Output}
    (h : Transition localtime c inp c' outs) :
    outs.filter Output.isSms = smsOuts localtime c.uartFd inp ∧
      ∀ o ∈ outs, o.isSms = !o.isCall := by
  have calledSms : ∀ payload, (Output.mqttPub topicAliceCalled payload false).isSms = false :=
    fun _ => rfl
  have modemSms : ∀ payload, (Output.mqttPub topicAliceModem payload false).isSms = false :=
    fun _ => rfl
  cases h with
  | smsIn he hrc =>
    simp [smsOuts, he, smsTopic_isSms, smsTopic_not_isCall]
  | smsOut he => simp [smsOuts, he, Output.isSms, Output.isCall]
  | ring he => simp [smsOuts, he, calledSms, Output.isCall]; simp [Output.isSms]
  | colp he => simp [smsOuts, he, modemSms, Output.isCall]
  | store he | invite he | dial he | answer he => simp [smsOuts, he, Output.isSms, Output.isCall]
  | modemEnd he ha =>
    have none : smsOuts localtime c.uartFd inp = [] := by
      unfold smsOuts
      split <;> simp_all [Event.isModemEnd]
    rw [none]
    simp only [endFromModem]
    split_ifs <;> simp [Output.isSms, Output.isCall]
  | sipEnd he ha =>
    simp only [endFromSip, smsOuts, he]
    split_ifs <;> simp [Output.isSms, Output.isCall]
  | idle hi =>
    have none : smsOuts localtime c.uartFd inp = [] := by
      unfold smsOuts
      split <;> simp_all [Idle, Event.isSms]
    simp [none]

/-- A bystander changes nothing and asks nothing of the call. -/
theorem Transition.bystander {c c' : SiproxyCtrl} {inp : Input} {outs : List Output}
    (h : Transition localtime c inp c' outs) (hb : inp.evt.event.isBystander = true) :
    c' = c ∧ outs.filter Output.isCall = [] := by
  cases h with
  | smsIn he hrc => simp [smsTopic_not_isCall]
  | smsOut he => simp [Output.isCall]
  | idle => simp
  | modemEnd he ha => cases h : inp.evt.event <;> simp_all [Event.isModemEnd, Event.isBystander]
  | store he | ring he | invite he | colp he | dial he | answer he | sipEnd he =>
    simp [he, Event.isBystander] at hb

theorem handlerOf_bystander {inp : Input} (hb : inp.evt.event.isBystander = true)
    (c : SiproxyCtrl) :
    handlerOf c.state inp c = .ok (c, []) := by
  cases c.state with
  | init =>
    show stateInit inp c = _
    unfold stateInit
    split <;> simp_all [Event.isBystander]
  | incoming =>
    show stateIncoming inp c = _
    unfold stateIncoming
    split <;> simp_all [Event.isBystander]
  | confirmed =>
    show stateConfirmed inp c = _
    unfold stateConfirmed
    split <;> simp_all [Event.isBystander]
  | _ => rfl

/-- Unless it is a short message that cannot be published, a bystander never halts a run. -/
theorem step_bystander {inp : Input} (hb : inp.evt.event.isBystander = true)
    (published : inp.evt.event = .modemSms → inp.sendRc = 0) (c : SiproxyCtrl) :
    ∃ outs, step localtime c inp = .ok (c, outs) ∧ outs.filter Output.isCall = [] := by
  have goes : ∃ c' outs, step localtime c inp = .ok (c', outs) := by
    by_cases h1 : inp.evt.event = .modemSms
    · rw [step, state_modemSms h1, mqttPub, if_pos (published h1)]
      exact ⟨_, _, rfl⟩
    by_cases h2 : inp.evt.event = .mqttSms
    · rw [step, state_mqttSms h2]
      exact ⟨_, _, rfl⟩
    have hsms : inp.evt.event.isSms = false := by simp [Event.isSms, h1, h2]
    rw [step_eq_handlerOf hsms, handlerOf_bystander hb]
    exact ⟨_, _, rfl⟩
  obtain ⟨c', outs, hs⟩ := goes
  obtain ⟨rfl, quiet⟩ := (step_transition hs).bystander hb
  exact ⟨outs, hs, quiet⟩

/-! ### Runs -/

/-- What a run does, up to its halt if it halts. -/
def runOuts (localtime : ℕ → Tm) (c : SiproxyCtrl) (inps : List Input) : List Output :=
  (trace (step localtime) c inps).flatMap Move.outs

/-- The events that a run handles. -/
def handled (localtime : ℕ → Tm) (c : SiproxyCtrl) (inps : List Input) : List Input :=
  (trace (step localtime) c inps).map Move.input

/-- The short-message outputs of a run are a function of its short messages and the clock. -/
theorem runOuts_sorted (c : SiproxyCtrl) (inps : List Input) :
    (runOuts localtime c inps).filter Output.isSms =
        (handled localtime c inps).flatMap (smsOuts localtime c.uartFd) ∧
      ∀ o ∈ runOuts localtime c inps, o.isSms = !o.isCall := by
  unfold runOuts handled
  induction inps generalizing c with
  | nil => simp [trace]
  | cons inp inps ih =>
    rcases hs : step localtime c inp with e | ⟨c', o⟩
    · simp [trace_cons_halt hs]
    · have taken : Transition localtime c inp c' o := step_transition hs
      obtain ⟨rest, sorted⟩ := ih c'
      have fd : c'.uartFd = c.uartFd := by cases taken <;> rfl
      rw [fd] at rest
      simp only [trace_cons hs, List.flatMap_cons, List.map_cons, List.filter_append]
      refine ⟨by rw [taken.outs_sorted.1, rest], fun x hx => ?_⟩
      rcases List.mem_append.1 hx with hx | hx
      · exact taken.outs_sorted.2 x hx
      · exact sorted x hx

/-- Leaving any bystanders out of a run whose short messages among them can be published: the run
ends or halts as before and with the same control block, and asks the same of the call.  All other
outputs of any run are for short messages, and those are a function of the short messages handled
and the clock readings, in order; a run that does not halt handles all its events. -/
theorem thinned_run (localtime : ℕ → Tm) (c : SiproxyCtrl) (inps kept : List Input)
    (thin : Thins (fun inp : Input => inp.evt.event.isBystander = true ∧
      (inp.evt.event = .modemSms → inp.sendRc = 0)) inps kept) :
    halt? (step localtime) c kept = halt? (step localtime) c inps ∧
      final c (trace (step localtime) c kept) = final c (trace (step localtime) c inps) ∧
      (runOuts localtime c kept).filter Output.isCall =
        (runOuts localtime c inps).filter Output.isCall ∧
      ∀ is, (∀ o ∈ runOuts localtime c is, o.isSms = !o.isCall) ∧
        (runOuts localtime c is).filter Output.isSms =
          (handled localtime c is).flatMap (smsOuts localtime c.uartFd) ∧
        handled localtime c is <+: is ∧
        (halt? (step localtime) c is = none → handled localtime c is = is) := by
  obtain ⟨halts, ends, shows⟩ := trace_thins
    (fun c inp h => @step_bystander localtime inp h.1 h.2 c) thin c
  refine ⟨halts, ends, shows, fun is => ?_⟩
  obtain ⟨sms, sorted⟩ := @runOuts_sorted localtime c is
  obtain ⟨front, all⟩ := @trace_inputs _ _ _ _ (step localtime) c is
  exact ⟨sorted, sms, front, all⟩

/-- A short message and an `OK` in front of a call from the modem. -/
theorem thinned_run_sample :
    (runOuts sampleLocaltime sampleCtrl [sampleClip]).filter Output.isCall =
        (runOuts sampleLocaltime sampleCtrl
          [.bare .modemSms, .bare .modemOk, sampleClip]).filter Output.isCall ∧
      (runOuts sampleLocaltime sampleCtrl [sampleClip]).filter Output.isCall =
        [.mqttPub topicAliceCalled (.lit "13761124413" (by decide)) false,
          .sipMakeCall samplePeer] := by
  have thin : Thins (fun inp : Input => inp.evt.event.isBystander = true ∧
      (inp.evt.event = .modemSms → inp.sendRc = 0))
      [.bare .modemSms, .bare .modemOk, sampleClip] [sampleClip] :=
    .drop (by decide) (.drop (by decide) (.keep _ .nil))
  exact ⟨(thinned_run sampleLocaltime sampleCtrl _ _ thin).2.2.1, rfl⟩

/-- A short message that cannot be published. -/
def sampleUnpublished : Input := ⟨.bare .modemSms, 0, -1⟩

/-- A short message that cannot be published ends the program in front of the call. -/
theorem not_thinned_run_sample :
    Thins (fun inp : Input => inp.evt.event.isBystander = true) [sampleUnpublished, sampleClip]
        [sampleClip] ∧
      final sampleCtrl (trace (step sampleLocaltime) sampleCtrl [sampleUnpublished, sampleClip]) ≠
        final sampleCtrl (trace (step sampleLocaltime) sampleCtrl [sampleClip]) ∧
      (runOuts sampleLocaltime sampleCtrl [sampleUnpublished, sampleClip]).filter Output.isCall ≠
        (runOuts sampleLocaltime sampleCtrl [sampleClip]).filter Output.isCall := by
  refine ⟨.drop (by decide) (.keep _ .nil), ?_, ?_⟩
  · intro same
    have state : State.init = State.incoming := congrArg SiproxyCtrl.state same
    cases state
  · intro same
    have none : ([] : List Output) =
      [.mqttPub topicAliceCalled (.lit "13761124413" (by decide)) false,
        .sipMakeCall samplePeer] := same
    cases none

/-- Whether or not the short messages that are left out can be published: what the whole run asks of
the call is a first part of what is asked without them. -/
theorem thinned_front (localtime : ℕ → Tm) (c : SiproxyCtrl) (inps kept : List Input)
    (thin : Thins (fun inp : Input => inp.evt.event.isBystander = true) inps kept) :
    (runOuts localtime c inps).filter Output.isCall <+:
      (runOuts localtime c kept).filter Output.isCall := by
  have silent : ∀ (c : SiproxyCtrl) (inp : Input) (c' : SiproxyCtrl) (o : List Output),
      inp.evt.event.isBystander = true → step localtime c inp = .ok (c', o) →
      c' = c ∧ o.filter Output.isCall = [] :=
    fun c inp c' o hb hs => (step_transition hs).bystander hb
  exact trace_thins_front silent thin c

end Siproxy
