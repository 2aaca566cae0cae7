import Siproxy.Shape

/-!
# Single dispatch

`state` has no `break`: it compares every row of `state_tbl` with the state that the rows before it
have left.  `dispatch` serves the two SMS events, and calls the handler of the state held on entry
for every other event.  `single_dispatch`: each step, and so each run, is the same for both.
-/

namespace Siproxy

open CString Machine

/-- One event, with one handler at most. -/
def dispatch (localtime : ℕ → Tm) (c : SiproxyCtrl) (inp : Input) : Result :=
  match inp.evt.event with
  | .modemSms =>
    (mqttPub inp.sendRc (smsTopic (localtime inp.tvSec)) inp.evt.val true).map fun pub => (c, [pub])
  | .mqttSms => .ok (c, [.modemSendSms c.uartFd inp.evt.val (tpduLen inp.evt.val)])
  | _ => handlerOf c.state inp c

theorem dispatch_of_not_sms {inp : Input} (hsms : inp.evt.event.isSms = false)
    (localtime : ℕ → Tm) (c : SiproxyCtrl) :
    dispatch localtime c inp = handlerOf c.state inp c := by
  unfold dispatch
  split
  next h => simp [Event.isSms, h] at hsms
  next h => simp [Event.isSms, h] at hsms
  next => rfl

theorem step_eq_dispatch (localtime : ℕ → Tm) : step localtime = dispatch localtime := by
  funext c inp
  by_cases h1 : inp.evt.event = .modemSms
  · rw [step, state_modemSms h1, dispatch]
    simp only [h1]
    cases mqttPub inp.sendRc (smsTopic (localtime inp.tvSec)) inp.evt.val true <;> rfl
  by_cases h2 : inp.evt.event = .mqttSms
  · rw [step, state_mqttSms h2, dispatch]
    simp only [h2]
    rfl
  · have hsms : inp.evt.event.isSms = false := by simp [Event.isSms, h1, h2]
    rw [step_eq_handlerOf hsms, dispatch_of_not_sms hsms]

/-- For every control block: on an event that is no SMS, `state` does what the handler of the state
held on entry does; on an SMS it calls no handler and leaves the control block as it is; and all
runs of `state` are those of the single dispatch, step by step. -/
theorem single_dispatch (localtime : ℕ → Tm) :
    (∀ c inp, inp.evt.event.isSms = false → step localtime c inp = handlerOf c.state inp c) ∧
    (∀ c inp o, inp.evt.event.isSms = true → state localtime c inp = .ok o →
      o.ctrl = c ∧ o.ran = []) ∧
    ∀ c inps, run (step localtime) c inps = run (dispatch localtime) c inps ∧
      trace (step localtime) c inps = trace (dispatch localtime) c inps ∧
      halt? (step localtime) c inps = halt? (dispatch localtime) c inps := by
  refine ⟨fun c inp hsms => step_eq_handlerOf hsms c, ?_, ?_⟩
  · intro c inp o hsms h
    have sms : inp.evt.event = .modemSms ∨ inp.evt.event = .mqttSms := by
      simpa [Event.isSms] using hsms
    rcases sms with h1 | h2
    · rw [state_modemSms h1] at h
      obtain ⟨pub, -, rfl⟩ := map_eq_ok.1 h
      exact ⟨rfl, rfl⟩
    · rw [state_mqttSms h2] at h
      cases h
      exact ⟨rfl, rfl⟩
  · intro c inps
    rw [step_eq_dispatch]
    exact ⟨rfl, rfl, rfl⟩

/-- The modem has an SMS while no call is active: it is published, which the handler of `INIT` does
not do. -/
theorem not_single_dispatch_sms :
    step sampleLocaltime sampleCtrl (.bare .modemSms) ≠
      handlerOf sampleCtrl.state (.bare .modemSms) sampleCtrl := by
  rw [step_eq_dispatch]
  intro h
  have outs := congrArg Prod.snd (Except.ok.inj h)
  cases outs

end Siproxy
