import Siproxy.Lib.LastWrite
import Siproxy.Noninterference
import Siproxy.Sessions

/-!
# Short messages at the broker

The text of an SMS is published as a retained message on a topic that is made of the local time, to
the second.  `sms_kept_iff`: all texts are still retained at the end of a run, each on a topic of
its own, exactly in the runs in which no two short messages are served in the same second.
-/

namespace Siproxy

open CString Machine LastWrite

variable {localtime : ℕ → Tm}

/-! ### Topics -/

theorem digit_inj {n m : ℕ} (h : digit n = digit m) : n % 10 = m % 10 := by
  have checked : ∀ a b : Fin 10, UInt8.ofNat (48 + a.val) = UInt8.ofNat (48 + b.val) → a = b := by
    decide
  have same := checked ⟨n % 10, Nat.mod_lt _ (by decide)⟩ ⟨m % 10, Nat.mod_lt _ (by decide)⟩ h
  exact congrArg Fin.val same

theorem twoDigits_inj {n m : ℕ} (h : twoDigits n = twoDigits m) : n % 100 = m % 100 := by
  simp only [twoDigits, List.cons.injEq, and_true] at h
  have tens := digit_inj h.1
  have units := digit_inj h.2
  omega

/-- Two local times that are printed alike are the same. -/
theorem strftime_injective : Function.Injective strftime := by
  intro tm tm' h
  have bytes : (strftime tm).bytes = (strftime tm').bytes := congrArg CStr.bytes h
  have len (n : ℕ) : (twoDigits n).length = 2 := rfl
  simp only [strftime, List.append_assoc] at bytes
  obtain ⟨century, bytes⟩ := List.append_inj bytes (by simp only [len])
  obtain ⟨year, bytes⟩ := List.append_inj bytes (by simp only [len])
  obtain ⟨mon, bytes⟩ := List.append_inj (List.append_cancel_left bytes) (by simp only [len])
  obtain ⟨mday, bytes⟩ := List.append_inj (List.append_cancel_left bytes) (by simp only [len])
  obtain ⟨hour, bytes⟩ := List.append_inj (List.append_cancel_left bytes) (by simp only [len])
  obtain ⟨min, bytes⟩ := List.append_inj (List.append_cancel_left bytes) (by simp only [len])
  have sec := List.append_cancel_left bytes
  replace century := twoDigits_inj century
  replace year := twoDigits_inj year
  replace mon := twoDigits_inj mon
  replace mday := twoDigits_inj mday
  replace hour := twoDigits_inj hour
  replace min := twoDigits_inj min
  replace sec := twoDigits_inj sec
  obtain ⟨y, mo, d, ho, mi, s⟩ := tm
  obtain ⟨y', mo', d', ho', mi', s'⟩ := tm'
  simp only [Tm.mk.injEq, Fin.ext_iff] at *
  omega

theorem smsTopic_injective : Function.Injective smsTopic := by
  intro tm tm' h
  have bytes := congrArg CStr.bytes h
  rw [smsTopic_bytes, smsTopic_bytes] at bytes
  exact strftime_injective (CStr.ext (List.append_cancel_left bytes))

/-! ### What is retained -/

/-- The topic and the text of a retained message. -/
def Output.retained? : Output → Option (CStr × CStr)
  | .mqttPub topic payload true => some (topic, payload)
  | _ => none

/-- The retained messages that a run publishes. -/
def published (tr : List CallMove) : List (CStr × CStr) :=
  (tr.flatMap Move.outs).filterMap Output.retained?

/-- The broker keeps the last retained message of each topic. -/
def broker (tr : List CallMove) : CStr → Option CStr := after (published tr)

/-- The event is an SMS that the modem has received. -/
def Served (m : CallMove) : Prop := m.input.evt.event = .modemSms

instance : DecidablePred Served := fun m =>
  inferInstanceAs (Decidable (m.input.evt.event = .modemSms))

/-- The short messages of a run: the local time at which each is served, and its text. -/
def served (localtime : ℕ → Tm) (tr : List CallMove) : List (Tm × CStr) :=
  (tr.filter fun m => Served m).map fun m => (localtime m.input.tvSec, m.input.evt.val)

/-- The text of each short message is still retained. -/
def AllRetained (tr : List CallMove) : Prop :=
  ∀ m ∈ tr, Served m → ∃ topic, broker tr topic = some m.input.evt.val

/-- No two short messages are published on the same topic. -/
def TopicsDiffer (tr : List CallMove) : Prop := ((published tr).map Prod.fst).Nodup

/-- What a transition publishes as a retained message. -/
theorem Transition.retained {c c' : SiproxyCtrl} {inp : Input} {outs : List Output}
    (h : Transition localtime c inp c' outs) :
    outs.filterMap Output.retained? =
      if inp.evt.event = .modemSms then [(smsTopic (localtime inp.tvSec), inp.evt.val)]
      else [] := by
  cases h with
  | smsIn he => simp [he, Output.retained?]
  | modemEnd he =>
    have hne : inp.evt.event ≠ .modemSms := by
      intro hsms
      simp [hsms, Event.isModemEnd] at he
    rw [if_neg hne, endFromModem]
    split_ifs <;> rfl
  | sipEnd he =>
    rw [if_neg (by simp [he]), endFromSip]
    split_ifs <;> rfl
  | idle hi =>
    have hne : inp.evt.event ≠ .modemSms := by
      intro hsms
      simp [Idle, hsms, Event.isSms] at hi
    rw [if_neg hne]
    rfl
  | _ he => simp [he, Output.retained?]

/-- A run publishes its short messages as retained messages, and nothing else. -/
theorem published_eq {sipPeer : CStr} {uartFd : ℤ} {inps : List Input} :
    published (callTrace localtime sipPeer uartFd inps) =
      (served localtime (callTrace localtime sipPeer uartFd inps)).map
        fun w => (smsTopic w.1, w.2) := by
  have steps : ∀ tr : List CallMove,
      (∀ m ∈ tr, Transition localtime m.pre m.input m.post m.outs) →
      published tr = (served localtime tr).map fun w => (smsTopic w.1, w.2) := by
    intro tr
    induction tr with
    | nil => exact fun _ => rfl
    | cons m tr ih =>
      intro taken
      rw [List.forall_mem_cons] at taken
      have rest := ih taken.2
      have first := taken.1.retained
      simp only [published, served] at rest ⊢
      rw [List.flatMap_cons, List.filterMap_append, first, rest]
      by_cases hm : m.input.evt.event = .modemSms
      · simp [hm, Served]
      · simp [hm, Served]
  exact steps _ fun m hm => (callTrace_shape hm).2.2.2

theorem topicsDiffer_iff {sipPeer : CStr} {uartFd : ℤ} {inps : List Input} :
    TopicsDiffer (callTrace localtime sipPeer uartFd inps) ↔
      ((served localtime (callTrace localtime sipPeer uartFd inps)).map Prod.fst).Nodup := by
  rw [TopicsDiffer, published_eq, List.map_map]
  have keys (ws : List (Tm × CStr)) :
      ws.map (Prod.fst ∘ fun w => (smsTopic w.1, w.2)) = (ws.map Prod.fst).map smsTopic := by
    rw [List.map_map]
    rfl
  rw [keys, List.nodup_map_iff smsTopic_injective]

theorem allRetained_iff {sipPeer : CStr} {uartFd : ℤ} {inps : List Input} :
    AllRetained (callTrace localtime sipPeer uartFd inps) ↔
      LastOfKey (served localtime (callTrace localtime sipPeer uartFd inps)) := by
  rw [← lastOfKey_map_iff smsTopic_injective, ← published_eq, ← allKept_iff]
  have texts (keep : CStr → Prop) :
      (∀ w ∈ published (callTrace localtime sipPeer uartFd inps), keep w.2) ↔
        ∀ m ∈ callTrace localtime sipPeer uartFd inps, Served m → keep m.input.evt.val := by
    rw [published_eq]
    simp only [served, List.map_map, List.forall_mem_map, List.mem_filter, decide_eq_true_eq,
      and_imp, Function.comp_apply]
  exact (texts fun v => ∃ topic, broker (callTrace localtime sipPeer uartFd inps) topic =
    some v).symm

/-- For every run: all texts are still retained at its end, on topics that differ, exactly if no
two short messages are served at the same local time; and all texts are retained exactly if each
of them is the last text that is served at the time of one of its messages. -/
theorem sms_kept_iff (localtime : ℕ → Tm) (sipPeer : CStr) (uartFd : ℤ) (inps : List Input) :
    (AllRetained (callTrace localtime sipPeer uartFd inps) ∧
        TopicsDiffer (callTrace localtime sipPeer uartFd inps) ↔
      ((served localtime (callTrace localtime sipPeer uartFd inps)).map Prod.fst).Nodup) ∧
    (AllRetained (callTrace localtime sipPeer uartFd inps) ↔
      LastOfKey (served localtime (callTrace localtime sipPeer uartFd inps))) := by
  refine ⟨⟨fun h => topicsDiffer_iff.1 h.2, fun h => ⟨?_, topicsDiffer_iff.2 h⟩⟩, allRetained_iff⟩
  exact allRetained_iff.2 (lastOfKey_of_nodup h)

def sampleFirst : CStr := .lit "0891683110808805F0" (by decide)

def sampleSecond : CStr := .lit "0891683108200205F0" (by decide)

def sampleTwoSms : List Input :=
  [⟨⟨.modemSms, sampleFirst, by decide⟩, 0, 0⟩, ⟨⟨.modemSms, sampleSecond, by decide⟩, 0, 0⟩]

/-- Two short messages in one second: the text of the first is gone. -/
theorem not_sms_kept_sample :
    ¬ AllRetained (callTrace sampleLocaltime samplePeer 3 sampleTwoSms) ∧
      ¬ TopicsDiffer (callTrace sampleLocaltime samplePeer 3 sampleTwoSms) := by
  rw [allRetained_iff, topicsDiffer_iff]
  have two : served sampleLocaltime (callTrace sampleLocaltime samplePeer 3 sampleTwoSms) =
      sampleTwoSms.map fun inp => (sampleLocaltime 0, inp.evt.val) := rfl
  rw [two]
  constructor
  · intro h
    obtain ⟨pre, k, post, split, new⟩ := h _ List.mem_cons_self
    rcases pre with _ | ⟨x, _ | ⟨y, pre⟩⟩
    · obtain ⟨hk, rfl⟩ := List.cons.inj split
      have again : k = sampleLocaltime 0 := congrArg Prod.fst hk.symm
      exact new (List.mem_singleton.2 again)
    · -- the second text is another one
      obtain ⟨hw, -⟩ := List.cons.inj (List.cons.inj split).2
      have texts : sampleSecond = sampleFirst := congrArg Prod.snd hw
      exact absurd texts (by decide)
    · exact absurd (congrArg List.length split) (by simp [sampleTwoSms])
  · intro h
    exact (List.nodup_cons.1 h).1 (List.mem_singleton.2 rfl)

end Siproxy
