import Mathlib.Data.Nat.Digits.Lemmas
import Siproxy.Shape
import Siproxy.SmsFetch
import Siproxy.Transitions
import Siproxy.Uart

/-!
# The length of a short message

`modem_send_sms` announces the number of octets of the TPDU with `AT+CMGS`, and `state` computes it
as `(strlen (evt->val) - 2)/2`: the octets of the text less the one that holds the length of the
SMSC address, as if that length were always zero.

`sms_length_iff`: the number announced for a message of the peer is right exactly if the SMSC part
is that one octet, or, where the text is not a PDU, if it has at least two characters.
-/

namespace Siproxy

open CString

/-! ### The number -/

theorem tpduLen_of_le {val : CStr} (h : 2 ≤ val.strlen) (small : val.strlen < evtValSize) :
    tpduLen val = ((val.strlen - 2) / 2 : ℕ) := by
  unfold evtValSize at small
  have minus : (BitVec.ofNat 64 val.strlen - 2).toNat = val.strlen - 2 := by bv_omega
  have half : ((BitVec.ofNat 64 val.strlen - 2) / 2).toNat = (val.strlen - 2) / 2 := by
    rw [BitVec.toNat_udiv, minus]
    rfl
  have narrow : (((BitVec.ofNat 64 val.strlen - 2) / 2).setWidth 32).toNat =
      (val.strlen - 2) / 2 := by
    rw [BitVec.toNat_setWidth, half]
    omega
  rw [tpduLen, BitVec.toInt_eq_toNat_of_lt (by omega), narrow]

/-- The difference wraps, and the half of it is narrowed to `-1`. -/
theorem tpduLen_of_lt {val : CStr} (h : val.strlen < 2) : tpduLen val = -1 := by
  have wraps : ∀ k < 2, (((BitVec.ofNat 64 k - 2) / 2).setWidth 32).toInt = -1 := by decide
  exact wraps _ h

/-- A text of octets in hexadecimal digits, the first of which is the length of the SMSC address. -/
def IsPdu (payload : List Byte) : Prop :=
  2 ≤ payload.length ∧ payload.length % 2 = 0 ∧ ∀ b ∈ payload, IsHex b

instance (payload : List Byte) : Decidable (IsPdu payload) :=
  inferInstanceAs (Decidable (_ ∧ _ ∧ _))

/-- The value of a hexadecimal digit. -/
def hexVal (b : Byte) : ℕ :=
  if b ≤ 57 then b.toNat - 48 else if b ≤ 70 then b.toNat - 55 else b.toNat - 87

/-- The first octet. -/
def smscLen (payload : List Byte) : ℕ :=
  16 * hexVal (payload.getD 0 0) + hexVal (payload.getD 1 0)

/-- The number is that of the octets behind the SMSC part; for a text that is no PDU, it is neither
negative nor larger than the number of octets. -/
def TellsLength (payload : List Byte) (n : ℤ) : Prop :=
  if IsPdu payload then n = payload.length / 2 - 1 - smscLen payload
  else 0 ≤ n ∧ n ≤ payload.length / 2

instance (payload : List Byte) (n : ℤ) : Decidable (TellsLength payload n) := by
  unfold TellsLength
  infer_instance

theorem IsPdu.cstr_eq {payload : List Byte} (h : IsPdu payload) : cstr payload = payload := by
  apply cstr_of_noNul
  intro hz
  exact absurd (h.2.2 0 hz) (by decide)

/-- The number that is announced for the text of a payload is right in these cases. -/
theorem tellsLength_iff {payload : List Byte} {val : CStr} (hval : val.bytes = cstr payload)
    (room : val.strlen < evtValSize) :
    TellsLength payload (tpduLen val) ↔
      if IsPdu payload then smscLen payload = 0 else 2 ≤ (cstr payload).length := by
  have len : val.strlen = (cstr payload).length := congrArg List.length hval
  have front : (cstr payload).length ≤ payload.length :=
    (List.takeWhile_prefix _).length_le
  unfold TellsLength
  split_ifs with hpdu
  · rw [hpdu.cstr_eq] at len
    have two := hpdu.1
    rw [tpduLen_of_le (by omega) room, len]
    omega
  · rcases Nat.lt_or_ge val.strlen 2 with short | long
    · rw [tpduLen_of_lt short]
      omega
    · rw [tpduLen_of_le long room]
      omega

/-! ### The command -/

theorem cmgs_noNul (n : ℤ) : 0 ∉ text "AT+CMGS=" ++ decimal n ++ text "\r" := by
  have ht : 0 ∉ text "AT+CMGS=" ∧ 0 ∉ text "\r" := by decide
  simp only [List.mem_append, ht, decimal_noNul, or_self, not_false_iff]

/-- `AT+CMGS=<n>`. -/
def atCmgs (n : ℤ) : CStr := ⟨text "AT+CMGS=" ++ decimal n ++ text "\r", cmgs_noNul n⟩

theorem length_decimal_le {n : ℤ} (h : n.natAbs < 10 ^ 10) : (decimal n).length ≤ 11 := by
  have digits : (Nat.digits 10 n.natAbs).length ≤ 10 :=
    (Nat.digits_length_le_iff (by decide) _).2 h
  have sign : (if n < 0 then text "-" else []).length ≤ 1 := by
    split_ifs <;> decide
  unfold decimal
  split_ifs at sign ⊢ <;>
    simp only [List.length_append, List.length_reverse, List.length_map, List.length_singleton] <;>
    omega

theorem modemSendSms_head {n : ℤ} (h : n.natAbs < 10 ^ 10) (pdu : CStr) :
    (modemSendSms pdu n).head? = some (atCmgs n) := by
  have short := length_decimal_le h
  have front : (text "AT+CMGS=").length = 8 := by decide
  have fin : (text "\r").length = 1 := by decide
  have whole : snprintf 128 (atCmgs n) = atCmgs n := by
    ext1
    show ((atCmgs n).bytes.drop 0).take 127 = (atCmgs n).bytes
    rw [List.drop_zero]
    apply List.take_of_length_le
    simp only [atCmgs, List.length_append, front, fin]
    omega
  show some (snprintf 128 (atCmgs n)) = some (atCmgs n)
  rw [whole]

theorem natAbs_tpduLen_lt (val : CStr) : (tpduLen val).natAbs < 10 ^ 10 := by
  have low := BitVec.le_toInt (((BitVec.ofNat 64 val.strlen - 2) / 2).setWidth 32)
  have high := BitVec.toInt_lt (x := ((BitVec.ofNat 64 val.strlen - 2) / 2).setWidth 32)
  unfold tpduLen
  omega

/-! ### Messages of the peer -/

theorem peerSms_noNul : 0 ∉ text "/200002Bob/SMS" := by decide

/-- `PEERID_SMS`. -/
def peerSms : CStr := .lit "/200002Bob/SMS" peerSms_noNul

/-- The event queued for a message, if there is one, makes the event handler announce the right
number of octets, in every state of the call. -/
def LengthAnnounced (localtime : ℕ → Tm) (payload : List Byte) : Produced → Prop
  | .returned _ none => True
  | .returned _ (some raw) =>
    ∃ evt, raw.Holds evt ∧ ∀ c tvSec sendRc, ∃ n,
      state localtime c ⟨evt, tvSec, sendRc⟩ =
        .ok ⟨c, [.modemSendSms c.uartFd evt.val n], []⟩ ∧
      (modemSendSms evt.val n).head? = some (atCmgs n) ∧ TellsLength payload n
  | _ => False

theorem findEvent_peerSms : findEvent peerSms.bytes mqttEvents = .mqttSms := by decide

/-- What is announced for a text that fits its event. -/
theorem announced_iff {localtime : ℕ → Tm} {payload after : List Byte}
    (room : (cstr payload).length < evtValSize) :
    LengthAnnounced localtime payload (mqttEventQueue true peerSms payload after) ↔
      TellsLength payload (tpduLen ⟨cstr payload, cstr_noNul _⟩) := by
  obtain ⟨raw, hqueue, holds⟩ := mqttEventQueue_of_lt findEvent_peerSms (by decide) after room
  rw [hqueue]
  constructor
  · rintro ⟨evt, hevt, told⟩
    obtain ⟨n, hstate, -, tells⟩ := told (initCtrl peerSms 0) 0 0
    have same : evt.val = ⟨cstr payload, cstr_noNul _⟩ := holds_unique hevt.2 holds.2
    have kind : evt.event = .mqttSms := Option.some.inj (hevt.1.symm.trans holds.1)
    rw [state_mqttSms kind] at hstate
    simp only [Except.ok.injEq, Outcome.mk.injEq, List.cons.injEq, Output.modemSendSms.injEq,
      true_and, and_true] at hstate
    rwa [← hstate, same] at tells
  · intro tells
    exact ⟨_, holds, fun c tvSec sendRc =>
      ⟨_, state_mqttSms rfl c, modemSendSms_head (natAbs_tpduLen_lt _) _, tells⟩⟩

/-- For every payload on the peer's SMS topic, whatever lies behind it in memory: the number
announced to the modem is right, exactly if there is no memory for the event, or the text fits it
and, if it is a PDU, its SMSC part is the octet `00`, and if not, it has at least two characters. -/
theorem sms_length_iff (localtime : ℕ → Tm) (malloc : Bool) (payload after : List Byte) :
    LengthAnnounced localtime payload (mqttEventQueue malloc peerSms payload after) ↔
      (malloc = true → (cstr payload).length < evtValSize ∧
        if IsPdu payload then smscLen payload = 0 else 2 ≤ (cstr payload).length) := by
  cases malloc with
  | false =>
    have nothing : mqttEventQueue false peerSms payload after = .returned [] none := by
      simp [mqttEventQueue, findEvent_peerSms, queueEvt]
    simp [nothing, LengthAnnounced]
  | true =>
    simp only [forall_const]
    by_cases room : (cstr payload).length < evtValSize
    · simp only [announced_iff room, room, true_and]
      exact @tellsLength_iff payload ⟨cstr payload, cstr_noNul _⟩ rfl room
    · have fault : mqttEventQueue true peerSms payload after = .fault := by
        have big : ¬ (snprintf (payload.length + 1)
            ⟨cstr (payload ++ after), cstr_noNul _⟩).strlen < evtValSize := by
          rwa [CStr.strlen, snprintf_payload]
        have none : RawEvt.fresh.val.snprintf (payload.length + 1)
            ⟨cstr (payload ++ after), cstr_noNul _⟩ = none :=
          Cells.snprintf_eq_none_iff.2 ⟨Nat.succ_ne_zero _, not_lt.1 big⟩
        simp only [mqttEventQueue, findEvent_peerSms, queueEvt]
        rw [if_neg (by decide), if_pos trivial, none]
      simp [fault, LengthAnnounced, room]

/-- A PDU with the address of an SMSC in front. -/
def sampleSmscPdu : List Byte :=
  text "0891683110304105F0240D91683165342873F90000519021222383230931D98C56A397E774"

/-- The PDU with an SMSC address is announced with the eight octets of that address, and the empty
text with `-1`. -/
theorem not_sms_length_sample :
    ¬ LengthAnnounced sampleLocaltime sampleSmscPdu (mqttEventQueue true peerSms sampleSmscPdu []) ∧
      ¬ LengthAnnounced sampleLocaltime [] (mqttEventQueue true peerSms [] []) := by
  constructor
  · have pdu : IsPdu sampleSmscPdu := ⟨by decide, by decide, forall_mem_of_all rfl⟩
    rw [announced_iff (by decide), TellsLength, if_pos pdu]
    decide
  · rw [announced_iff (by decide)]
    decide

end Siproxy
