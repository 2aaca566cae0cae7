import Mathlib.Data.List.Basic
import Mathlib.Data.Nat.Find
import Mathlib.Logic.Function.Iterate
import Mathlib.Tactic.Common

/-!
# Message ids

`MQTTAsync_assignMsgId` looks for an id behind the last one that was assigned, from `1` to
`MAX_MSG_ID` and around, and gives up when it is back at the last one, which it does not try.

`assignMsgId_spec`: the id is free; there is none exactly if all ids but the last one are in use;
and the search does not end exactly if no id was assigned before and all are in use.
-/

namespace Siproxy.Mqtt

/-- `MAX_MSG_ID`. -/
def maxMsgId : ℕ := 65535

/-- The id behind `msgid`. -/
def nextMsgId (msgid : ℕ) : ℕ := if msgid = maxMsgId then 1 else msgid + 1

/-- The loop of `MQTTAsync_assignMsgId`; without fuel there is no result. -/
def assignLoop (used : List ℕ) (startMsgid : ℕ) : ℕ → ℕ → Option ℕ
  | 0, _ => none
  | fuel + 1, msgid =>
    if msgid ∈ used then
      if nextMsgId msgid = startMsgid then some 0
      else assignLoop used startMsgid fuel (nextMsgId msgid)
    else some msgid

/-- `MQTTAsync_assignMsgId`, with the ids of the commands and responses and the last id: what is
returned, and the new last id. -/
def assignMsgId (fuel : ℕ) (used : List ℕ) (msgID : ℕ) : Option (ℕ × ℕ) :=
  (assignLoop used msgID fuel (nextMsgId msgID)).map fun msgid =>
    (msgid, if msgid ≠ 0 then msgid else msgID)

/-- The ids that can be assigned. -/
def IsMsgId (msgid : ℕ) : Prop := 1 ≤ msgid ∧ msgid ≤ maxMsgId

instance (msgid : ℕ) : Decidable (IsMsgId msgid) := inferInstanceAs (Decidable (_ ∧ _))

theorem nextMsgId_isMsgId {msgid : ℕ} (h : msgid ≤ maxMsgId) : IsMsgId (nextMsgId msgid) := by
  unfold nextMsgId IsMsgId maxMsgId at *
  split_ifs <;> omega

theorem iterate_nextMsgId {msgid : ℕ} (h : IsMsgId msgid) (n : ℕ) :
    nextMsgId^[n] msgid = (msgid - 1 + n) % maxMsgId + 1 := by
  induction n with
  | zero =>
    unfold IsMsgId maxMsgId at *
    simp only [Function.iterate_zero, id_eq]
    omega
  | succ n ih =>
    rw [Function.iterate_succ_apply', ih]
    unfold nextMsgId maxMsgId
    split_ifs <;> omega

theorem exists_iterate {msgid target : ℕ} (h : IsMsgId msgid) (ht : IsMsgId target) :
    ∃ n < maxMsgId, nextMsgId^[n] msgid = target := by
  obtain ⟨low, high⟩ := h
  obtain ⟨low', high'⟩ := ht
  unfold maxMsgId at *
  by_cases before : msgid ≤ target
  · refine ⟨target - msgid, by omega, ?_⟩
    rw [iterate_nextMsgId ⟨low, high⟩, maxMsgId]
    omega
  · refine ⟨target + 65535 - msgid, by omega, ?_⟩
    rw [iterate_nextMsgId ⟨low, high⟩, maxMsgId]
    omega

/-- The loop ends at the first id that is free. -/
theorem assignLoop_finds {used : List ℕ} (start : ℕ) {n fuel msgid : ℕ} (enough : n < fuel)
    (taken : ∀ j < n, nextMsgId^[j] msgid ∈ used)
    (away : ∀ j, 1 ≤ j → j ≤ n → nextMsgId^[j] msgid ≠ start)
    (free : nextMsgId^[n] msgid ∉ used) :
    assignLoop used start fuel msgid = some (nextMsgId^[n] msgid) := by
  induction n generalizing fuel msgid with
  | zero =>
    obtain ⟨fuel, rfl⟩ : ∃ k, fuel = k + 1 := ⟨fuel - 1, by omega⟩
    exact if_neg free
  | succ n ih =>
    obtain ⟨fuel, rfl⟩ : ∃ k, fuel = k + 1 := ⟨fuel - 1, by omega⟩
    have first : msgid ∈ used := taken 0 n.succ_pos
    have next : nextMsgId msgid ≠ start := away 1 (by omega) (by omega)
    rw [assignLoop, if_pos first, if_neg next, Function.iterate_succ_apply]
    refine ih (by omega) (fun j hj => ?_) (fun j hj hjn => ?_) ?_
    · exact taken (j + 1) (by omega)
    · exact away (j + 1) (by omega) (by omega)
    · exact free

theorem assignLoop_exhausts {used : List ℕ} {start : ℕ} {n fuel msgid : ℕ} (enough : n ≤ fuel)
    (pos : 1 ≤ n) (taken : ∀ j < n, nextMsgId^[j] msgid ∈ used)
    (away : ∀ j, 1 ≤ j → j < n → nextMsgId^[j] msgid ≠ start)
    (back : nextMsgId^[n] msgid = start) : assignLoop used start fuel msgid = some 0 := by
  induction n generalizing fuel msgid with
  | zero => omega
  | succ n ih =>
    obtain ⟨fuel, rfl⟩ : ∃ k, fuel = k + 1 := ⟨fuel - 1, by omega⟩
    have first : msgid ∈ used := taken 0 n.succ_pos
    rw [assignLoop, if_pos first]
    split_ifs with next
    · rfl
    · have more : 1 ≤ n := by
        by_contra none
        obtain rfl : n = 0 := by omega
        exact next back
      refine ih (by omega) more (fun j hj => ?_) (fun j hj hjn => ?_) ?_
      · exact taken (j + 1) (by omega)
      · exact away (j + 1) (by omega) (by omega)
      · exact back

theorem assignMsgId_free {used : List ℕ} {start fuel : ℕ} (h : start ≤ maxMsgId)
    (enough : maxMsgId ≤ fuel) {target : ℕ} (ht : IsMsgId target) (other : target ≠ start)
    (free : target ∉ used) :
    ∃ msgid, assignMsgId fuel used start = some (msgid, msgid) ∧ IsMsgId msgid ∧ msgid ∉ used := by
  have first := nextMsgId_isMsgId h
  obtain ⟨n, hn, hit⟩ := exists_iterate first ht
  have exists_ : ∃ n, nextMsgId^[n] (nextMsgId start) ∉ used := ⟨n, by rwa [hit]⟩
  have found := Nat.find_spec exists_
  have before : Nat.find exists_ ≤ n := Nat.find_min' exists_ (by rwa [hit])
  have room : Nat.find exists_ < fuel := by omega
  have loop := assignLoop_finds start room
    (fun j hj => not_not.1 (Nat.find_min exists_ hj)) (fun j hj hjn back => ?_) found
  · have isId : IsMsgId (nextMsgId^[Nat.find exists_] (nextMsgId start)) := by
      rw [iterate_nextMsgId first]
      unfold IsMsgId maxMsgId
      omega
    refine ⟨_, ?_, isId, found⟩
    have nonzero : nextMsgId^[Nat.find exists_] (nextMsgId start) ≠ 0 := by
      have low := isId.1
      omega
    rw [assignMsgId, loop, Option.map_some, if_pos nonzero]
  · -- the last id comes up behind all others only
    rw [iterate_nextMsgId first] at back hit
    unfold nextMsgId maxMsgId at *
    split_ifs at back hit <;> omega

/-- If no other id is free, the search ends at the last one. -/
theorem assignMsgId_exhausted {used : List ℕ} {start fuel : ℕ} (h : IsMsgId start)
    (enough : maxMsgId ≤ fuel) (taken : ∀ msgid, IsMsgId msgid → msgid ≠ start → msgid ∈ used) :
    assignMsgId fuel used start = some (0, start) := by
  have first := nextMsgId_isMsgId h.2
  have ids (j : ℕ) : IsMsgId (nextMsgId^[j] (nextMsgId start)) := by
    rw [iterate_nextMsgId first]
    unfold IsMsgId maxMsgId
    omega
  have away (j : ℕ) (hj : j < 65534) : nextMsgId^[j] (nextMsgId start) ≠ start := by
    obtain ⟨low, high⟩ := h
    rw [iterate_nextMsgId first]
    unfold nextMsgId maxMsgId at *
    split_ifs <;> omega
  have back : nextMsgId^[65534] (nextMsgId start) = start := by
    obtain ⟨low, high⟩ := h
    rw [iterate_nextMsgId first]
    unfold nextMsgId maxMsgId at *
    split_ifs <;> omega
  have room : 65534 ≤ fuel := by
    unfold maxMsgId at enough
    omega
  have loop := assignLoop_exhausts room (by omega)
    (fun j hj => taken _ (ids j) (away j hj)) (fun j _ hj => away j hj) back
  rw [assignMsgId, loop]
  rfl

theorem assignMsgId_stuck {used : List ℕ} (taken : ∀ msgid, IsMsgId msgid → msgid ∈ used)
    (fuel : ℕ) : assignMsgId fuel used 0 = none := by
  have stuck (fuel msgid : ℕ) (h : IsMsgId msgid) : assignLoop used 0 fuel msgid = none := by
    induction fuel generalizing msgid with
    | zero => rfl
    | succ fuel ih =>
      have next := nextMsgId_isMsgId h.2
      have nonzero : nextMsgId msgid ≠ 0 := by
        have low := next.1
        omega
      rw [assignLoop, if_pos (taken msgid h), if_neg nonzero, ih _ next]
  rw [assignMsgId, stuck fuel _ (nextMsgId_isMsgId (Nat.zero_le _))]
  rfl

/-- What is returned other than `0` is an id that is free. -/
theorem assignMsgId_fresh {used : List ℕ} {start fuel : ℕ} (h : start ≤ maxMsgId)
    (enough : maxMsgId ≤ fuel) {msgid last : ℕ}
    (taken : assignMsgId fuel used start = some (msgid, last)) (nonzero : msgid ≠ 0) :
    last = msgid ∧ IsMsgId msgid ∧ msgid ∉ used := by
  by_cases free : ∃ msgid, IsMsgId msgid ∧ msgid ≠ start ∧ msgid ∉ used
  · obtain ⟨target, ht, other, hfree⟩ := free
    obtain ⟨found, hfound, isId, unused⟩ := assignMsgId_free h enough ht other hfree
    rw [hfound] at taken
    cases taken
    exact ⟨rfl, isId, unused⟩
  · have used : ∀ msgid, IsMsgId msgid → msgid ≠ start → msgid ∈ used := by
      intro msgid hid other
      by_contra hfree
      exact free ⟨msgid, hid, other, hfree⟩
    rcases Nat.eq_zero_or_pos start with rfl | pos
    · have all : ∀ msgid, IsMsgId msgid → msgid ∈ _ := fun msgid hid =>
        used msgid hid (by have low := hid.1; omega)
      rw [assignMsgId_stuck all fuel] at taken
      cases taken
    · rw [assignMsgId_exhausted ⟨pos, h⟩ enough used] at taken
      cases taken
      exact absurd rfl nonzero

/-- What `MQTTAsync_assignMsgId` returns, with fuel for all ids: a number other than `0` is an id
that is not in use, and the new last id; it is `0` exactly if there was a last id and all others are
in use, whether or not the last one is; and the search does not end exactly if there was none and
all ids are in use. -/
theorem assignMsgId_spec (used : List ℕ) (start fuel : ℕ) (h : start ≤ maxMsgId)
    (enough : maxMsgId ≤ fuel) :
    (∀ msgid last, assignMsgId fuel used start = some (msgid, last) → msgid ≠ 0 →
      last = msgid ∧ IsMsgId msgid ∧ msgid ∉ used) ∧
    ((∃ last, assignMsgId fuel used start = some (0, last)) ↔
      start ≠ 0 ∧ ∀ msgid, IsMsgId msgid → msgid ≠ start → msgid ∈ used) ∧
    (assignMsgId fuel used start = none ↔
      start = 0 ∧ ∀ msgid, IsMsgId msgid → msgid ∈ used) := by
  refine ⟨fun msgid last => assignMsgId_fresh h enough, ?_⟩
  by_cases free : ∃ msgid, IsMsgId msgid ∧ msgid ≠ start ∧ msgid ∉ used
  · obtain ⟨target, ht, other, hfree⟩ := free
    obtain ⟨found, hfound, isId, unused⟩ := assignMsgId_free h enough ht other hfree
    have nonzero : found ≠ 0 := by
      have low := isId.1
      omega
    refine ⟨iff_of_false ?_ ?_, iff_of_false ?_ ?_⟩
    · rintro ⟨last, hr⟩
      rw [hfound] at hr
      cases hr
      exact nonzero rfl
    · rintro ⟨-, all⟩
      exact hfree (all target ht other)
    · rw [hfound]
      simp
    · rintro ⟨-, all⟩
      exact hfree (all target ht)
  · have taken : ∀ msgid, IsMsgId msgid → msgid ≠ start → msgid ∈ used := by
      intro msgid hid other
      by_contra hfree
      exact free ⟨msgid, hid, other, hfree⟩
    rcases Nat.eq_zero_or_pos start with rfl | pos
    · have all : ∀ msgid, IsMsgId msgid → msgid ∈ used := fun msgid hid =>
        taken msgid hid (by have low := hid.1; omega)
      have stuck := assignMsgId_stuck all fuel
      simpa [stuck] using all
    · have exhausted := assignMsgId_exhausted ⟨pos, h⟩ enough taken
      refine ⟨iff_of_true ⟨start, exhausted⟩ ⟨by omega, taken⟩, iff_of_false ?_ ?_⟩
      · rw [exhausted]
        simp
      · rintro ⟨rfl, -⟩
        omega

/-- The last id was `1`, and the next two are in use. -/
theorem assignMsgId_spec_sample :
    assignMsgId maxMsgId [2, 3] 1 = some (4, 4) ∧ IsMsgId 4 ∧ 4 ∉ [2, 3] :=
  ⟨rfl, ((assignMsgId_spec [2, 3] 1 maxMsgId (by decide) (by decide)).1 4 4 rfl (by decide)).2⟩

end Siproxy.Mqtt
