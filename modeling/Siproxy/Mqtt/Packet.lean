import Mathlib.Tactic.Positivity
import Mathlib.Tactic.Ring
import Siproxy.Lib.CString
import Siproxy.Lib.Framing

/-!
# MQTT packets

`MQTTPacket.c` and `MQTTPacketOut.c`: a packet is a header byte, the length of the rest in groups of
seven bits, and the rest.  What is sent is written here as the buffers that are handed to
`Socket_putdatas`.  Reading outside the rest of a packet has no result.

* `publish_read_iff`: a PUBLISH that is sent is read back exactly if its topic and its length fit
  into the format.
* `read_outside_iff`: which packets are read outside their end.
-/

namespace Siproxy.Mqtt

open CString

/-! ### Header and length -/

/-! The codes of `enum msgTypes` that are looked at. -/

namespace MsgTypes

abbrev connack : Fin 16 := 2
abbrev publish : Fin 16 := 3
abbrev puback : Fin 16 := 4
abbrev pubrec : Fin 16 := 5
abbrev pubrel : Fin 16 := 6
abbrev pubcomp : Fin 16 := 7
abbrev suback : Fin 16 := 9
abbrev unsuback : Fin 16 := 11
abbrev pingreq : Fin 16 := 12
abbrev pingresp : Fin 16 := 13
abbrev disconnect : Fin 16 := 14

end MsgTypes

namespace Qos

abbrev atMostOnce : Fin 4 := 0
abbrev atLeastOnce : Fin 4 := 1
abbrev exactlyOnce : Fin 4 := 2

end Qos

/-- `Header`, the bits of the first byte. -/
structure Header where
  type : Fin 16
  dup : Bool
  qos : Fin 4
  retain : Bool
  deriving DecidableEq

def Header.byte (h : Header) : Byte :=
  UInt8.ofNat (h.type * 16 + h.dup.toNat * 8 + h.qos * 2 + h.retain.toNat)

def Header.ofByte (b : Byte) : Header where
  type := Fin.ofNat 16 (b.toNat / 16)
  dup := b.toNat / 8 % 2 = 1
  qos := Fin.ofNat 4 (b.toNat / 2)
  retain := b.toNat % 2 = 1

@[simp]
theorem Header.ofByte_byte (h : Header) : Header.ofByte h.byte = h := by
  obtain ⟨type, dup, qos, retain⟩ := h
  revert type dup qos retain
  decide

/-- `MQTTPacket_encode`. -/
def encode (length : ℕ) : List Byte :=
  if length / 128 = 0 then [UInt8.ofNat (length % 128)]
  else UInt8.ofNat (length % 128 + 128) :: encode (length / 128)
termination_by length

/-- What a read from a socket returns other than `TCPSOCKET_COMPLETE`. -/
inductive Rc where
  | interrupted
  | socketError
  deriving DecidableEq

/-- The loop of `MQTTPacket_decode`, with the number of bytes that may still be read. -/
def decodeLoop {σ : Type} (getch : σ → Except Rc Byte × σ) : ℕ → ℕ → ℕ → σ → Except Rc ℕ × σ
  | 0, _, _, s => (.error .socketError, s)
  | k + 1, multiplier, value, s =>
    match getch s with
    | (.error rc, s) => (.error rc, s)
    | (.ok c, s) =>
      let value := value + c.toNat % 128 * multiplier
      if 128 ≤ c.toNat then decodeLoop getch k (multiplier * 128) value s else (.ok value, s)

/-- `MAX_NO_OF_REMAINING_LENGTH_BYTES`. -/
def maxNoOfRemainingLengthBytes : ℕ := 4

/-- `MQTTPacket_decode`, with the function that reads a byte. -/
def decode {σ : Type} (getch : σ → Except Rc Byte × σ) (s : σ) : Except Rc ℕ × σ :=
  decodeLoop getch maxNoOfRemainingLengthBytes 1 0 s

/-- Reading from a list; what is behind it has not come. -/
def getchList : List Byte → Except Rc Byte × List Byte
  | [] => (.error .interrupted, [])
  | b :: rest => (.ok b, rest)

theorem decodeLoop_encode (k multiplier value n : ℕ) (rest : List Byte) :
    decodeLoop getchList (k + 1) multiplier value (encode n ++ rest) =
      if n < 128 ^ (k + 1) then (.ok (value + n * multiplier), rest)
      else (.error .socketError, (encode n ++ rest).drop (k + 1)) := by
  induction k generalizing multiplier value n with
  | zero =>
    rw [encode]
    split_ifs with small fits fits
    · have last : n % 128 = n := by omega
      simp [decodeLoop, getchList, last]
      omega
    · omega
    · omega
    · have digit : (UInt8.ofNat (n % 128 + 128)).toNat = n % 128 + 128 := by
        rw [UInt8.toNat_ofNat']
        omega
      rw [List.cons_append, decodeLoop]
      simp only [getchList, digit]
      rw [if_pos (by omega)]
      rfl
  | succ k ih =>
    rw [encode]
    by_cases small : n / 128 = 0
    · have last : n % 128 = n := by omega
      have fits : n < 128 ^ (k + 1 + 1) := by
        have pos : 0 < 128 ^ (k + 1) := by positivity
        rw [pow_succ]
        omega
      rw [if_pos small, if_pos fits]
      simp [decodeLoop, getchList, last]
      omega
    · have digit : (UInt8.ofNat (n % 128 + 128)).toNat = n % 128 + 128 := by
        rw [UInt8.toNat_ofNat']
        omega
      have next := ih (multiplier * 128) (value + n % 128 * multiplier) (n / 128)
      have fits : n / 128 < 128 ^ (k + 1) ↔ n < 128 ^ (k + 1 + 1) := by
        rw [pow_succ _ (k + 1), Nat.div_lt_iff_lt_mul (by norm_num)]
      have total : value + n % 128 * multiplier + n / 128 * (multiplier * 128) =
          value + n * multiplier := by
        conv_rhs => rw [← Nat.mod_add_div n 128]
        ring
      rw [if_neg small, List.cons_append, decodeLoop]
      simp only [getchList, digit]
      rw [if_pos (by omega), show (n % 128 + 128) % 128 = n % 128 by omega, next, total]
      simp only [fits, List.drop_succ_cons]

/-- A length is decoded as it was encoded, if four bytes are enough. -/
theorem decode_encode (n : ℕ) (rest : List Byte) :
    decode getchList (encode n ++ rest) =
      if n < 128 ^ 4 then (.ok n, rest)
      else (.error .socketError, (encode n ++ rest).drop 4) := by
  have loop := decodeLoop_encode 3 1 0 n rest
  rwa [Nat.mul_one, Nat.zero_add] at loop

/-! ### The frames of a stream -/

section Decode

variable {k multiplier value : ℕ} {l rest : List Byte} {r : Except Rc ℕ}

/-- The bytes that are decoded come first, and the result does not depend on those behind them. -/
theorem decodeLoop_used (h : decodeLoop getchList k multiplier value l = (r, rest))
    (hr : r ≠ .error .interrupted) :
    ∃ used, l = used ++ rest ∧
      ∀ m, decodeLoop getchList k multiplier value (used ++ m) = (r, m) := by
  induction k generalizing multiplier value l with
  | zero =>
    cases h
    exact ⟨[], rfl, fun m => rfl⟩
  | succ k ih =>
    cases l with
    | nil =>
      cases h
      exact absurd rfl hr
    | cons c l =>
      simp only [decodeLoop, getchList] at h
      split_ifs at h with more
      · obtain ⟨used, rfl, same⟩ := ih h
        refine ⟨c :: used, rfl, fun m => ?_⟩
        simp only [List.cons_append, decodeLoop, getchList, if_pos more, same m]
      · cases h
        refine ⟨[c], rfl, fun m => ?_⟩
        simp only [List.cons_append, List.nil_append, decodeLoop, getchList, if_neg more]

theorem decodeLoop_append (m : List Byte)
    (h : decodeLoop getchList k multiplier value l = (r, rest)) (hr : r ≠ .error .interrupted) :
    decodeLoop getchList k multiplier value (l ++ m) = (r, rest ++ m) := by
  obtain ⟨used, rfl, same⟩ := decodeLoop_used h hr
  rw [List.append_assoc, same]

theorem decodeLoop_suffix (k multiplier value : ℕ) (l : List Byte) :
    (decodeLoop getchList k multiplier value l).2 <:+ l := by
  induction k generalizing multiplier value l with
  | zero => exact List.suffix_refl l
  | succ k ih =>
    cases l with
    | nil => exact List.suffix_refl []
    | cons c l =>
      simp only [decodeLoop, getchList]
      split_ifs with more
      · exact (ih _ _ l).trans (List.suffix_cons c l)
      · exact List.suffix_cons c l

/-- Where the bytes are not enough, all of them are decoded, whatever comes later. -/
theorem decodeLoop_interrupted
    (h : decodeLoop getchList k multiplier value l = (.error .interrupted, rest)) :
    rest = [] ∧ ∀ m, (decodeLoop getchList k multiplier value (l ++ m)).2 <:+ m := by
  induction k generalizing multiplier value l with
  | zero => cases h
  | succ k ih =>
    cases l with
    | nil =>
      cases h
      exact ⟨rfl, fun m => decodeLoop_suffix _ _ _ m⟩
    | cons c l =>
      simp only [decodeLoop, getchList] at h
      split_ifs at h with more
      · obtain ⟨none, past⟩ := ih h
        refine ⟨none, fun m => ?_⟩
        simpa only [List.cons_append, decodeLoop, getchList, if_pos more] using past m
      · cases h

end Decode

/-- The packet at the start of a stream: its header byte and the rest. -/
def nextPacket : List Byte → Framing.Next Byte (Byte × List Byte)
  | [] => .more
  | header :: l =>
    match decode getchList l with
    | (.error .interrupted, _) => .more
    | (.error .socketError, _) => .bad
    | (.ok n, rest) =>
      if n ≤ rest.length then .frame (header, rest.take n) (rest.drop n) else .more

/-- The packets of a stream. -/
def packets : Framing Byte (Byte × List Byte) where
  next := nextPacket
  shorter := by
    intro l a rest h
    cases l with
    | nil => cases h
    | cons header l =>
      obtain ⟨r, rest', hdecode⟩ : ∃ r rest', decode getchList l = (r, rest') := ⟨_, _, rfl⟩
      simp only [nextPacket, hdecode] at h
      rcases r with (_ | _) | n
      · cases h
      · cases h
      · dsimp only at h
        split_ifs at h
        cases h
        have shorter : rest'.length ≤ l.length := by
          have suffix := decodeLoop_suffix maxNoOfRemainingLengthBytes 1 0 l
          rw [← decode, hdecode] at suffix
          exact suffix.length_le
        simp only [List.length_drop, List.length_cons]
        omega
  frame_append := by
    intro l a rest m h
    cases l with
    | nil => cases h
    | cons header l =>
      obtain ⟨r, rest', hdecode⟩ : ∃ r rest', decode getchList l = (r, rest') := ⟨_, _, rfl⟩
      simp only [nextPacket, hdecode] at h
      rcases r with (_ | _) | n
      · cases h
      · cases h
      · dsimp only at h
        split_ifs at h with fits
        cases h
        have longer : decode getchList (l ++ m) = (.ok n, rest' ++ m) :=
          decodeLoop_append m hdecode (by simp)
        have fits' : n ≤ (rest' ++ m).length := by
          rw [List.length_append]
          omega
        simp only [List.cons_append, nextPacket, longer, if_pos fits']
        rw [List.take_append_of_le_length fits, List.drop_append_of_le_length fits]
  bad_append := by
    intro l m h
    cases l with
    | nil => cases h
    | cons header l =>
      obtain ⟨r, rest', hdecode⟩ : ∃ r rest', decode getchList l = (r, rest') := ⟨_, _, rfl⟩
      simp only [nextPacket, hdecode] at h
      rcases r with (_ | _) | n
      · cases h
      · have longer : decode getchList (l ++ m) = (.error .socketError, rest' ++ m) :=
          decodeLoop_append m hdecode (by simp)
        simp only [List.cons_append, nextPacket, longer]
      · dsimp only at h
        split_ifs at h

/-! ### Sending -/

/-- `writeInt`: two bytes, whatever the number is. -/
def writeInt (anInt : ℕ) : List Byte := [UInt8.ofNat (anInt / 256), UInt8.ofNat (anInt % 256)]

/-- `writeUTF`. -/
def writeUTF (string : CStr) : List Byte := writeInt string.strlen ++ string.bytes

/-- `MQTTPacket_sends`: the buffers for `Socket_putdatas`. -/
def packetSends (header : Header) (buffers : List (List Byte)) : List (List Byte) :=
  (header.byte :: encode (buffers.map List.length).sum) :: buffers

/-- `MQTTPacket_send`. -/
def packetSend (header : Header) (buffer : List Byte) : List (List Byte) :=
  packetSends header [buffer]

/-- `MQTTPacket_send_ack`. -/
def sendAck (type : Fin 16) (msgid : ℕ) (dup : Bool) : List (List Byte) :=
  packetSend ⟨type, dup, if type = MsgTypes.pubrel then 1 else 0, false⟩ (writeInt msgid)

def sendPubrec (msgid : ℕ) : List (List Byte) := sendAck MsgTypes.pubrec msgid false
def sendPubrel (msgid : ℕ) (dup : Bool) : List (List Byte) := sendAck MsgTypes.pubrel msgid dup
def sendPubcomp (msgid : ℕ) : List (List Byte) := sendAck MsgTypes.pubcomp msgid false

/-- `MQTTPacket_send_publish`. -/
def sendPublish (topic : CStr) (msgId : ℕ) (payload : List Byte) (dup : Bool) (qos : Fin 4)
    (retained : Bool) : List (List Byte) :=
  let header : Header := ⟨MsgTypes.publish, dup, qos, retained⟩
  if 0 < qos then
    packetSends header [writeInt topic.strlen, topic.bytes, writeInt msgId, payload]
  else packetSends header [writeInt topic.strlen, topic.bytes, payload]

/-- A packet that is sent is the next one of the stream, if its length can be encoded in four bytes;
else there is no packet. -/
theorem nextPacket_sends (header : Header) (buffers : List (List Byte)) (rest : List Byte) :
    nextPacket ((packetSends header buffers).flatten ++ rest) =
      if buffers.flatten.length < 128 ^ 4 then .frame (header.byte, buffers.flatten) rest
      else .bad := by
  have total : (buffers.map List.length).sum = buffers.flatten.length := List.length_flatten.symm
  rw [packetSends, List.flatten_cons, List.cons_append, List.cons_append, List.append_assoc, total,
    nextPacket, decode_encode]
  split_ifs with fits
  · have whole : buffers.flatten.length ≤ (buffers.flatten ++ rest).length := by simp
    simp only [if_pos whole, List.take_left, List.drop_left]
  · rfl

/-! ### Reading -/

/-- `Publish`. -/
structure Publish where
  header : Header
  topic : List Byte
  msgId : ℕ
  payload : List Byte
  deriving DecidableEq

/-- What the functions of `new_packets` return. -/
inductive Pack where
  | connack (header : Header) (flags rc : Byte)
  | publish (pack : Publish)
  | ack (header : Header) (msgId : ℕ)
  | suback (header : Header) (msgId : ℕ) (qoss : List Byte)
  | headerOnly (header : Header)
  deriving DecidableEq

/-- `readChar`, of the bytes up to the end of the packet. -/
def readChar? : List Byte → Option (Byte × List Byte)
  | c :: rest => some (c, rest)
  | [] => none

/-- `readInt`. -/
def readInt? : List Byte → Option (ℕ × List Byte)
  | a :: b :: rest => some (256 * a.toNat + b.toNat, rest)
  | _ => none

/-- `readUTFlen`, which looks at the end of the packet. -/
def readUTFlen (data : List Byte) : Option (List Byte × List Byte) :=
  match readInt? data with
  | none => none
  | some (len, rest) => if len ≤ rest.length then some (rest.take len, rest.drop len) else none

/-- `MQTTPacket_publish`; there is no result where it reads outside the packet. -/
def packetPublish (aHeader : Byte) (data : List Byte) : Option (Option Pack) :=
  let header := Header.ofByte aHeader
  match readUTFlen data with
  | none => some none
  | some (topic, rest) =>
    if 0 < header.qos then
      (readInt? rest).map fun (msgId, payload) => some (.publish ⟨header, topic, msgId, payload⟩)
    else some (some (.publish ⟨header, topic, 0, rest⟩))

/-- `MQTTPacket_ack`. -/
def packetAck (aHeader : Byte) (data : List Byte) : Option (Option Pack) :=
  (readInt? data).map fun (msgId, _) => some (.ack (Header.ofByte aHeader) msgId)

/-- `MQTTPacket_connack`. -/
def packetConnack (aHeader : Byte) (data : List Byte) : Option (Option Pack) := do
  let (flags, rest) ← readChar? data
  let (rc, _) ← readChar? rest
  return some (.connack (Header.ofByte aHeader) flags rc)

/-- `MQTTPacket_suback`, whose loop reads all that is left. -/
def packetSuback (aHeader : Byte) (data : List Byte) : Option (Option Pack) :=
  (readInt? data).map fun (msgId, qoss) => some (.suback (Header.ofByte aHeader) msgId qoss)

/-- `MQTTPacket_header_only`. -/
def packetHeaderOnly (aHeader : Byte) (_data : List Byte) : Option (Option Pack) :=
  some (some (.headerOnly (Header.ofByte aHeader)))

/-- The types of acknowledgements with a message id only. -/
def acks : List (Fin 16) :=
  [MsgTypes.puback, MsgTypes.pubrec, MsgTypes.pubrel, MsgTypes.pubcomp, MsgTypes.unsuback]

/-- `new_packets`. -/
def newPackets (type : Fin 16) : Option (Byte → List Byte → Option (Option Pack)) :=
  if type = MsgTypes.connack then some packetConnack
  else if type = MsgTypes.publish then some packetPublish
  else if type ∈ acks then some packetAck
  else if type = MsgTypes.suback then some packetSuback
  else if type = MsgTypes.pingreq ∨ type = MsgTypes.pingresp ∨ type = MsgTypes.disconnect then
    some packetHeaderOnly
  else none

/-- What `MQTTPacket_Factory` makes of a whole packet. -/
inductive Built where
  | pack (p : Pack)
  /-- There is no function for the type: no packet, and no error. -/
  | unknown
  /-- `BAD_MQTT_PACKET`. -/
  | bad
  deriving DecidableEq

/-- The end of `MQTTPacket_Factory`, with the whole packet. -/
def build (header : Byte) (data : List Byte) : Option Built :=
  match newPackets (Header.ofByte header).type with
  | none => some .unknown
  | some new => (new header data).map fun pack => pack.elim .bad .pack

theorem readInt_writeInt {n : ℕ} (h : n < 65536) (rest : List Byte) :
    readInt? (writeInt n ++ rest) = some (n, rest) := by
  have value : 256 * (UInt8.ofNat (n / 256)).toNat + (UInt8.ofNat (n % 256)).toNat = n := by
    rw [UInt8.toNat_ofNat', UInt8.toNat_ofNat']
    omega
  show some (256 * (UInt8.ofNat (n / 256)).toNat + (UInt8.ofNat (n % 256)).toNat, rest) = _
  rw [value]

/-- A topic is read back if its length fits into two bytes; else what is read is shorter. -/
theorem readUTFlen_writeUTF (s : CStr) (rest : List Byte) :
    readUTFlen (writeUTF s ++ rest) =
      some ((s.bytes ++ rest).take (s.strlen % 65536), (s.bytes ++ rest).drop (s.strlen % 65536)) := by
  have value : 256 * (UInt8.ofNat (s.strlen / 256)).toNat + (UInt8.ofNat (s.strlen % 256)).toNat =
      s.strlen % 65536 := by
    rw [UInt8.toNat_ofNat', UInt8.toNat_ofNat']
    omega
  have fits : s.strlen % 65536 ≤ (s.bytes ++ rest).length := by
    rw [List.length_append]
    exact (Nat.mod_le _ _).trans (Nat.le_add_right _ _)
  have read : readInt? (writeUTF s ++ rest) = some (s.strlen % 65536, s.bytes ++ rest) := by
    rw [writeUTF, List.append_assoc]
    show some (256 * (UInt8.ofNat (s.strlen / 256)).toNat + (UInt8.ofNat (s.strlen % 256)).toNat,
      s.bytes ++ rest) = _
    rw [value]
  rw [readUTFlen, read]
  exact if_pos fits

/-- What the packet's header and the rest of it are read as. -/
def readPack (l : List Byte) : Option (Option Built × List Byte) :=
  match nextPacket l with
  | .frame (header, data) rest => some (build header data, rest)
  | _ => none

theorem readPack_sends (header : Header) (buffers : List (List Byte)) (rest : List Byte) :
    readPack ((packetSends header buffers).flatten ++ rest) =
      if buffers.flatten.length < 128 ^ 4 then
        some (build header.byte buffers.flatten, rest)
      else none := by
  rw [readPack, nextPacket_sends]
  split_ifs <;> rfl

theorem readPack_eq_some {l rest : List Byte} {built : Built} :
    readPack l = some (some built, rest) ↔
      ∃ f, nextPacket l = .frame f rest ∧ build f.1 f.2 = some built := by
  unfold readPack
  cases nextPacket l with
  | more => simp
  | bad => simp
  | frame f r =>
    simp only [Option.some.injEq, Prod.mk.injEq, Framing.Next.frame.injEq]
    constructor
    · rintro ⟨made, rfl⟩
      exact ⟨f, ⟨rfl, rfl⟩, made⟩
    · rintro ⟨_, ⟨rfl, rfl⟩, made⟩
      exact ⟨made, rfl⟩

/-- The buffers of a PUBLISH. -/
def publishBuffers (topic : CStr) (msgId : ℕ) (payload : List Byte) (qos : Fin 4) : List Byte :=
  writeUTF topic ++ ((if 0 < qos then writeInt msgId else []) ++ payload)

theorem sendPublish_eq (topic : CStr) (msgId : ℕ) (payload : List Byte) (dup : Bool)
    (qos : Fin 4) (retained : Bool) :
    ∃ buffers, sendPublish topic msgId payload dup qos retained =
        packetSends ⟨MsgTypes.publish, dup, qos, retained⟩ buffers ∧
      buffers.flatten = publishBuffers topic msgId payload qos := by
  unfold sendPublish publishBuffers writeUTF
  split_ifs
  · exact ⟨_, rfl, by simp⟩
  · exact ⟨_, rfl, by simp⟩

theorem length_publishBuffers (topic : CStr) (msgId : ℕ) (payload : List Byte) (qos : Fin 4) :
    (publishBuffers topic msgId payload qos).length =
      2 + topic.strlen + (if 0 < qos then 2 else 0) + payload.length := by
  unfold publishBuffers writeUTF
  split_ifs <;> simp [writeInt, CStr.strlen] <;> omega

theorem build_publish (header : Header) (h : header.type = MsgTypes.publish) (data : List Byte) :
    build header.byte data =
      (packetPublish header.byte data).map fun pack => pack.elim .bad .pack := by
  rw [build, Header.ofByte_byte, h]
  rfl

theorem build_publish_topic {header : Header} (h : header.type = MsgTypes.publish)
    {data : List Byte} {p : Publish} (built : build header.byte data = some (.pack (.publish p))) :
    ∃ rest, readUTFlen data = some (p.topic, rest) := by
  rw [build_publish header h, packetPublish] at built
  split at built
  · cases built
  next topic rest read =>
    refine ⟨rest, ?_⟩
    split_ifs at built
    · cases hid : readInt? rest with
      | none =>
        rw [hid] at built
        cases built
      | some r =>
        rw [hid] at built
        cases built
        exact read
    · cases built
      exact read

/-- A PUBLISH that fits into the format is read back. -/
theorem publish_read {topic : CStr} {msgId : ℕ} {payload : List Byte} {qos : Fin 4}
    (id : msgId < 65536) (short : topic.strlen < 65536)
    (fits : 2 + topic.strlen + (if 0 < qos then 2 else 0) + payload.length < 128 ^ 4) (dup : Bool)
    (retained : Bool) (rest : List Byte) :
    readPack ((sendPublish topic msgId payload dup qos retained).flatten ++ rest) =
      some (some (.pack (.publish ⟨⟨MsgTypes.publish, dup, qos, retained⟩, topic.bytes,
        if 0 < qos then msgId else 0, payload⟩)), rest) := by
  obtain ⟨buffers, sent, flat⟩ := sendPublish_eq topic msgId payload dup qos retained
  rw [sent, readPack_sends, flat, length_publishBuffers, if_pos fits]
  generalize hheader : (⟨MsgTypes.publish, dup, qos, retained⟩ : Header) = header
  have type : header.type = MsgTypes.publish := by rw [← hheader]
  have qosOf : header.qos = qos := by rw [← hheader]
  have mod : topic.strlen % 65536 = topic.bytes.length := Nat.mod_eq_of_lt short
  rw [build_publish header type, publishBuffers, packetPublish, readUTFlen_writeUTF, mod,
    List.take_left, List.drop_left, Header.ofByte_byte, qosOf]
  dsimp only
  split_ifs with hqos
  · rw [readInt_writeInt id]
    rfl
  · rfl

/-- A PUBLISH is read back as it was sent, whatever follows, exactly if the length of its topic fits
into two bytes and that of the packet into four groups of seven bits. -/
theorem publish_read_iff (topic : CStr) (msgId : ℕ) (payload : List Byte) (dup : Bool) (qos : Fin 4)
    (retained : Bool) (rest : List Byte) (id : msgId < 65536) :
    readPack ((sendPublish topic msgId payload dup qos retained).flatten ++ rest) =
        some (some (.pack (.publish ⟨⟨MsgTypes.publish, dup, qos, retained⟩, topic.bytes,
          if 0 < qos then msgId else 0, payload⟩)), rest) ↔
      topic.strlen < 65536 ∧
        2 + topic.strlen + (if 0 < qos then 2 else 0) + payload.length < 128 ^ 4 := by
  refine ⟨fun read => ?_, fun fits => publish_read id fits.1 fits.2 dup retained rest⟩
  obtain ⟨buffers, sent, flat⟩ := sendPublish_eq topic msgId payload dup qos retained
  rw [sent, readPack_sends, flat, length_publishBuffers] at read
  by_cases fits : 2 + topic.strlen + (if 0 < qos then 2 else 0) + payload.length < 128 ^ 4
  case neg =>
    rw [if_neg fits] at read
    cases read
  refine ⟨?_, fits⟩
  rw [if_pos fits] at read
  have built := (Prod.mk.inj (Option.some.inj read)).1
  obtain ⟨tail, found⟩ := build_publish_topic rfl built
  rw [publishBuffers, readUTFlen_writeUTF] at found
  have htopic : (topic.bytes ++ _).take (topic.strlen % 65536) = topic.bytes :=
    (Prod.mk.inj (Option.some.inj found)).1
  have short : topic.strlen ≤ topic.strlen % 65536 := by
    have len := congrArg List.length htopic
    rw [List.length_take] at len
    show topic.bytes.length ≤ _
    omega
  have small := Nat.mod_lt topic.strlen (show 0 < 65536 by omega)
  omega

/-- A message of two bytes on the topic `a`. -/
theorem publish_read_iff_sample :
    readPack ((sendPublish ⟨[97], by decide⟩ 9 [1, 2] false 2 true).flatten ++ [192]) =
      some (some (.pack (.publish ⟨⟨MsgTypes.publish, false, 2, true⟩, [97], 9, [1, 2]⟩)), [192]) :=
  (publish_read_iff ⟨[97], by decide⟩ 9 [1, 2] false 2 true [192] (by decide)).2
    ⟨by decide, by decide⟩

theorem newPackets_ack {type : Fin 16} (h : type ∈ acks) : newPackets type = some packetAck := by
  have apart : type ≠ MsgTypes.connack ∧ type ≠ MsgTypes.publish := by
    revert type
    decide
  rw [newPackets, if_neg apart.1, if_neg apart.2, if_pos h]

theorem ack_read (type : Fin 16) (msgid : ℕ) (dup : Bool) (rest : List Byte) (id : msgid < 65536)
    (ack : type ∈ acks) :
    readPack ((sendAck type msgid dup).flatten ++ rest) =
      some (some (.pack (.ack ⟨type, dup, if type = MsgTypes.pubrel then 1 else 0, false⟩ msgid)),
        rest) := by
  have short : [writeInt msgid].flatten.length < 128 ^ 4 := by
    show 2 < 128 ^ 4
    omega
  have read := readInt_writeInt id []
  rw [List.append_nil] at read
  rw [sendAck, packetSend, readPack_sends, if_pos short, List.flatten_singleton, build,
    Header.ofByte_byte]
  dsimp only
  rw [newPackets_ack ack]
  simp only [packetAck, read, Header.ofByte_byte, Option.map_some, Option.elim_some]

/-! ### The end of a packet -/

theorem readInt_eq_none_iff {data : List Byte} : readInt? data = none ↔ data.length < 2 := by
  match data with
  | [] => simp [readInt?]
  | [_] => simp [readInt?]
  | _ :: _ :: _ => simp [readInt?]

/-- A packet is read outside its end exactly if it is too short for the two bytes of an
acknowledgement, of CONNACK or of a message id, which nothing checks. -/
theorem read_outside_iff (header : Byte) (data : List Byte) :
    let h := Header.ofByte header
    build header data = none ↔
      (h.type ∈ acks ∨ h.type = MsgTypes.connack ∨ h.type = MsgTypes.suback) ∧ data.length < 2 ∨
        h.type = MsgTypes.publish ∧ 0 < h.qos ∧
          ∃ topic rest, readUTFlen data = some (topic, rest) ∧ rest.length < 2 := by
  intro h
  have built : build header data = none ↔ ∃ new, newPackets h.type = some new ∧
      new header data = none := by
    unfold build
    cases newPackets h.type with
    | none => simp
    | some new => simp
  rw [built]
  by_cases connack : h.type = MsgTypes.connack
  · have read : packetConnack header data = none ↔ data.length < 2 := by
      match data with
      | [] => simp [packetConnack, readChar?]
      | [_] => simp [packetConnack, readChar?]
      | _ :: _ :: _ => simp [packetConnack, readChar?]
    have apart : h.type ≠ MsgTypes.publish := by
      rw [connack]
      decide
    have new : newPackets h.type = some packetConnack := if_pos connack
    simp [new, read, eq_true connack, eq_false apart]
  by_cases publish : h.type = MsgTypes.publish
  · have read : packetPublish header data = none ↔ 0 < h.qos ∧
        ∃ topic rest, readUTFlen data = some (topic, rest) ∧ rest.length < 2 := by
      unfold packetPublish
      cases hutf : readUTFlen data with
      | none => simp
      | some r =>
        obtain ⟨topic, rest⟩ := r
        by_cases hqos : 0 < h.qos
        · simp [h, hqos, readInt_eq_none_iff]
        · simp [h, hqos]
    have apart : h.type ∉ acks ∧ h.type ≠ MsgTypes.suback := by
      rw [publish]
      decide
    have new : newPackets h.type = some packetPublish := by
      rw [newPackets, if_neg connack, if_pos publish]
    simp [new, read, eq_true publish, connack, apart.1, apart.2]
  by_cases ack : h.type ∈ acks
  · have read : packetAck header data = none ↔ data.length < 2 := by
      simp [packetAck, readInt_eq_none_iff]
    simp [newPackets_ack ack, ack, publish, read]
  by_cases suback : h.type = MsgTypes.suback
  · have read : packetSuback header data = none ↔ data.length < 2 := by
      simp [packetSuback, readInt_eq_none_iff]
    have new : newPackets h.type = some packetSuback := by
      rw [newPackets, if_neg connack, if_neg publish, if_neg ack, if_pos suback]
    simp [new, read, eq_true suback, publish]
  · simp only [newPackets, if_neg connack, if_neg publish, if_neg ack, if_neg suback]
    split_ifs <;> simp [connack, publish, ack, suback, packetHeaderOnly]

end Siproxy.Mqtt
