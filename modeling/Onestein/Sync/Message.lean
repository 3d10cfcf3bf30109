import Onestein.Identity.Identifier
import Onestein.Lib.Fallible

/-!
# Messages

A message names its group, its author and the device that signs it. The payload of a MESSAGE
record is a header of fixed length, then the body.

## Main definitions

* `Message.encode`, `decodeMessage` — the payload of a MESSAGE record.

## Main results

* `decodeMessage_encode` — a message that was written is read back.
* `encode_of_decodeMessage` — what was read is what would be written.
-/

namespace Onestein.Sync

open Crypto Identity

/-- Sync layer version. -/
def syncVersion : UInt8 := 1

/-- The longest message body. -/
def maxMessageBodyLen : Nat := 32 * 1024

/-- Length of an Ed25519 signature. -/
abbrev signatureLen : Nat := 64

/-- Length of a message payload before the body. -/
def messageHeaderLen : Nat := hashLen + 8 + hashLen + hashLen + signatureLen

/-- Why a group or message could not be named, or a record not written or read. -/
inductive Error where
  | groupDescriptorTooLong (given : Nat)
  | messageBodyTooLong (given : Nat)
  | malformed
  | badSignature
  deriving DecidableEq

/-- A group identifier. -/
structure GroupId where
  bytes : Digest
  deriving DecidableEq

@[simp] theorem GroupId.toList_bytes_inj {a b : GroupId} :
    a.bytes.toList = b.bytes.toList ↔ a = b := by
  rw [Vector.toList_inj]
  cases a
  cases b
  simp

/-- A message identifier. -/
structure MessageId where
  bytes : Digest
  deriving DecidableEq

/-- A message, before or after signing. -/
@[ext] structure Message where
  groupId : GroupId
  timestampMs : UInt64
  author : IdentityId
  deviceKey : Octets hashLen
  body : Bytes
  deriving DecidableEq

/-- A message with the signature that was sent with it, not yet checked. -/
structure SignedMessage where
  message : Message
  signature : Octets signatureLen
  deriving DecidableEq

/-- Writes the payload of a MESSAGE record. -/
def Message.encode (message : Message) (signature : Octets signatureLen) : Except Error Bytes :=
  if maxMessageBodyLen < message.body.length then
    .error (.messageBodyTooLong message.body.length)
  else
    .ok (message.groupId.bytes.toList ++ (Bytes.be 8 message.timestampMs.toNat ++
      (message.author.bytes.toList ++ (message.deviceKey.toList ++
        (signature.toList ++ message.body)))))

/-- The `n` bytes of a payload at an offset. -/
def fixed (n : Nat) (payload : Bytes) (offset : Nat) : Except Error (Octets n) := do
  let bytes ← (payload.slice? offset (offset + n)).okOr .malformed
  (Octets.ofBytes? bytes).okOr .malformed

/-- Reads the payload of a MESSAGE record. -/
def decodeMessage (payload : Bytes) : Except Error SignedMessage := do
  let body ← (payload.slice? messageHeaderLen payload.length).okOr .malformed
  if maxMessageBodyLen < body.length then .error .malformed else
  let groupId ← fixed hashLen payload 0
  let timestamp ← fixed 8 payload hashLen
  let author ← fixed hashLen payload (hashLen + 8)
  let deviceKey ← fixed hashLen payload (hashLen + 8 + hashLen)
  let signature ← fixed signatureLen payload (hashLen * 3 + 8)
  .ok {
    message := {
      groupId := ⟨groupId⟩
      timestampMs := UInt64.ofNat (Bytes.val timestamp.toList)
      author := ⟨author⟩
      deviceKey := deviceKey
      body := body }
    signature := signature }

theorem fixed_eq_ok {n : Nat} {payload : Bytes} {v : Octets n} {offset : Nat} :
    fixed n payload offset = .ok v ↔ Octets.slice? n payload offset = some v := by
  simp [fixed, Octets.slice?, Except.bind_eq_ok, Option.bind_eq_some_iff]

theorem fixed_append {n : Nat} {payload a c : Bytes} {v : Octets n} {offset : Nat}
    (h : payload = a ++ (v.toList ++ c)) (hoffset : a.length = offset) :
    fixed n payload offset = .ok v :=
  fixed_eq_ok.mpr (Octets.slice?_append h hoffset)

theorem Message.encode_eq_ok {message : Message} {signature : Octets signatureLen}
    {payload : Bytes} : message.encode signature = .ok payload ↔
      message.body.length ≤ maxMessageBodyLen ∧
      message.groupId.bytes.toList ++ (Bytes.be 8 message.timestampMs.toNat ++
        (message.author.bytes.toList ++ (message.deviceKey.toList ++
          (signature.toList ++ message.body)))) = payload := by
  rw [encode, Except.ite_error_eq_ok, Nat.not_lt, Except.ok.injEq]

/-- A message that was written is read back. -/
theorem decodeMessage_encode {message : Message} {signature : Octets signatureLen} {payload : Bytes}
    (h : message.encode signature = .ok payload) :
    decodeMessage payload = .ok ⟨message, signature⟩ := by
  obtain ⟨hbody, hpayload⟩ := Message.encode_eq_ok.mp h
  have hbody' : payload.slice? messageHeaderLen payload.length = some message.body := by
    refine Bytes.slice?_append (a := message.groupId.bytes.toList ++
      (Bytes.be 8 message.timestampMs.toNat ++ (message.author.bytes.toList ++
        (message.deviceKey.toList ++ signature.toList)))) (c := []) ?_ ?_ ?_
    · simp [← hpayload]
    · simp [messageHeaderLen, hashLen, signatureLen]
    · simp [← hpayload, messageHeaderLen, Nat.add_assoc]
  have hgroup : fixed hashLen payload 0 = .ok message.groupId.bytes :=
    fixed_append (a := []) hpayload.symm rfl
  have htimestamp : fixed 8 payload hashLen = .ok (Octets.be 8 message.timestampMs.toNat) :=
    fixed_append (a := message.groupId.bytes.toList) hpayload.symm (by simp)
  have hauthor : fixed hashLen payload (hashLen + 8) = .ok message.author.bytes := by
    have hsplit : payload = (message.groupId.bytes.toList ++
        Bytes.be 8 message.timestampMs.toNat) ++ (message.author.bytes.toList ++
          (message.deviceKey.toList ++ (signature.toList ++ message.body))) := by simp [← hpayload]
    exact fixed_append hsplit (by simp)
  have hdevice : fixed hashLen payload (hashLen + 8 + hashLen) = .ok message.deviceKey := by
    have hsplit : payload = (message.groupId.bytes.toList ++
        (Bytes.be 8 message.timestampMs.toNat ++ message.author.bytes.toList)) ++
          (message.deviceKey.toList ++ (signature.toList ++ message.body)) := by simp [← hpayload]
    exact fixed_append hsplit (by simp [hashLen])
  have hsignature : fixed signatureLen payload (hashLen * 3 + 8) = .ok signature := by
    have hsplit : payload = (message.groupId.bytes.toList ++
        (Bytes.be 8 message.timestampMs.toNat ++ (message.author.bytes.toList ++
          message.deviceKey.toList))) ++ (signature.toList ++ message.body) := by simp [← hpayload]
    exact fixed_append hsplit (by simp [hashLen])
  have hval : Bytes.val (Octets.be 8 message.timestampMs.toNat).toList =
      message.timestampMs.toNat := Bytes.val_be_of_lt message.timestampMs.toNat_lt
  rw [decodeMessage, hbody']
  simp [hbody.not_gt, hgroup, htimestamp, hauthor, hdevice, hsignature, hval]

/-- One field after the other is taken off the payload. -/
theorem take_fixed {n : Nat} {payload a : Bytes} {v : Octets n} {offset : Nat}
    (h : fixed n payload offset = .ok v) (ha : payload.take offset = a) :
    payload.take (offset + n) = a ++ v.toList :=
  Octets.take_slice? (fixed_eq_ok.mp h) ha

/-- What was read is what would be written: no other payload is read as the same message. -/
theorem encode_of_decodeMessage {payload : Bytes} {signed : SignedMessage}
    (h : decodeMessage payload = .ok signed) :
    signed.message.encode signed.signature = .ok payload := by
  unfold decodeMessage at h
  obtain ⟨body, hbody, h⟩ := Except.bind_eq_ok.mp h
  obtain ⟨hlen, h⟩ := Except.ite_error_eq_ok.mp h
  obtain ⟨group, hgroup, h⟩ := Except.bind_eq_ok.mp h
  obtain ⟨timestamp, htimestamp, h⟩ := Except.bind_eq_ok.mp h
  obtain ⟨author, hauthor, h⟩ := Except.bind_eq_ok.mp h
  obtain ⟨device, hdevice, h⟩ := Except.bind_eq_ok.mp h
  obtain ⟨signature, hsignature, h⟩ := Except.bind_eq_ok.mp h
  obtain rfl := Except.ok.inj h
  have h₁ := take_fixed hgroup List.take_zero
  have h₂ := take_fixed htimestamp h₁
  have h₃ := take_fixed hauthor h₂
  have h₄ := take_fixed hdevice h₃
  have hoffset : fixed signatureLen payload (hashLen + 8 + hashLen + hashLen) = .ok signature :=
    hsignature
  have h₅ := take_fixed hoffset h₄
  have hpayload : payload.take messageHeaderLen ++ body = payload := by
    simpa using Bytes.take_append_slice? (Option.okOr_eq_ok.mp hbody)
  have hval : Bytes.be 8 (UInt64.ofNat (Bytes.val timestamp.toList)).toNat = timestamp.toList := by
    have hlt : Bytes.val timestamp.toList < 2 ^ 64 := by
      simpa using Bytes.val_lt timestamp.toList
    have hbe := Bytes.be_val timestamp.toList
    rw [Vector.length_toList] at hbe
    rw [UInt64.toNat_ofNat', Nat.mod_eq_of_lt hlt, hbe]
  refine Message.encode_eq_ok.mpr ⟨Nat.le_of_not_lt hlen, ?_⟩
  have hheader : payload.take messageHeaderLen = group.toList ++ timestamp.toList ++
      author.toList ++ device.toList ++ signature.toList := h₅
  rw [hval, ← hpayload, hheader]
  simp only [List.append_assoc]

end Onestein.Sync
