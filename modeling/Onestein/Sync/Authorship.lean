import Onestein.Identity.Authenticity
import Onestein.Sync.Message

/-!
# Who wrote a message

The device key signs a hash of the message identifier, which is a hash of every other field and of
the hash of the body. If the key signed nothing but messages and the hash has no collision among
what was hashed, then a message that verifies is one that was signed, in every field.

## Main definitions

* `MessageId.derive`, `bodyHash` — the identifier of a message.
* `Message.toSign`, `SignedMessage.verify` — what a device signs, and the check of a signature.
* `hashInputs`, `signedMessages` — what is hashed and what is signed for some messages.

## Main results

* `toSign_injective` — what is signed names one message.
* `authored` — only messages that were signed verify.
-/

namespace Onestein.Sync

open Crypto Identity

def groupIdLabel : Bytes := Bytes.utf8 "org.onestein.sync/GROUP_ID"

def messageBlockLabel : Bytes := Bytes.utf8 "org.onestein.sync/MESSAGE_BLOCK"

def messageIdLabel : Bytes := Bytes.utf8 "org.onestein.sync/MESSAGE_ID"

/-- Label for what a device key signs over a message identifier. -/
def messageSignatureLabel : Bytes := Bytes.utf8 "org.onestein.sync/MESSAGE_SIGNATURE"

/-- The longest group descriptor. -/
def maxGroupDescriptorLen : Nat := 16 * 1024

section Derivation

variable [Blake2b]

/-- Derives the identifier of a group. -/
def GroupId.derive (clientId : String) (clientMajorVersion : UInt32) (groupDescriptor : Bytes) :
    Except Error GroupId :=
  if maxGroupDescriptorLen < groupDescriptor.length then
    .error (.groupDescriptorTooLong groupDescriptor.length)
  else
    .ok ⟨hash [groupIdLabel, [syncVersion], Bytes.utf8 clientId,
      Bytes.be 4 clientMajorVersion.toNat, groupDescriptor]⟩

/-- Hashes a message body on its own, so that a device can keep the position of a message
whose body it deleted. -/
def bodyHash (body : Bytes) : Except Error Digest :=
  if maxMessageBodyLen < body.length then .error (.messageBodyTooLong body.length)
  else .ok (hash [messageBlockLabel, [syncVersion], body])

/-- Derives the identifier of a message. -/
def MessageId.derive (group : GroupId) (timestampMs : UInt64) (author : IdentityId)
    (authorDeviceKey body : Bytes) : Except Error MessageId := do
  let bodyHash ← bodyHash body
  .ok ⟨hash [messageIdLabel, [syncVersion], group.bytes.toList, Bytes.be 8 timestampMs.toNat,
    author.bytes.toList, authorDeviceKey, bodyHash.toList]⟩

/-- The message identifier. -/
def Message.id (message : Message) : Except Error MessageId :=
  MessageId.derive message.groupId message.timestampMs message.author message.deviceKey.toList
    message.body

/-- What the device key signs. -/
def Message.toSign (message : Message) : Except Error Digest := do
  let id ← message.id
  .ok (hash [messageSignatureLabel, [syncVersion], id.bytes.toList])

/-- Checks the signature against the device key the message names. -/
def SignedMessage.verify [Ed25519] (signed : SignedMessage) : Except Error Unit :=
  if Ed25519.isKey signed.message.deviceKey then do
    let toSign ← signed.message.toSign
    if Ed25519.verify signed.message.deviceKey toSign.toList signed.signature then .ok ()
    else .error .badSignature
  else .error .badSignature

/-! ## What is hashed and what is signed -/

/-- What the hash of the body is taken of. -/
def Message.blockParts (message : Message) : List Bytes :=
  [messageBlockLabel, [syncVersion], message.body]

/-- What the identifier is the hash of. -/
def Message.idParts (message : Message) : List Bytes :=
  [messageIdLabel, [syncVersion], message.groupId.bytes.toList,
    Bytes.be 8 message.timestampMs.toNat, message.author.bytes.toList, message.deviceKey.toList,
    (hash message.blockParts : Digest).toList]

/-- What is hashed to be signed. -/
def Message.signParts (message : Message) : List Bytes :=
  [messageSignatureLabel, [syncVersion], (hash message.idParts : Digest).toList]

/-- Everything that is hashed when the messages are signed or verified. -/
def hashInputs (M : Set Message) : Set Bytes :=
  {input | ∃ m ∈ M, input = frame m.blockParts ∨ input = frame m.idParts ∨
    input = frame m.signParts}

/-- What is signed for the messages. -/
def signedMessages (M : Set Message) : Set Bytes :=
  {message | ∃ m ∈ M, ∃ toSign, m.toSign = .ok toSign ∧ message = toSign.toList}

variable {message other : Message} {toSign : Digest}

theorem Message.toSign_eq_ok : message.toSign = .ok toSign ↔
    message.body.length ≤ maxMessageBodyLen ∧ (hash message.signParts : Digest) = toSign := by
  by_cases hbody : maxMessageBodyLen < message.body.length
  · have herror : message.toSign = .error (.messageBodyTooLong message.body.length) := by
      simp [Message.toSign, id, MessageId.derive, bodyHash, hbody, Bind.bind, Except.bind]
    simp [herror, hbody]
  · have hok : message.toSign = .ok (hash message.signParts) := by
      simp [Message.toSign, id, MessageId.derive, bodyHash, hbody, signParts, idParts, blockParts]
    simp [hok, Nat.le_of_not_lt hbody]

omit [Blake2b] in
theorem Message.length_blockParts (h : message.body.length ≤ maxMessageBodyLen) :
    ∀ part ∈ message.blockParts, part.length < maxPart := by
  have hbody : message.body.length < maxPart := by
    unfold maxMessageBodyLen at h
    unfold maxPart
    omega
  have hlabel : messageBlockLabel.length < maxPart := by decide
  simp [blockParts, hlabel, hbody]
  decide

theorem Message.length_idParts : ∀ part ∈ message.idParts, part.length < maxPart := by
  have hlabel : messageIdLabel.length < maxPart := by decide
  simp [idParts, hlabel]
  decide

theorem Message.length_signParts : ∀ part ∈ message.signParts, part.length < maxPart := by
  have hlabel : messageSignatureLabel.length < maxPart := by decide
  simp [signParts, hlabel]
  decide

/-- What is signed names one message, in every field. -/
theorem toSign_injective (hcol : Set.InjOn Blake2b.digest (hashInputs {message, other}))
    (h : message.toSign = .ok toSign) (hother : other.toSign = .ok toSign) : message = other := by
  obtain ⟨hbody, hsign⟩ := Message.toSign_eq_ok.mp h
  obtain ⟨hbody', hsign'⟩ := Message.toSign_eq_ok.mp hother
  have hid : message.signParts = other.signParts := by
    apply hash_injective hcol ⟨message, by simp, by simp⟩ ⟨other, by simp, by simp⟩
      Message.length_signParts Message.length_signParts
    exact hsign.trans hsign'.symm
  simp only [Message.signParts, List.cons.injEq, Vector.toList_inj, and_true, true_and] at hid
  have hfields : message.idParts = other.idParts :=
    hash_injective hcol ⟨message, by simp, by simp⟩ ⟨other, by simp, by simp⟩
      Message.length_idParts Message.length_idParts hid
  simp only [Message.idParts, List.cons.injEq, GroupId.toList_bytes_inj,
    IdentityId.toList_bytes_inj, and_true, true_and] at hfields
  obtain ⟨hgroup, htimestamp, hauthor, hdevice, hblock⟩ := hfields
  have htime : message.timestampMs = other.timestampMs := Bytes.be_toNat_injective htimestamp
  have hblocks : message.blockParts = other.blockParts :=
    hash_injective hcol ⟨message, by simp, by simp⟩ ⟨other, by simp, by simp⟩
      (Message.length_blockParts hbody) (Message.length_blockParts hbody')
      (Vector.toList_inj.mp hblock)
  simp only [Message.blockParts, List.cons.injEq, and_true, true_and] at hblocks
  exact Message.ext hgroup htime hauthor (Vector.toList_inj.mp hdevice) hblocks

theorem SignedMessage.verify_eq_ok [Ed25519] {signed : SignedMessage} :
    signed.verify = .ok () ↔ Ed25519.isKey signed.message.deviceKey ∧
      ∃ toSign, signed.message.toSign = .ok toSign ∧
        Ed25519.verify signed.message.deviceKey toSign.toList signed.signature := by
  simp [verify, Except.ite_eq_ok, Except.bind_eq_ok]

/-- A message that verifies under a device key that signed nothing but the messages in `M` is one
of them. The hash is collision-free on what signer and verifier feed it; which bytes arrived, or
where they came from, does not matter. -/
theorem authored [Ed25519] (key : Octets hashLen) (M : Set Message) (payload : Bytes)
    (signed : SignedMessage) (hdecode : decodeMessage payload = .ok signed)
    (hkey : signed.message.deviceKey = key)
    (hcollision : Set.InjOn Blake2b.digest (hashInputs (insert signed.message M)))
    (hideal : Ed25519.Ideal key (signedMessages M)) (hverify : signed.verify = .ok ()) :
    signed.message ∈ M ∧ signed.message.encode signed.signature = .ok payload := by
  refine ⟨?_, encode_of_decodeMessage hdecode⟩
  obtain ⟨-, toSign, hsign, hsignature⟩ := SignedMessage.verify_eq_ok.mp hverify
  rw [hkey] at hsignature
  obtain ⟨m, hm, toSign', hsign', htoSign⟩ := hideal _ _ hsignature
  obtain rfl := Vector.toList_inj.mp htoSign
  have hsub : hashInputs {signed.message, m} ⊆ hashInputs (insert signed.message M) := by
    rintro input ⟨n, rfl | rfl, hinput⟩
    · exact ⟨_, by simp, hinput⟩
    · exact ⟨_, by simp [hm], hinput⟩
  rw [toSign_injective (hcollision.mono hsub) hsign hsign']
  exact hm

end Derivation

/-! ## A signed message -/

namespace Sample

attribute [local instance] checksum

def message : Message :=
  ⟨⟨.replicate 32 0x11⟩, 1600000000000, ⟨.replicate 32 0x22⟩, .replicate 32 0x33,
    Bytes.utf8 "hello"⟩

/-- What the device key signs for it. -/
def toSign : Digest := hash message.signParts

local instance : Ed25519 := Identity.Sample.ed25519 [toSign.toList]

def signed : SignedMessage := ⟨message, Ed25519.sign message.deviceKey toSign.toList⟩

def payload : Bytes := (message.encode signed.signature).toOption.getD []

theorem toSign_message : message.toSign = .ok toSign :=
  Message.toSign_eq_ok.mpr ⟨by decide, rfl⟩

theorem mem_signed {d : Bytes} : d ∈ [toSign.toList] ↔ d ∈ signedMessages {message} := by
  rw [List.mem_singleton]
  constructor
  · rintro rfl
    exact ⟨message, rfl, toSign, toSign_message, rfl⟩
  · rintro ⟨_, rfl, toSign', hsign, rfl⟩
    rw [Except.ok.inj (toSign_message.symm.trans hsign)]

theorem injOn_hashInputs : Set.InjOn Blake2b.digest (hashInputs (insert message {message})) := by
  have hsub : hashInputs (insert message {message}) ⊆
      {frame message.blockParts, frame message.idParts, frame message.signParts} := by
    rintro input ⟨m, hm, hinput⟩
    obtain rfl : m = message := by simpa using hm
    exact hinput
  have h₁ : Blake2b.digest (frame message.blockParts) ≠
      Blake2b.digest (frame message.idParts) := by decide +kernel
  have h₂ : Blake2b.digest (frame message.blockParts) ≠
      Blake2b.digest (frame message.signParts) := by decide +kernel
  have h₃ : Blake2b.digest (frame message.idParts) ≠
      Blake2b.digest (frame message.signParts) := by decide +kernel
  refine Set.InjOn.mono hsub ?_
  rintro x (rfl | rfl | rfl) y (rfl | rfl | rfl) h <;> simp_all

/-- A message that was signed verifies, and is the one that was signed. -/
theorem authored_message : signed.verify = .ok () ∧ signed.message ∈ ({message} : Set Message) ∧
    signed.message.encode signed.signature = .ok payload := by
  have hencode : message.encode signed.signature = .ok payload := by
    obtain ⟨b, hb⟩ : ∃ b, message.encode signed.signature = .ok b :=
      ⟨_, Message.encode_eq_ok.mpr ⟨by decide, rfl⟩⟩
    simp [payload, hb, Except.toOption]
  have hideal : Ed25519.Ideal message.deviceKey (signedMessages {message}) :=
    fun _ _ h => mem_signed.mp (of_decide_eq_true (Bool.and_eq_true_iff.mp h).1)
  have hverify : signed.verify = .ok () := by
    have hmem : toSign.toList ∈ [toSign.toList] := List.mem_singleton.mpr rfl
    have hsignature : Ed25519.verify message.deviceKey toSign.toList signed.signature :=
      Bool.and_eq_true_iff.mpr ⟨decide_eq_true hmem, beq_self_eq_true _⟩
    exact SignedMessage.verify_eq_ok.mpr ⟨rfl, toSign, toSign_message, hsignature⟩
  exact ⟨hverify, authored message.deviceKey {message} payload signed
    (decodeMessage_encode hencode) rfl injOn_hashInputs hideal hverify⟩

end Sample

end Onestein.Sync
