import Onestein.Contact.Rendezvous
import Onestein.Relay.Store
import Onestein.Sync.Authorship

/-!
# What is hashed

Every layer hashes, each for its own purposes and under its own labels. No two purposes have a label
in common, and for each of them the arguments are fixed by what is fed to BLAKE2b. So a digest of
one layer is none of another one.

## Main definitions

* `Hashed` — what the stack hashes, with its arguments.
* `Hashed.parts` — the arguments as they are framed.

## Main results

* `Hashed.eq_of_frame_eq` — what is fed the same is the same.
* `Hashed.digests_apart` — the functions that hash, and when two of their digests are the same.
-/

namespace Onestein

open Crypto
open Contact (contactKeyLen)
open Handshake (Secrets Transcript)
open Identity (IdentityId)
open Sync (GroupId MessageId)

/-- What a hash is for. -/
inductive HashPurpose where
  | identityId
  | certificate
  | revocation
  | bundle
  | rendezvous
  | rootKey
  | groupId
  | messageBlock
  | messageId
  | messageSignature
  | blob
  deriving DecidableEq

namespace HashPurpose

def label : HashPurpose → Bytes
  | identityId => Identity.identityIdLabel
  | certificate => Identity.certificateLabel
  | revocation => Identity.revocationLabel
  | bundle => Contact.bundleLabel
  | rendezvous => Contact.rendezvousLabel
  | rootKey => Handshake.rootKeyLabel
  | groupId => Sync.groupIdLabel
  | messageBlock => Sync.messageBlockLabel
  | messageId => Sync.messageIdLabel
  | messageSignature => Sync.messageSignatureLabel
  | blob => Relay.blobLabel

/-- All purposes. -/
def all : List HashPurpose :=
  [identityId, certificate, revocation, bundle, rendezvous, rootKey, groupId, messageBlock,
    messageId, messageSignature, blob]

theorem mem_all (purpose : HashPurpose) : purpose ∈ all := by
  cases purpose <;> decide

/-- No two purposes have a label in common. -/
theorem label_injective : Function.Injective label := by
  have hall : ∀ p ∈ all, ∀ q ∈ all, p.label = q.label → p = q := by decide +kernel
  exact fun p q => hall p (mem_all p) q (mem_all q)

theorem length_label_lt (purpose : HashPurpose) : purpose.label.length < maxPart := by
  have hall : ∀ p ∈ all, p.label.length < maxPart := by decide +kernel
  exact hall purpose (mem_all purpose)

end HashPurpose

/-- What the stack hashes: the root keys of an identity, the encodings of its statements and of a
bundle, a shared secret with two commitments, a handshake, a group, a message and its body, and a
blob. -/
inductive Hashed where
  | identityId (rootEd25519 : Octets 32) (rootMldsa : Octets 1952)
  | certificate (encoded : Bytes)
  | revocation (encoded : Bytes)
  | bundle (encoded : Bytes)
  | rendezvous (shared : Octets contactKeyLen) (commitmentA commitmentB : Digest)
  | rootKey (secrets : Secrets) (transcript : Transcript)
  | groupId (clientId : String) (clientMajorVersion : UInt32) (groupDescriptor : Bytes)
  | messageBlock (body : Bytes)
  | messageId (group : GroupId) (timestampMs : UInt64) (author : IdentityId)
      (deviceKey : Octets 32) (bodyHash : Digest)
  | messageSignature (id : MessageId)
  | blob (bytes : Bytes)

namespace Hashed

def purpose : Hashed → HashPurpose
  | identityId .. => .identityId
  | certificate _ => .certificate
  | revocation _ => .revocation
  | bundle _ => .bundle
  | rendezvous .. => .rendezvous
  | rootKey .. => .rootKey
  | groupId .. => .groupId
  | messageBlock _ => .messageBlock
  | messageId .. => .messageId
  | messageSignature _ => .messageSignature
  | blob _ => .blob

/-- The arguments behind the label. -/
def rest : Hashed → List Bytes
  | identityId rootEd25519 rootMldsa =>
    [[Identity.identityVersion], rootEd25519.toList, rootMldsa.toList]
  | certificate encoded | revocation encoded => [encoded]
  | bundle encoded => [[Contact.contactVersion], encoded]
  | rendezvous shared commitmentA commitmentB =>
    (Contact.rendezvousParts shared commitmentA commitmentB).tail
  | rootKey secrets transcript => (Handshake.rootParts secrets transcript).tail
  | groupId clientId clientMajorVersion groupDescriptor =>
    [[Sync.syncVersion], Bytes.utf8 clientId, Bytes.be 4 clientMajorVersion.toNat, groupDescriptor]
  | messageBlock body => [[Sync.syncVersion], body]
  | messageId group timestampMs author deviceKey bodyHash =>
    [[Sync.syncVersion], group.bytes.toList, Bytes.be 8 timestampMs.toNat, author.bytes.toList,
      deviceKey.toList, bodyHash.toList]
  | messageSignature id => [[Sync.syncVersion], id.bytes.toList]
  | blob bytes => [[Relay.relayVersion], bytes]

/-- The arguments as they are framed. -/
def parts (hashed : Hashed) : List Bytes := hashed.purpose.label :: hashed.rest

/-- The name of a client is no longer than the framing can tell. -/
def Fits : Hashed → Prop
  | groupId clientId _ _ => (Bytes.utf8 clientId).length < maxPart
  | _ => True

/-- Where all arguments but the last are of one length, the last may be of any. -/
theorem frame_version_injective {version : UInt8} {p q : Bytes}
    (h : frame [[version], p] = frame [[version], q]) : p = q :=
  frame_concat_injective [[version]] h

theorem groupId_rest_injective {clientId clientId' : String} {version version' : UInt32}
    {descriptor descriptor' : Bytes} (hfit : (groupId clientId version descriptor).Fits)
    (hfit' : (groupId clientId' version' descriptor').Fits)
    (h : frame (groupId clientId version descriptor).rest =
      frame (groupId clientId' version' descriptor').rest) :
    groupId clientId version descriptor = groupId clientId' version' descriptor' := by
  obtain ⟨-, h⟩ := frame_cons_injective (by decide) (by decide) h
  obtain ⟨hclient, h⟩ := frame_cons_injective hfit hfit' h
  obtain ⟨hversion, h⟩ := frame_cons_injective (by simp; decide) (by simp; decide) h
  rw [Bytes.utf8_injective hclient, UInt32.toNat_inj.mp (Bytes.be_injective version.toNat_lt
    version'.toNat_lt hversion), frame_concat_injective [] h]

/-- For one purpose, the arguments are fixed by what is fed behind the label. -/
theorem rest_injective {u v : Hashed} (hu : u.Fits) (hv : v.Fits) (hpurpose : u.purpose = v.purpose)
    (h : frame u.rest = frame v.rest) : u = v := by
  cases u <;> cases v <;> cases hpurpose
  case identityId.refl =>
    have hrest := frame_injective (by simp [rest]; decide) (by simp [rest]; decide) h
    simpa [rest, Vector.toList_inj] using hrest
  case certificate.refl | revocation.refl => rw [frame_concat_injective [] h]
  case bundle.refl | messageBlock.refl | blob.refl => rw [frame_version_injective h]
  case rendezvous.refl =>
    have hparts := Contact.rendezvousParts_injective (congrArg (frame [_] ++ ·) h)
    simpa using hparts
  case rootKey.refl =>
    have hparts := frame_injective (Handshake.length_rootParts _ _)
      (Handshake.length_rootParts _ _) (congrArg (frame [Handshake.rootKeyLabel] ++ ·) h)
    simpa using Handshake.rootParts_injective hparts
  case groupId.refl => exact groupId_rest_injective hu hv h
  case messageId.refl =>
    have hrest := frame_injective (by simp [rest]; decide) (by simp [rest]; decide) h
    simp only [rest, List.cons.injEq, GroupId.toList_bytes_inj, IdentityId.toList_bytes_inj,
      and_true, true_and] at hrest
    obtain ⟨rfl, htimestamp, rfl, hkey, hhash⟩ := hrest
    rw [Bytes.be_toNat_injective htimestamp, Vector.toList_inj.mp hkey, Vector.toList_inj.mp hhash]
  case messageSignature.refl id id' =>
    have hrest := frame_injective (by simp [rest]; decide) (by simp [rest]; decide) h
    obtain rfl : id = id' := by
      cases id
      cases id'
      simpa [rest, Vector.toList_inj] using hrest
    rfl

/-- What is fed the same is the same: for one purpose, and with the same arguments. -/
theorem eq_of_frame_eq {u v : Hashed} (hu : u.Fits) (hv : v.Fits)
    (h : frame u.parts = frame v.parts) : u = v := by
  obtain ⟨hlabel, hrest⟩ :=
    frame_cons_injective (HashPurpose.length_label_lt _) (HashPurpose.length_label_lt _) h
  exact rest_injective hu hv (HashPurpose.label_injective hlabel) hrest

section Digests

variable [Blake2b]

/-- The digest. -/
def digest (hashed : Hashed) : Digest := hash hashed.parts

theorem derive_identityId {rootEd25519 rootMldsa : Bytes} {id : IdentityId}
    (h : IdentityId.derive rootEd25519 rootMldsa = .ok id) :
    ∃ ed mldsa, ed.toList = rootEd25519 ∧ mldsa.toList = rootMldsa ∧
      id.bytes = (identityId ed mldsa).digest := by
  rw [IdentityId.derive, Except.ite_error_eq_ok, Except.ite_error_eq_ok, not_not, not_not] at h
  obtain ⟨hed, hmldsa, hid⟩ := h
  obtain ⟨ed, rfl⟩ := Octets.exists_toList hed
  obtain ⟨mldsa, rfl⟩ := Octets.exists_toList hmldsa
  exact ⟨ed, mldsa, rfl, rfl, congrArg IdentityId.bytes (Except.ok.inj hid).symm⟩

theorem id_message {message : Sync.Message} {id : MessageId} (h : message.id = .ok id) :
    Sync.bodyHash message.body = .ok (messageBlock message.body).digest ∧
      id.bytes = (messageId message.groupId message.timestampMs message.author message.deviceKey
        (messageBlock message.body).digest).digest ∧
      message.toSign = .ok (messageSignature id).digest := by
  have hsign : message.toSign = .ok (messageSignature id).digest := by
    rw [Sync.Message.toSign, h]
    rfl
  obtain ⟨bodyHash, hbody, hid⟩ := Except.bind_eq_ok.mp h
  have hblock : Sync.bodyHash message.body = .ok (messageBlock message.body).digest := by
    rw [Sync.bodyHash, Except.ite_error_eq_ok] at hbody ⊢
    exact ⟨hbody.1, rfl⟩
  obtain rfl := Except.ok.inj (hblock.symm.trans hbody)
  exact ⟨hblock, congrArg MessageId.bytes (Except.ok.inj hid).symm, hsign⟩

/-- The functions of the layers hash what is theirs; and where the hash has no collision, two of
their digests are the same only for the same purpose and the same arguments. -/
theorem digests_apart :
    (∀ rootEd25519 rootMldsa : Bytes, ∀ id, IdentityId.derive rootEd25519 rootMldsa = .ok id →
      ∃ ed mldsa, ed.toList = rootEd25519 ∧ mldsa.toList = rootMldsa ∧
        id.bytes = (identityId ed mldsa).digest) ∧
    (∀ certificate : Identity.DeviceCertificate, ∀ encoded, certificate.encode = .ok encoded →
      certificate.toSign = .ok (Hashed.certificate encoded).digest) ∧
    (∀ revocation : Identity.Revocation, ∀ encoded, revocation.encode = .ok encoded →
      revocation.toSign = .ok (Hashed.revocation encoded).digest) ∧
    (∀ bundle : Contact.ContactBundle, ∀ encoded, bundle.encode = .ok encoded →
      bundle.commitment = .ok (Hashed.bundle encoded).digest) ∧
    (∀ [Crypto.X25519] secret peer commitmentA commitmentB key,
      Contact.rendezvousKey secret peer commitmentA commitmentB = .ok key →
        key = (rendezvous (X25519.diffieHellman secret peer) commitmentA commitmentB).digest) ∧
    (∀ secrets transcript, Handshake.rootKey secrets transcript =
      (rootKey secrets transcript).digest) ∧
    (∀ clientId version descriptor id, GroupId.derive clientId version descriptor = .ok id →
      id.bytes = (groupId clientId version descriptor).digest) ∧
    (∀ message : Sync.Message, ∀ id, message.id = .ok id →
      Sync.bodyHash message.body = .ok (messageBlock message.body).digest ∧
        id.bytes = (messageId message.groupId message.timestampMs message.author message.deviceKey
          (messageBlock message.body).digest).digest ∧
        message.toSign = .ok (messageSignature id).digest) ∧
    (∀ bytes, Relay.blobId bytes = (blob bytes).digest) ∧
    ∀ u v : Hashed, u.Fits → v.Fits →
      Set.InjOn Blake2b.digest {frame u.parts, frame v.parts} → (u.digest = v.digest ↔ u = v) := by
  refine ⟨fun _ _ _ => derive_identityId, ?_, ?_, ?_, ?_, fun _ _ => rfl, ?_,
    fun _ _ => id_message, fun _ => rfl, ?_⟩
  · intro certificate encoded h
    simp [Identity.DeviceCertificate.toSign, h]
    rfl
  · intro revocation encoded h
    simp [Identity.Revocation.toSign, h]
    rfl
  · intro bundle encoded h
    simp [Contact.ContactBundle.commitment, h]
    rfl
  · intro _ secret peer commitmentA commitmentB key h
    rw [Contact.rendezvousKey, Except.ite_error_eq_ok] at h
    exact (Except.ok.inj h.2).symm
  · intro clientId version descriptor id h
    rw [GroupId.derive, Except.ite_error_eq_ok] at h
    exact congrArg GroupId.bytes (Except.ok.inj h.2).symm
  · intro u v hu hv hcollision
    constructor
    · intro h
      exact eq_of_frame_eq hu hv (hcollision (.inl rfl) (.inr rfl) h)
    · rintro rfl
      rfl

end Digests

end Hashed

end Onestein
