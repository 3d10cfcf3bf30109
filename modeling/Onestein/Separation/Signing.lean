import Onestein.Handshake.Derivations
import Onestein.Relay.Proofs
import Onestein.Separation.Hashing

/-!
# What is signed

Certificates, revocations, messages and proofs are signed with Ed25519, each in its own form. Even
if one key were a root key, the key of a device and the key of a queue at once, a signature made for
one of them would be good for no other.

## Main definitions

* `Statement` — what the stack signs.
* `Statement.signed` — the bytes that are signed for it.
* `Statement.fed` — what is hashed for it.

## Main results

* `Statement.eq_of_signed_eq` — what is signed names one statement.
* `Statement.no_transplant` — what verifies was signed, and for this purpose.
-/

namespace Onestein

open Crypto
open Identity (DeviceCertificate Revocation RootKeys certificateLabel revocationLabel signedPart
  verifyCertificate verifyRevocation)
open Relay (Registration Right proofMessage minChallengeLen)
open Sync (Message SignedMessage)

/-- What the stack signs with Ed25519. -/
inductive Statement where
  | certificate (certificate : DeviceCertificate)
  | revocation (revocation : Revocation)
  | message (message : Message)
  | proof (right : Right) (challenge : Bytes)

namespace Statement

section Hashing

variable [Blake2b]

/-- What is hashed to be signed, unless the statement cannot be encoded. A proof is not hashed. -/
def hashed : Statement → Option Hashed
  | certificate c => c.encode.toOption.map .certificate
  | revocation r => r.encode.toOption.map .revocation
  | message m => m.id.toOption.map .messageSignature
  | proof .. => none

/-- What is signed, unless there is nothing to sign. -/
def signed : Statement → Option Bytes
  | proof right challenge =>
    if challenge.length < minChallengeLen then none else some (proofMessage right challenge)
  | statement => statement.hashed.map fun hashed => hashed.digest.toList

/-- What is hashed on the way. -/
def fed : Statement → Set Bytes
  | message m =>
    {input | input = frame m.blockParts ∨ input = frame m.idParts ∨ input = frame m.signParts}
  | statement => {input | ∃ hashed ∈ statement.hashed, input = frame hashed.parts}

variable {s s' : Statement} {bytes : Bytes}

omit [Blake2b] in
/-- A proof is over more bytes than a digest has. -/
theorem length_proofMessage {right : Right} {challenge : Bytes}
    (h : minChallengeLen ≤ challenge.length) : hashLen < (proofMessage right challenge).length := by
  have hlabel : 29 ≤ (proofMessage right []).length := by cases right <;> decide
  have hlen : (proofMessage right challenge).length =
      (proofMessage right []).length + challenge.length := by simp [proofMessage]
  have hmin : minChallengeLen = 16 := rfl
  have hhash : hashLen = 32 := rfl
  omega

/-- What is signed is the digest of what is hashed, or the message of a proof. -/
theorem signed_eq_some : s.signed = some bytes ↔
    (∃ hashed, s.hashed = some hashed ∧ hashed.digest.toList = bytes) ∨
      ∃ right challenge, s = proof right challenge ∧ minChallengeLen ≤ challenge.length ∧
        proofMessage right challenge = bytes := by
  cases s with
  | proof right challenge =>
    rw [signed, Option.ite_none_left_eq_some, Nat.not_lt]
    simp [hashed]
  | certificate | revocation | message => simp [signed, hashed]

/-- Encodings of certificates and revocations, and the identifiers of messages, fit the framing. -/
theorem fits_of_hashed {hashed : Hashed} (h : s.hashed = some hashed) : hashed.Fits := by
  cases s <;> simp only [Statement.hashed, Option.map_eq_some_iff] at h
  case proof => cases h
  all_goals obtain ⟨_, -, rfl⟩ := h; trivial

/-- What is hashed to be signed is among what is hashed. -/
theorem frame_mem_fed {hashed : Hashed} (h : s.hashed = some hashed) :
    frame hashed.parts ∈ s.fed := by
  cases s
  case message m =>
    obtain ⟨id, hid, rfl⟩ := Option.map_eq_some_iff.mp h
    have hbytes : id.bytes = Crypto.hash m.idParts := (Hashed.id_message (by simpa using hid)).2.1
    refine .inr (.inr ?_)
    rw [Message.signParts, ← hbytes]
    rfl
  case proof => cases h
  all_goals exact ⟨hashed, h, rfl⟩

omit [Blake2b] in
/-- Certificates are fixed by their encodings. -/
theorem encode_certificate_injective {c c' : DeviceCertificate} {encoded : Bytes}
    (h : c.encode = .ok encoded) (h' : c'.encode = .ok encoded) : c = c' := by
  obtain ⟨epoch, fromMs, hepoch, hfrom, rfl⟩ := DeviceCertificate.encode_eq_ok.mp h
  obtain ⟨epoch', fromMs', hepoch', hfrom', hsame⟩ := DeviceCertificate.encode_eq_ok.mp h'
  have hdictionary : Identity.dictionary (Bdf.toBytes (.dict (c.fields epoch fromMs))) =
      .ok (c'.fields epoch' fromMs') := by
    rw [← hsame]
    exact DeviceCertificate.dictionary_fields
  have hfields : c'.fields epoch' fromMs' = c.fields epoch fromMs :=
    Except.ok.inj (hdictionary.symm.trans DeviceCertificate.dictionary_fields)
  have hread : DeviceCertificate.read (c'.fields epoch' fromMs') c'.identityId = _ :=
    DeviceCertificate.read_fields hepoch' hfrom'
  rw [if_pos rfl, hfields, DeviceCertificate.read_fields hepoch hfrom, Except.ite_eq_ok] at hread
  exact Except.ok.inj hread.2

omit [Blake2b] in
/-- Revocations are fixed by their encodings. -/
theorem encode_revocation_injective {r r' : Revocation} {encoded : Bytes}
    (h : r.encode = .ok encoded) (h' : r'.encode = .ok encoded) : r = r' := by
  obtain ⟨epoch, hepoch, rfl⟩ := Revocation.encode_eq_ok.mp h
  obtain ⟨epoch', hepoch', hsame⟩ := Revocation.encode_eq_ok.mp h'
  have hdictionary : Identity.dictionary (Bdf.toBytes (.dict (r.fields epoch))) =
      .ok (r'.fields epoch') := by
    rw [← hsame]
    exact Revocation.dictionary_fields
  have hfields : r'.fields epoch' = r.fields epoch :=
    Except.ok.inj (hdictionary.symm.trans Revocation.dictionary_fields)
  have hread : Revocation.read (r'.fields epoch') r'.identityId = _ :=
    Revocation.read_fields hepoch'
  rw [if_pos rfl, hfields, Revocation.read_fields hepoch, Except.ite_eq_ok] at hread
  exact Except.ok.inj hread.2

/-- What is hashed to be signed names one statement. -/
theorem eq_of_hashed_eq {hashed : Hashed} (hcollision : Set.InjOn Blake2b.digest (s.fed ∪ s'.fed))
    (h : s.hashed = some hashed) (h' : s'.hashed = some hashed) : s = s' := by
  cases s <;> cases s' <;>
    simp only [Statement.hashed, Option.map_eq_some_iff, Except.toOption_eq_some] at h h' <;>
    first | (cases h; done) | (cases h'; done) |
      obtain ⟨_, hencode, rfl⟩ := h; obtain ⟨_, hencode', hsame⟩ := h'; cases hsame
  case certificate.certificate => rw [encode_certificate_injective hencode hencode']
  case revocation.revocation => rw [encode_revocation_injective hencode hencode']
  case message.message m m' =>
    rw [Sync.toSign_injective (hcollision.mono ?_) (Hashed.id_message hencode).2.2
      (Hashed.id_message hencode').2.2]
    rintro input ⟨n, rfl | rfl, hinput⟩
    · exact .inl hinput
    · exact .inr hinput

/-- What is signed names one statement, where what is hashed has no collision. -/
theorem eq_of_signed_eq (hcollision : Set.InjOn Blake2b.digest (s.fed ∪ s'.fed))
    (h : s.signed = some bytes) (h' : s'.signed = some bytes) : s = s' := by
  obtain ⟨u, hu, hbytes⟩ | ⟨right, challenge, rfl, hlong, hbytes⟩ := signed_eq_some.mp h <;>
    obtain ⟨v, hv, hbytes'⟩ | ⟨right', challenge', rfl, hlong', hbytes'⟩ := signed_eq_some.mp h'
  · have hdigest : u.digest = v.digest := Vector.toList_inj.mp (hbytes.trans hbytes'.symm)
    obtain rfl := Hashed.eq_of_frame_eq (fits_of_hashed hu) (fits_of_hashed hv)
      (hcollision (.inl (frame_mem_fed hu)) (.inr (frame_mem_fed hv)) hdigest)
    exact eq_of_hashed_eq hcollision hu hv
  · have hlength : hashLen < (proofMessage right' challenge').length := length_proofMessage hlong'
    rw [hbytes', ← hbytes, Vector.length_toList] at hlength
    exact absurd hlength (Nat.lt_irrefl _)
  · have hlength : hashLen < (proofMessage right challenge).length := length_proofMessage hlong
    rw [hbytes, ← hbytes', Vector.length_toList] at hlength
    exact absurd hlength (Nat.lt_irrefl _)
  · obtain ⟨rfl, rfl⟩ := Relay.proofMessage_injective (hbytes.trans hbytes'.symm)
    rfl

/-- What the owner of a key signed for some statements. -/
def signedFor (S : Set Statement) : Set Bytes := {bytes | ∃ s ∈ S, s.signed = some bytes}

/-- What was hashed for some statements. -/
def fedFor (S : Set Statement) : Set Bytes := {input | ∃ s ∈ S, input ∈ s.fed}

/-- What a verifier of a container hashes, under either label. -/
def opened (container : Bytes) : Set Bytes :=
  {input | ∃ part, signedPart container = .ok part ∧
    (input = frame (Hashed.certificate part).parts ∨ input = frame (Hashed.revocation part).parts)}

/-- The key that a queue is registered with for a right. -/
def registered (registration : Registration) : Right → Octets 32
  | .write => registration.writePublic
  | .read => registration.readPublic

variable {S : Set Statement} {container : Bytes} {hashed : Hashed}

/-- A digest that was signed for a statement is that of what was hashed for it. -/
theorem exists_hashed {among : Set Bytes} (hcollision : Set.InjOn Blake2b.digest among)
    (hfed : fedFor S ⊆ among) (hmem : frame hashed.parts ∈ among) (hfits : hashed.Fits)
    (h : hashed.digest.toList ∈ signedFor S) : ∃ s ∈ S, s.hashed = some hashed := by
  obtain ⟨s, hs, hsigned⟩ := h
  obtain ⟨u, hu, hbytes⟩ | ⟨right, challenge, rfl, hlong, hbytes⟩ := signed_eq_some.mp hsigned
  · obtain rfl := Hashed.eq_of_frame_eq (fits_of_hashed hu) hfits
      (hcollision (hfed ⟨s, hs, frame_mem_fed hu⟩) hmem (Vector.toList_inj.mp hbytes))
    exact ⟨s, hs, hu⟩
  · have hlength : hashLen < (proofMessage right challenge).length := length_proofMessage hlong
    rw [hbytes, Vector.length_toList] at hlength
    exact absurd hlength (Nat.lt_irrefl _)

section Verifying

variable [Ed25519] {key : Octets 32} (hideal : Ed25519.Ideal key (signedFor S))

include hideal

theorem message_mem {signedMessage : SignedMessage}
    (hcollision : Set.InjOn Blake2b.digest (fedFor (insert (.message signedMessage.message) S)))
    (hkey : signedMessage.message.deviceKey = key) (h : signedMessage.verify = .ok ()) :
    message signedMessage.message ∈ S := by
  obtain ⟨-, toSign, hsign, hverify⟩ := SignedMessage.verify_eq_ok.mp h
  rw [hkey] at hverify
  obtain ⟨s, hs, hsigned⟩ := hideal _ _ hverify
  have hself : (message signedMessage.message).signed = some toSign.toList := by
    obtain ⟨id, hid, -⟩ := Except.bind_eq_ok.mp hsign
    obtain rfl := Except.ok.inj ((Hashed.id_message hid).2.2.symm.trans hsign)
    simp [Statement.signed, Statement.hashed, hid]
  rw [eq_of_signed_eq (hcollision.mono ?_) hself hsigned]
  · exact hs
  · intro input hinput
    exact hinput.elim (fun h => ⟨_, .inl rfl, h⟩) (fun h => ⟨s, .inr hs, h⟩)

theorem proof_mem {registration : Registration} {right : Right} {challenge : Bytes}
    {answer : Relay.Proof} (hkey : registered registration right = key)
    (h : registration.check right challenge answer = .ok ()) : proof right challenge ∈ S := by
  obtain ⟨_, hlong, h⟩ := Except.bind_eq_ok.mp h
  have hlong : minChallengeLen ≤ challenge.length := by
    simpa [Relay.longEnough, Except.ite_error_eq_ok] using hlong
  have hverify : Ed25519.verify key (proofMessage right challenge) answer := by
    subst hkey
    cases right <;> simp_all [registered, Except.ite_eq_ok]
  obtain ⟨s, hs, hsigned⟩ := hideal _ _ hverify
  obtain ⟨u, -, hbytes⟩ | ⟨right', challenge', rfl, -, hbytes⟩ := signed_eq_some.mp hsigned
  · have hlength : hashLen < (proofMessage right challenge).length :=
      length_proofMessage hlong
    rw [← hbytes, Vector.length_toList] at hlength
    exact absurd hlength (Nat.lt_irrefl _)
  · obtain ⟨rfl, rfl⟩ := Relay.proofMessage_injective hbytes
    exact hs

variable [MlDsa65]

/-- A container that is opened holds what was hashed for a statement that was signed. -/
theorem exists_opened {rootMldsa label part : Bytes} {body : List (String × Bdf.Value)}
    {identity : Identity.IdentityId}
    (hcollision : Set.InjOn Blake2b.digest (fedFor S ∪ opened container))
    (hhashed : hashed = .certificate part ∨ hashed = .revocation part)
    (hparts : [label, part] = hashed.parts) (hpart : signedPart container = .ok part)
    (h : Identity.openContainer container key.toList rootMldsa label = .ok (body, identity)) :
    (∃ s ∈ S, s.hashed = some hashed) ∧ Identity.dictionary part = .ok body := by
  obtain ⟨part', hpart', hbody, -, ⟨signature, hverify⟩, -⟩ := Identity.openContainer_eq_ok h
  obtain rfl := Except.ok.inj (hpart.symm.trans hpart')
  obtain ⟨signature', -, hverify⟩ := Identity.verifyEd25519_eq_ok hverify
  refine ⟨exists_hashed hcollision Set.subset_union_left (.inr ⟨part, hpart, ?_⟩) ?_ ?_, hbody⟩
  · exact hhashed.imp (congrArg fun u : Hashed => frame u.parts)
      (congrArg fun u : Hashed => frame u.parts)
  · rcases hhashed with rfl | rfl <;> trivial
  · rw [Hashed.digest, ← hparts]
    exact hideal _ _ hverify

theorem certificate_mem {rootMldsa : Bytes} {c : DeviceCertificate}
    (hcollision : Set.InjOn Blake2b.digest (fedFor S ∪ opened container))
    (h : verifyCertificate container key.toList rootMldsa = .ok c) : certificate c ∈ S := by
  obtain ⟨⟨body, identity⟩, hopen, hread⟩ := Except.bind_eq_ok.mp h
  obtain ⟨part, hpart, -⟩ := Identity.openContainer_eq_ok hopen
  obtain ⟨⟨s, hs, hhashed⟩, hbody⟩ :=
    exists_opened hideal hcollision (.inl rfl) rfl hpart hopen
  cases s <;> simp [Statement.hashed] at hhashed
  case certificate c' =>
    obtain ⟨epoch, fromMs, hepoch, hfrom, rfl⟩ :=
      DeviceCertificate.encode_eq_ok.mp hhashed
    obtain rfl := Except.ok.inj (DeviceCertificate.dictionary_fields.symm.trans hbody)
    obtain ⟨-, hok⟩ := Except.ite_eq_ok.mp
      ((DeviceCertificate.read_fields hepoch hfrom).symm.trans hread)
    obtain rfl := Except.ok.inj hok
    exact hs

theorem revocation_mem {rootMldsa : Bytes} {r : Revocation}
    (hcollision : Set.InjOn Blake2b.digest (fedFor S ∪ opened container))
    (h : verifyRevocation container key.toList rootMldsa = .ok r) : revocation r ∈ S := by
  obtain ⟨⟨body, identity⟩, hopen, hread⟩ := Except.bind_eq_ok.mp h
  obtain ⟨part, hpart, -⟩ := Identity.openContainer_eq_ok hopen
  obtain ⟨⟨s, hs, hhashed⟩, hbody⟩ :=
    exists_opened hideal hcollision (.inr rfl) rfl hpart hopen
  cases s <;> simp [Statement.hashed] at hhashed
  case revocation r' =>
    obtain ⟨epoch, hepoch, rfl⟩ := Revocation.encode_eq_ok.mp hhashed
    obtain rfl := Except.ok.inj (Revocation.dictionary_fields.symm.trans hbody)
    obtain ⟨-, hok⟩ := Except.ite_eq_ok.mp ((Revocation.read_fields hepoch).symm.trans hread)
    obtain rfl := Except.ok.inj hok
    exact hs

end Verifying

/-- What verifies was signed, and for this purpose: whatever key the owner of a key handed out as
root key, as device key and as key of a queue. The hash is collision-free on what owner and verifier
feed it, and nobody forges Ed25519; the second root key may be anyone's. -/
theorem no_transplant [Ed25519] [MlDsa65] (key : Octets 32) (S : Set Statement)
    (hideal : Ed25519.Ideal key (signedFor S)) :
    (∀ container rootMldsa, Set.InjOn Blake2b.digest (fedFor S ∪ opened container) →
      (∀ c, verifyCertificate container key.toList rootMldsa = .ok c → certificate c ∈ S) ∧
        ∀ r, verifyRevocation container key.toList rootMldsa = .ok r → revocation r ∈ S) ∧
    (∀ signedMessage : SignedMessage,
      Set.InjOn Blake2b.digest (fedFor (insert (.message signedMessage.message) S)) →
      signedMessage.message.deviceKey = key → signedMessage.verify = .ok () →
        message signedMessage.message ∈ S) ∧
    ∀ registration right challenge answer, registered registration right = key →
      registration.check right challenge answer = .ok () → proof right challenge ∈ S := by
  refine ⟨fun container rootMldsa hcollision => ⟨?_, ?_⟩, ?_, ?_⟩
  · exact fun c => certificate_mem hideal hcollision
  · exact fun r => revocation_mem hideal hcollision
  · exact fun _ hcollision => message_mem hideal hcollision
  · exact fun _ _ _ _ => proof_mem hideal

end Hashing

end Statement

/-! ## A signed message -/

namespace Sample

attribute [local instance] checksum

open Sync.Sample (message toSign signed)
open Statement (signedFor fedFor no_transplant)

local instance : Ed25519 := Identity.Sample.ed25519 [toSign.toList]
local instance : MlDsa65 := Identity.Sample.mldsa65 []

/-- The owner of the key signed one message. -/
def statements : Set Statement := {.message message}

theorem mem_signedFor : toSign.toList ∈ signedFor statements := by
  obtain ⟨id, hid, -⟩ := Except.bind_eq_ok.mp Sync.Sample.toSign_message
  have hsign := (Hashed.id_message hid).2.2.symm.trans Sync.Sample.toSign_message
  exact ⟨.message message, rfl, by simp [Statement.signed, Statement.hashed, hid,
    Except.ok.inj hsign]⟩

theorem injOn_fedFor :
    Set.InjOn Blake2b.digest (fedFor (insert (.message message) statements)) := by
  refine Sync.Sample.injOn_hashInputs.mono ?_
  rintro input ⟨s, rfl | rfl, hinput⟩
  · exact ⟨message, .inl rfl, hinput⟩
  · exact ⟨message, .inl rfl, hinput⟩

theorem no_transplant_message :
    signed.verify = .ok () ∧ Statement.message signed.message ∈ statements := by
  have hideal : Ed25519.Ideal message.deviceKey (signedFor statements) := by
    intro bytes signature h
    obtain rfl : bytes = toSign.toList := by
      simpa using of_decide_eq_true (Bool.and_eq_true_iff.mp h).1
    exact mem_signedFor
  have hverify : signed.verify = .ok () :=
    SignedMessage.verify_eq_ok.mpr ⟨rfl, toSign, Sync.Sample.toSign_message,
      Bool.and_eq_true_iff.mpr ⟨decide_eq_true (List.mem_singleton.mpr rfl), beq_self_eq_true _⟩⟩
  exact ⟨hverify, (no_transplant message.deviceKey statements hideal).2.1 signed injOn_fedFor rfl
    hverify⟩

end Sample

end Onestein
