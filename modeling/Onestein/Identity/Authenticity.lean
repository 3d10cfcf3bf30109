import Onestein.Identity.Revocation

/-!
# Authenticity of identity statements

Certificates and revocations are signed as hashes of a label and the encoded statement. If the
root keys signed nothing else, the hash has no collision among the statements at hand and one of
the two signature schemes cannot be forged, then no container makes a contact believe a
statement that was not signed.

## Main definitions

* `signedInputs`, `signedMessages` — what the root keys signed, before and after hashing.
* `hashInputs` — what was hashed on either side.

## Main results

* `openContainer_signed` — an opened container holds a statement that was signed under the
  label it was opened with.
* `authentic` — only signed certificates and revocations are accepted, and none for the other.
-/

namespace Onestein.Identity

open Crypto Bdf

/-- The labels a container can be opened with. -/
def IsLabel (label : Bytes) : Prop := label = certificateLabel ∨ label = revocationLabel

/-- The labels and encodings of the statements that were signed. -/
def signedInputs (C : Set DeviceCertificate) (R : Set Revocation) : Set (Bytes × Bytes) :=
  {input | (∃ c ∈ C, input.1 = certificateLabel ∧ c.encode = .ok input.2) ∨
    ∃ r ∈ R, input.1 = revocationLabel ∧ r.encode = .ok input.2}

/-- A label and the signed part of a container, as a verifier hashes them. -/
def verifiedInputs (container : Bytes) : Set (Bytes × Bytes) :=
  {input | IsLabel input.1 ∧ signedPart container = .ok input.2}

/-- What the hash is applied to when the statements are signed and the container verified. -/
def hashInputs (C : Set DeviceCertificate) (R : Set Revocation) (container : Bytes) : Set Bytes :=
  (fun input => frame [input.1, input.2]) '' (signedInputs C R ∪ verifiedInputs container)

/-- The messages that were signed. -/
def signedMessages [Blake2b] (C : Set DeviceCertificate) (R : Set Revocation) : Set Bytes :=
  {message | (∃ c ∈ C, ∃ toSign, c.toSign = .ok toSign ∧ message = toSign.toList) ∨
    ∃ r ∈ R, ∃ toSign, r.toSign = .ok toSign ∧ message = toSign.toList}

theorem IsLabel.length_lt {label : Bytes} (h : IsLabel label) : label.length < maxPart := by
  rcases h with rfl | rfl <;> decide

theorem isLabel_of_mem {C : Set DeviceCertificate} {R : Set Revocation} {input : Bytes × Bytes}
    (h : input ∈ signedInputs C R) : IsLabel input.1 := by
  rcases h with ⟨-, -, hlabel, -⟩ | ⟨-, -, hlabel, -⟩
  · exact .inl hlabel
  · exact .inr hlabel

theorem certificateLabel_ne_revocationLabel : certificateLabel ≠ revocationLabel := by decide

theorem exists_of_mem_signedMessages [Blake2b] {C : Set DeviceCertificate}
    {R : Set Revocation} {message : Bytes} (h : message ∈ signedMessages C R) :
    ∃ input ∈ signedInputs C R, message = (hash [input.1, input.2] : Digest).toList := by
  rcases h with ⟨c, hc, toSign, hsign, rfl⟩ | ⟨r, hr, toSign, hsign, rfl⟩
  · obtain ⟨encoded, hencode, hok⟩ := Except.bind_eq_ok.mp hsign
    exact ⟨(certificateLabel, encoded), .inl ⟨c, hc, rfl, hencode⟩,
      congrArg Vector.toList (Except.ok.inj hok).symm⟩
  · obtain ⟨encoded, hencode, hok⟩ := Except.bind_eq_ok.mp hsign
    exact ⟨(revocationLabel, encoded), .inr ⟨r, hr, rfl, hencode⟩,
      congrArg Vector.toList (Except.ok.inj hok).symm⟩

section Ideal

variable [Blake2b] [Ed25519] [MlDsa65] {C : Set DeviceCertificate} {R : Set Revocation}
  {keys : RootKeys} {container label : Bytes}

variable (hcollision : Set.InjOn Blake2b.digest (hashInputs C R container))
  (hideal : Ed25519.Ideal keys.ed25519Public (signedMessages C R) ∨
    MlDsa65.Ideal keys.mldsaPublic (signedMessages C R))

include hcollision hideal

/-- An opened container holds what was signed, under the label it was signed with. -/
theorem openContainer_signed {body : List (String × Value)} {identity : IdentityId}
    (hlabel : IsLabel label)
    (h : openContainer container keys.ed25519Public.toList keys.mldsaPublic.toList label =
      .ok (body, identity)) :
    ∃ signed, signedPart container = .ok signed ∧ (label, signed) ∈ signedInputs C R ∧
      dictionary signed = .ok body := by
  obtain ⟨signed, hsigned, hbody, -, ⟨e, he⟩, p, hp⟩ := openContainer_eq_ok h
  have hmessage : (hash [label, signed] : Digest).toList ∈ signedMessages C R := by
    rcases hideal with hed | hml
    · obtain ⟨s, -, hverify⟩ := verifyEd25519_eq_ok he
      exact hed _ s hverify
    · obtain ⟨s, -, hverify⟩ := verifyMldsa_eq_ok hp
      exact hml _ s hverify
  obtain ⟨⟨label', signed'⟩, hmem, hhash⟩ := exists_of_mem_signedMessages hmessage
  have hverified : (label, signed) ∈ verifiedInputs container := ⟨hlabel, hsigned⟩
  have hframe : frame [label, signed] = frame [label', signed'] := by
    refine hcollision ⟨_, .inr hverified, rfl⟩ ⟨_, .inl hmem, rfl⟩ ?_
    exact Vector.toList_inj.mp hhash
  obtain ⟨rfl, rfl⟩ := frame_pair_injective hlabel.length_lt (isLabel_of_mem hmem).length_lt hframe
  exact ⟨signed, hsigned, hmem, hbody⟩

theorem verifyCertificate_signed {c : DeviceCertificate}
    (h : verifyCertificate container keys.ed25519Public.toList keys.mldsaPublic.toList = .ok c) :
    c ∈ C ∧ signedPart container = c.encode := by
  obtain ⟨⟨body, identity⟩, hopen, hread⟩ := Except.bind_eq_ok.mp h
  obtain ⟨signed, hsigned, hmem, hbody⟩ :=
    openContainer_signed hcollision hideal (.inl rfl) hopen
  rcases hmem with ⟨c', hc', -, hencode⟩ | ⟨-, -, hlabel, -⟩
  · rw [hsigned, ← hencode]
    obtain ⟨epoch, fromMs, hepoch, hfrom, rfl⟩ := DeviceCertificate.encode_eq_ok.mp hencode
    rw [DeviceCertificate.dictionary_fields] at hbody
    obtain rfl := Except.ok.inj hbody
    have hfields := (DeviceCertificate.read_fields hepoch hfrom).symm.trans hread
    obtain ⟨-, hok⟩ := Except.ite_eq_ok.mp hfields
    obtain rfl := Except.ok.inj hok
    exact ⟨hc', rfl⟩
  · exact absurd hlabel certificateLabel_ne_revocationLabel

theorem verifyRevocation_signed {r : Revocation}
    (h : verifyRevocation container keys.ed25519Public.toList keys.mldsaPublic.toList = .ok r) :
    r ∈ R ∧ signedPart container = r.encode := by
  obtain ⟨⟨body, identity⟩, hopen, hread⟩ := Except.bind_eq_ok.mp h
  obtain ⟨signed, hsigned, hmem, hbody⟩ :=
    openContainer_signed hcollision hideal (.inr rfl) hopen
  rcases hmem with ⟨-, -, hlabel, -⟩ | ⟨r', hr', -, hencode⟩
  · exact absurd hlabel.symm certificateLabel_ne_revocationLabel
  · rw [hsigned, ← hencode]
    obtain ⟨epoch, hepoch, rfl⟩ := Revocation.encode_eq_ok.mp hencode
    rw [Revocation.dictionary_fields] at hbody
    obtain rfl := Except.ok.inj hbody
    have hfields := (Revocation.read_fields hepoch).symm.trans hread
    obtain ⟨-, hok⟩ := Except.ite_eq_ok.mp hfields
    obtain rfl := Except.ok.inj hok
    exact ⟨hr', rfl⟩

end Ideal

/-- Only certificates and revocations that were signed are accepted, each as what it is. The
hash is collision-free on what signer and verifier feed it, and one of the two signature
schemes is ideal; which bytes the container has, or where it got them from, does not matter. -/
theorem authentic [Blake2b] [Ed25519] [MlDsa65] (keys : RootKeys) (C : Set DeviceCertificate)
    (R : Set Revocation) (container : Bytes)
    (hcollision : Set.InjOn Blake2b.digest (hashInputs C R container))
    (hideal : Ed25519.Ideal keys.ed25519Public (signedMessages C R) ∨
      MlDsa65.Ideal keys.mldsaPublic (signedMessages C R)) :
    (∀ c, verifyCertificate container keys.ed25519Public.toList keys.mldsaPublic.toList = .ok c →
      c ∈ C) ∧
    (∀ r, verifyRevocation container keys.ed25519Public.toList keys.mldsaPublic.toList = .ok r →
      r ∈ R) ∧
    (∀ c encoded, DeviceCertificate.encode c = .ok encoded → signedPart container = .ok encoded →
      ∀ r, verifyRevocation container keys.ed25519Public.toList keys.mldsaPublic.toList ≠ .ok r) ∧
    ∀ r encoded, Revocation.encode r = .ok encoded → signedPart container = .ok encoded →
      ∀ c,
        verifyCertificate container keys.ed25519Public.toList keys.mldsaPublic.toList ≠ .ok c := by
  refine ⟨fun c h => (verifyCertificate_signed hcollision hideal h).1,
    fun r h => (verifyRevocation_signed hcollision hideal h).1, ?_, ?_⟩
  · intro c encoded hencode hsigned r h
    have hr := (verifyRevocation_signed hcollision hideal h).2
    exact encode_ne_encode hencode (hr.symm.trans hsigned)
  · intro r encoded hencode hsigned c h
    have hc := (verifyCertificate_signed hcollision hideal h).2
    exact encode_ne_encode (hc.symm.trans hsigned) hencode

/-! ## A signed certificate -/

namespace Sample

attribute [local instance] checksum

def keys : RootKeys := ⟨.replicate 32 0x11, .replicate 32 0x22⟩

/-- Stand-ins for the two schemes that can be run: a public key is its seed, a signature is its
message, and nothing verifies but what was signed. -/
abbrev ed25519 (signed : List Bytes) : Ed25519 where
  publicKey seed := seed
  sign _ message := Octets.be 64 (Bytes.val message)
  isKey _ := true
  verify _ message signature := message ∈ signed && signature == Octets.be 64 (Bytes.val message)

abbrev mldsa65 (signed : List Bytes) : MlDsa65 where
  publicKey seed := .replicate 1952 seed[0]
  sign _ message := some (Octets.be 3309 (Bytes.val message))
  isSignature _ := true
  verify _ message signature := message ∈ signed && signature == Octets.be 3309 (Bytes.val message)

def identity : IdentityId :=
  ⟨hash [identityIdLabel, [identityVersion], .replicate 32 0x11, .replicate 1952 0x22]⟩

def certificate : DeviceCertificate where
  identityId := identity
  deviceSigningPub := .replicate 32 0x33
  dhStaticPub := .replicate 32 0x44
  kemStaticPub := .replicate 1184 0x55
  epoch := 7
  fromMs := 1600000000000

def revocation : Revocation := ⟨identity, .replicate 32 0x33, 8⟩

/-- What the root keys sign for the two. -/
def signed : List Bytes :=
  (certificate.toSign.toOption.toList ++ revocation.toSign.toOption.toList).map Vector.toList

local instance : Ed25519 := ed25519 signed
local instance : MlDsa65 := mldsa65 signed

theorem mem_signed {message : Bytes} :
    message ∈ signed ↔ message ∈ signedMessages {certificate} {revocation} := by
  have hoption {d : Digest} {x : Except Error Digest} : x.toOption = some d ↔ x = .ok d := by
    cases x <;> simp [Except.toOption]
  simp only [signed, signedMessages, List.mem_map, List.mem_append, Option.mem_toList, hoption]
  constructor
  · rintro ⟨toSign, h | h, rfl⟩
    · exact .inl ⟨_, rfl, toSign, h, rfl⟩
    · exact .inr ⟨_, rfl, toSign, h, rfl⟩
  · rintro (⟨_, rfl, toSign, h, rfl⟩ | ⟨_, rfl, toSign, h, rfl⟩)
    · exact ⟨toSign, .inl h, rfl⟩
    · exact ⟨toSign, .inr h, rfl⟩

theorem verifies {toSign : Digest} (h : certificate.toSign = .ok toSign) :
    Ed25519.Verifies keys.ed25519 toSign.toList ∧ MlDsa65.Verifies keys.mldsa toSign.toList := by
  have hmem : toSign.toList ∈ signed := mem_signed.mpr (.inl ⟨_, rfl, toSign, h, rfl⟩)
  refine ⟨⟨rfl, Bool.and_eq_true_iff.mpr ⟨decide_eq_true hmem, beq_self_eq_true _⟩⟩, ?_⟩
  intro signature hsign
  obtain rfl := Option.some.inj hsign
  exact ⟨rfl, Bool.and_eq_true_iff.mpr ⟨decide_eq_true hmem, beq_self_eq_true _⟩⟩

theorem ideal : Ed25519.Ideal keys.ed25519Public (signedMessages {certificate} {revocation}) :=
  fun _ _ h => mem_signed.mp (of_decide_eq_true (Bool.and_eq_true_iff.mp h).1)

/-- The certificate and the revocation as they are signed. -/
def encoded : Bytes := certificate.encode.toOption.getD []

def encodedRevocation : Bytes := revocation.encode.toOption.getD []

def container : Bytes := (keys.signCertificate certificate).toOption.getD []

theorem encode_certificate : certificate.encode = .ok encoded := by decide +kernel

theorem signCertificate_certificate : keys.signCertificate certificate = .ok container := by
  rw [RootKeys.signCertificate, encode_certificate, Except.ok_bind, container,
    RootKeys.signCertificate, encode_certificate, Except.ok_bind]
  rfl

theorem verify_container : signedPart container = certificate.encode ∧
    verifyCertificate container keys.ed25519Public.toList keys.mldsaPublic.toList =
      .ok certificate := by
  have hid : keys.identityId = .ok identity := by decide +kernel
  have hnames : certificate.identityId = identity := rfl
  have hverify := DeviceCertificate.verify_sign hid (fun _ h => verifies h)
    signCertificate_certificate
  rwa [if_pos hnames] at hverify

theorem injOn_hashInputs (hsigned : signedPart container = .ok encoded) :
    Set.InjOn Blake2b.digest (hashInputs {certificate} {revocation} container) := by
  have hc := encode_certificate
  have hr : revocation.encode = .ok encodedRevocation := by decide +kernel
  have hsub : hashInputs {certificate} {revocation} container ⊆
      {frame [certificateLabel, encoded], frame [revocationLabel, encoded],
        frame [revocationLabel, encodedRevocation]} := by
    rintro - ⟨⟨label, part⟩, (⟨c, rfl, rfl, h⟩ | ⟨r, rfl, rfl, h⟩) | ⟨hlabel, h⟩, rfl⟩
    · obtain rfl := Except.ok.inj (hc.symm.trans h)
      simp
    · obtain rfl := Except.ok.inj (hr.symm.trans h)
      simp
    · obtain rfl := Except.ok.inj (hsigned.symm.trans h)
      rcases hlabel with h | h <;> simp at h <;> simp [h]
  refine Set.InjOn.mono hsub ?_
  have h₁ : Blake2b.digest (frame [certificateLabel, encoded]) ≠
      Blake2b.digest (frame [revocationLabel, encoded]) := by decide +kernel
  have h₂ : Blake2b.digest (frame [certificateLabel, encoded]) ≠
      Blake2b.digest (frame [revocationLabel, encodedRevocation]) := by decide +kernel
  have h₃ : Blake2b.digest (frame [revocationLabel, encoded]) ≠
      Blake2b.digest (frame [revocationLabel, encodedRevocation]) := by decide +kernel
  rintro x (rfl | rfl | rfl) y (rfl | rfl | rfl) h <;> simp_all

/-- A certificate under checked signatures is accepted, and as nothing but itself. -/
theorem authentic_certificate :
    verifyCertificate container keys.ed25519Public.toList keys.mldsaPublic.toList =
        .ok certificate ∧
      certificate ∈ ({certificate} : Set DeviceCertificate) ∧
      ∀ r,
        verifyRevocation container keys.ed25519Public.toList keys.mldsaPublic.toList ≠ .ok r := by
  obtain ⟨hpart, hverify⟩ := verify_container
  have hsigned : signedPart container = .ok encoded := hpart.trans encode_certificate
  obtain ⟨hcert, -, hother, -⟩ := authentic keys {certificate} {revocation} container
    (injOn_hashInputs hsigned) (.inl ideal)
  exact ⟨hverify, hcert _ hverify, hother _ _ encode_certificate hsigned⟩

end Sample

end Onestein.Identity
