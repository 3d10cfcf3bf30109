import Onestein.Identity.Revocation

/-!
# What is signed is verified

A certificate or a revocation that its root keys signed is read back as it was, through two
dictionaries, one inside the other. The numbers have to fit a signed word, and the statement has to
name the identity of the keys.

## Main results

* `DeviceCertificate.encode_cases`, `Revocation.encode_cases` — a statement is encoded exactly if
  its numbers fit.
* `sign_cases` — signing fails exactly where encoding does.
* `Revocation.verify_sign` — a revocation that was signed is verified.
* `sign_verify` — signing, then verifying, for all statements.
-/

namespace Onestein.Identity

open Crypto Bdf

theorem DeviceCertificate.encode_cases (certificate : DeviceCertificate) :
    (2 ^ 63 ≤ certificate.epoch.toNat ∨ 2 ^ 63 ≤ certificate.fromMs.toNat) ∧
        certificate.encode = .error .outOfRange ∨
      ¬ (2 ^ 63 ≤ certificate.epoch.toNat ∨ 2 ^ 63 ≤ certificate.fromMs.toNat) ∧
        ∃ encoded, certificate.encode = .ok encoded := by
  rw [← UInt64.toInt64?_eq_none, ← UInt64.toInt64?_eq_none]
  cases hepoch : certificate.epoch.toInt64? with
  | none => exact .inl ⟨.inl rfl, by rw [encode, hepoch]; rfl⟩
  | some epoch =>
    cases hfrom : certificate.fromMs.toInt64? with
    | none => exact .inl ⟨.inr rfl, by rw [encode, hepoch, hfrom]; rfl⟩
    | some fromMs => exact .inr ⟨by simp, _, encode_eq_ok.mpr ⟨epoch, fromMs, hepoch, hfrom, rfl⟩⟩

namespace Revocation

variable {revocation : Revocation}

theorem encode_cases (revocation : Revocation) :
    2 ^ 63 ≤ revocation.epoch.toNat ∧ revocation.encode = .error .outOfRange ∨
      ¬ 2 ^ 63 ≤ revocation.epoch.toNat ∧ ∃ encoded, revocation.encode = .ok encoded := by
  rw [← UInt64.toInt64?_eq_none]
  cases hepoch : revocation.epoch.toInt64? with
  | none => exact .inl ⟨rfl, by rw [encode, hepoch]; rfl⟩
  | some epoch => exact .inr ⟨by simp, _, encode_eq_ok.mpr ⟨epoch, hepoch, rfl⟩⟩

theorem length_encode_le {encoded : Bytes} (h : revocation.encode = .ok encoded) :
    encoded.length ≤ maxLen := by
  obtain ⟨epoch, -, rfl⟩ := encode_eq_ok.mp h
  have hkeys : ∀ key ∈ ["dev", "epoch", "id", "v"], (Bytes.utf8 key).length ≤ 8 := by decide
  refine length_statement_le ["dev", "epoch", "id", "v"] rfl (by decide) hkeys ?_
  simp only [fields, List.forall_mem_cons]
  exact ⟨length_key_le (by decide) _, length_number_le _, length_key_le (by decide) _,
    length_number_le _, by simp⟩

/-- A revocation that was signed is verified, unless it names another identity. -/
theorem verify_sign [Blake2b] [Ed25519] [MlDsa65] {keys : RootKeys} {identity : IdentityId}
    {container : Bytes} (hid : keys.identityId = .ok identity)
    (hverifies : ∀ toSign, revocation.toSign = .ok toSign →
      Ed25519.Verifies keys.ed25519 toSign.toList ∧ MlDsa65.Verifies keys.mldsa toSign.toList)
    (h : keys.signRevocation revocation = .ok container) :
    verifyRevocation container keys.ed25519Public.toList keys.mldsaPublic.toList =
      if revocation.identityId = identity then .ok revocation else .error .wrongIdentity := by
  obtain ⟨encoded, hencode, hsign⟩ := Except.bind_eq_ok.mp h
  have hlen := length_encode_le hencode
  obtain ⟨hed, hml⟩ := hverifies (hash [revocationLabel, encoded]) (by simp [toSign, hencode])
  obtain ⟨epoch, hepoch, rfl⟩ := encode_eq_ok.mp hencode
  rw [verifyRevocation, openContainer_signWithLabel hid hlen dictionary_fields hed hml hsign]
  exact read_fields hepoch

end Revocation

section Signing

variable [Blake2b] [Ed25519] [MlDsa65]

/-- Root keys of the right lengths name an identity. -/
theorem exists_identityId (keys : RootKeys) : ∃ identity, keys.identityId = .ok identity := by
  simp [RootKeys.identityId, IdentityId.derive, rootEd25519Len, rootMldsaLen]

theorem exists_signWithLabel {keys : RootKeys}
    (hsigns : ∀ message, (MlDsa65.sign keys.mldsa message).isSome) (label encoded : Bytes) :
    ∃ container, keys.signWithLabel label encoded = .ok container := by
  obtain ⟨p, hp⟩ := Option.isSome_iff_exists.mp (hsigns (hash [label, encoded] : Digest).toList)
  exact ⟨_, signWithLabel_eq_ok.mpr ⟨p, hp, rfl⟩⟩

/-- Signing fails exactly where encoding does. -/
theorem sign_cases {keys : RootKeys} {large : Prop} {encode : Except Error Bytes}
    (hsigns : ∀ message, (MlDsa65.sign keys.mldsa message).isSome) (label : Bytes)
    (hencode : large ∧ encode = .error .outOfRange ∨ ¬ large ∧ ∃ encoded, encode = .ok encoded) :
    (encode >>= keys.signWithLabel label = .error .outOfRange ↔ large) ∧
      (¬ large → ∃ container, encode >>= keys.signWithLabel label = .ok container) := by
  obtain ⟨hlarge, rfl⟩ | ⟨hsmall, encoded, rfl⟩ := hencode
  · exact ⟨iff_of_true rfl hlarge, fun hsmall => absurd hlarge hsmall⟩
  · obtain ⟨container, hsign⟩ := exists_signWithLabel hsigns label encoded
    rw [Except.ok_bind, hsign]
    exact ⟨iff_of_false nofun hsmall, fun _ => ⟨container, rfl⟩⟩

/-- Signing fails exactly for numbers above those of a signed word. Else what was signed is verified
and read back, if it names the identity of the keys, and refused as that of another one if it does
not. Both schemes verify what they sign, and signing with ML-DSA does not fail. -/
theorem sign_verify (keys : RootKeys) (hed : ∀ message, Ed25519.Verifies keys.ed25519 message)
    (hml : ∀ message, MlDsa65.Verifies keys.mldsa message)
    (hsigns : ∀ message, (MlDsa65.sign keys.mldsa message).isSome) :
    ∃ identity, keys.identityId = .ok identity ∧
      (∀ certificate : DeviceCertificate,
        (keys.signCertificate certificate = .error .outOfRange ↔
          2 ^ 63 ≤ certificate.epoch.toNat ∨ 2 ^ 63 ≤ certificate.fromMs.toNat) ∧
        (¬ (2 ^ 63 ≤ certificate.epoch.toNat ∨ 2 ^ 63 ≤ certificate.fromMs.toNat) →
          ∃ container, keys.signCertificate certificate = .ok container ∧
            verifyCertificate container keys.ed25519Public.toList keys.mldsaPublic.toList =
              if certificate.identityId = identity then .ok certificate
              else .error .wrongIdentity)) ∧
      ∀ revocation : Revocation,
        (keys.signRevocation revocation = .error .outOfRange ↔
          2 ^ 63 ≤ revocation.epoch.toNat) ∧
        (¬ 2 ^ 63 ≤ revocation.epoch.toNat →
          ∃ container, keys.signRevocation revocation = .ok container ∧
            verifyRevocation container keys.ed25519Public.toList keys.mldsaPublic.toList =
              if revocation.identityId = identity then .ok revocation
              else .error .wrongIdentity) := by
  obtain ⟨identity, hid⟩ := exists_identityId keys
  refine ⟨identity, hid, fun certificate => ?_, fun revocation => ?_⟩
  · obtain ⟨hrange, hsigned⟩ := sign_cases hsigns certificateLabel certificate.encode_cases
    refine ⟨hrange, fun hsmall => ?_⟩
    obtain ⟨container, hsign⟩ := hsigned hsmall
    obtain ⟨-, hverify⟩ := DeviceCertificate.verify_sign hid (fun _ _ => ⟨hed _, hml _⟩) hsign
    exact ⟨container, hsign, hverify⟩
  · obtain ⟨hrange, hsigned⟩ := sign_cases hsigns revocationLabel revocation.encode_cases
    refine ⟨hrange, fun hsmall => ?_⟩
    obtain ⟨container, hsign⟩ := hsigned hsmall
    exact ⟨container, hsign, Revocation.verify_sign hid (fun _ _ => ⟨hed _, hml _⟩) hsign⟩

end Signing

namespace Sample

/-- Stand-ins for the two schemes that can be run: a public key is its seed, and a signature is the
end of the message. -/
abbrev plainEd25519 : Ed25519 where
  publicKey seed := seed
  sign _ message := Octets.be 64 (Bytes.val message)
  isKey _ := true
  verify _ message signature := signature == Octets.be 64 (Bytes.val message)

abbrev plainMldsa65 : MlDsa65 where
  publicKey seed := Octets.be 1952 (Bytes.val seed.toList)
  sign _ message := some (Octets.be 3309 (Bytes.val message))
  isSignature _ := true
  verify _ message signature := signature == Octets.be 3309 (Bytes.val message)

attribute [local instance] checksum plainEd25519 plainMldsa65

/-- One revocation is signed and verified, another one has an epoch that does not fit. -/
theorem sign_verify_revocation :
    let keys : RootKeys := ⟨.replicate 32 0x11, .replicate 32 0x22⟩
    ∃ identity, keys.identityId = .ok identity ∧
      keys.signRevocation ⟨identity, .replicate 32 0x33, 2 ^ 63⟩ = .error .outOfRange ∧
      ∃ container, keys.signRevocation ⟨identity, .replicate 32 0x33, 8⟩ = .ok container ∧
        verifyRevocation container keys.ed25519Public.toList keys.mldsaPublic.toList =
          .ok ⟨identity, .replicate 32 0x33, 8⟩ := by
  intro keys
  obtain ⟨identity, hid, -, hrevocation⟩ := sign_verify keys
    (fun _ => ⟨rfl, beq_self_eq_true _⟩)
    (fun _ _ hsign => ⟨rfl, beq_iff_eq.mpr (Option.some.inj hsign).symm⟩) (fun _ => rfl)
  obtain ⟨hrange, -⟩ := hrevocation ⟨identity, .replicate 32 0x33, 2 ^ 63⟩
  obtain ⟨-, hsigned⟩ := hrevocation ⟨identity, .replicate 32 0x33, 8⟩
  have hlarge : 2 ^ 63 ≤ (2 ^ 63 : UInt64).toNat := by decide +kernel
  have hsmall : ¬ 2 ^ 63 ≤ (8 : UInt64).toNat := by decide +kernel
  obtain ⟨container, hsign, hverify⟩ := hsigned hsmall
  rw [if_pos rfl] at hverify
  exact ⟨identity, hid, hrange.mpr hlarge, container, hsign, hverify⟩

end Sample

end Onestein.Identity
