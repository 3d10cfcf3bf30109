import Onestein.Identity.Certificate

/-!
# Revocations

How a device stops being accepted. A revocation shares four of its field names with a
certificate, and not its label.

## Main definitions

* `Revocation.encode` — the bytes that are signed.
* `verifyRevocation` — what a contact checks.
* `acceptEpoch` — the epoch rule a contact keeps per identity.

## Main results

* `Revocation.read_fields` — the fields read back are the ones that were written.
* `encode_ne_encode` — no bytes are both a certificate and a revocation.
-/

namespace Onestein.Identity

open Crypto Bdf

/-- What a revocation says. -/
structure Revocation where
  identityId : IdentityId
  deviceSigningPub : Octets 32
  epoch : UInt64
  deriving DecidableEq

namespace Revocation

/-- The fields, in the order a verifier will see. -/
def fields (revocation : Revocation) (epoch : Int64) : List (String × Value) :=
  [("dev", .raw revocation.deviceSigningPub.toList),
    ("epoch", .int epoch),
    ("id", .raw revocation.identityId.bytes.toList),
    ("v", .int identityVersion.toUInt64.toInt64)]

/-- Encodes the revocation as canonical BDF: the bytes that are signed. -/
def encode (revocation : Revocation) : Except Error Bytes := do
  let epoch ← revocation.epoch.toInt64?.okOr .outOfRange
  .ok (toBytes (.dict (revocation.fields epoch)))

/-- The value both root keys sign. -/
def toSign [Blake2b] (revocation : Revocation) : Except Error Digest := do
  let encoded ← revocation.encode
  .ok (hash [revocationLabel, encoded])

/-- The revocation that is read from the fields of an opened container. -/
def read (body : List (String × Value)) (expectedIdentity : IdentityId) :
    Except Error Revocation := do
  if (← integer body "v") ≠ identityVersion.toUInt64.toInt64 then .error .malformed else
  if (← raw body "id") ≠ expectedIdentity.bytes.toList then .error .wrongIdentity else
  let epoch ← integer body "epoch"
  .ok {
    identityId := expectedIdentity
    deviceSigningPub := ← exact 32 (← raw body "dev")
    epoch := ← epoch.toUInt64?.okOr .malformed }

end Revocation

section Verify

variable [Blake2b] [Ed25519] [MlDsa65]

/-- Verifies a revocation container against a contact's root keys. -/
def verifyRevocation (container rootEd25519 rootMldsa : Bytes) : Except Error Revocation := do
  let (body, expectedIdentity) ← openContainer container rootEd25519 rootMldsa revocationLabel
  Revocation.read body expectedIdentity

/-- Signs a revocation with both root keys. -/
def RootKeys.signRevocation (keys : RootKeys) (revocation : Revocation) : Except Error Bytes := do
  keys.signWithLabel revocationLabel (← revocation.encode)

end Verify

/-- The epoch to record, unless the one offered is below the highest recorded. -/
def acceptEpoch (recordedHighest epoch : UInt64) : Except Error UInt64 :=
  if epoch < recordedHighest then .error (.epochInThePast recordedHighest epoch) else .ok epoch

namespace Revocation

variable {revocation : Revocation} {epoch : Int64}

theorem encode_eq_ok {encoded : Bytes} :
    revocation.encode = .ok encoded ↔ ∃ epoch, revocation.epoch.toInt64? = some epoch ∧
      toBytes (.dict (revocation.fields epoch)) = encoded := by
  simp [encode, Except.bind_eq_ok]

/-- The order of the fields is the canonical one. -/
theorem dictionary_fields :
    dictionary (toBytes (.dict (revocation.fields epoch))) = .ok (revocation.fields epoch) := by
  refine dictionary_toBytes_flat ["dev", "epoch", "id", "v"] rfl (by decide) rfl ?_
  simp [fields, FitEntries, Value.Fits, maxLen]
  decide

/-- The fields read back are the ones that were written. -/
theorem read_fields {identity : IdentityId} (hepoch : revocation.epoch.toInt64? = some epoch) :
    read (revocation.fields epoch) identity =
      if revocation.identityId = identity then .ok revocation else .error .wrongIdentity := by
  rw [UInt64.toInt64?_eq_some_iff] at hepoch
  by_cases h : revocation.identityId = identity
  · subst h
    simp [read, fields, raw, integer, exact, hepoch]
  · simp [read, fields, raw, integer, h]

end Revocation

/-- No bytes are both a certificate and a revocation. -/
theorem encode_ne_encode {certificate : DeviceCertificate} {revocation : Revocation}
    {encoded : Bytes} (hc : certificate.encode = .ok encoded) :
    revocation.encode ≠ .ok encoded := by
  intro hr
  obtain ⟨epoch, fromMs, -, -, rfl⟩ := DeviceCertificate.encode_eq_ok.mp hc
  obtain ⟨epoch', -, hbytes⟩ := Revocation.encode_eq_ok.mp hr
  have hdict : dictionary (toBytes (.dict (certificate.fields epoch fromMs))) =
      .ok (revocation.fields epoch') := by
    rw [← hbytes, Revocation.dictionary_fields]
  rw [DeviceCertificate.dictionary_fields] at hdict
  have hlen := congrArg List.length (Except.ok.inj hdict)
  simp [DeviceCertificate.fields, Revocation.fields] at hlen

end Onestein.Identity
