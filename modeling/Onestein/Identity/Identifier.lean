import Onestein.Crypto.Hash

/-!
# Identities and their identifiers

An identity is a root key pair and the devices it has certified. It is named by a hash of both
root public keys.

## Main definitions

* `IdentityId.derive` — the identifier of an identity.
-/

namespace Onestein.Identity

open Crypto

/-- Identity format version, inside the identifier. -/
def identityVersion : UInt8 := 1

/-- Length of an Ed25519 public key. -/
def rootEd25519Len : Nat := 32

/-- Length of an ML-DSA-65 public key. -/
def rootMldsaLen : Nat := 1952

def identityIdLabel : Bytes := Bytes.utf8 "org.onestein.identity/IDENTITY_ID"

/-- Why an identity could not be named, or one of its statements not made or believed. -/
inductive Error where
  | wrongKeyLength (expected given : Nat)
  | outOfRange
  | malformed
  | wrongIdentity
  | badSignature
  | signing
  | epochInThePast (recorded given : UInt64)
  deriving DecidableEq

/-- An identity identifier. -/
structure IdentityId where
  bytes : Digest
  deriving DecidableEq

@[simp] theorem IdentityId.toList_bytes_inj {a b : IdentityId} :
    a.bytes.toList = b.bytes.toList ↔ a = b := by
  rw [Vector.toList_inj]
  cases a
  cases b
  simp

/-- Derives the identifier of an identity from both its root public keys. -/
def IdentityId.derive [Blake2b] (rootEd25519 rootMldsa : Bytes) : Except Error IdentityId :=
  if rootEd25519.length ≠ rootEd25519Len then
    .error (.wrongKeyLength rootEd25519Len rootEd25519.length)
  else if rootMldsa.length ≠ rootMldsaLen then
    .error (.wrongKeyLength rootMldsaLen rootMldsa.length)
  else
    .ok ⟨hash [identityIdLabel, [identityVersion], rootEd25519, rootMldsa]⟩

end Onestein.Identity
