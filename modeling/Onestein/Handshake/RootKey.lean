import Onestein.Crypto.Agreement
import Onestein.Crypto.Hash
import Onestein.Lib.Fallible
import Onestein.Record.Framing

/-!
# Hybrid key agreement and the root key

X25519 and ML-KEM-768 side by side, and the root key over every secret and every public value of a
handshake.

## Main definitions

* `KeyPair.agree`, `KeyPair.decapsulate`, `encapsulate` — the steps of the agreement.
* `rootKey`, `confirmation` — what both sides derive, and the proof that they did.

## Main results

* `rootKey_injective` — the root key binds all that went into it.
-/

namespace Onestein.Handshake

open Crypto

/-- Handshake layer version, bound into the root key. -/
def handshakeVersion : UInt8 := 1

/-- Identity layer version, bound into the root key. -/
def identityVersion : UInt8 := 1

/-- Primitives version, bound into the root key. -/
def primitivesVersion : UInt8 := 1

/-- Transport layer version, bound into the root key although the transport runs afterwards. -/
def transportVersion : UInt8 := 1

/-- Length of an X25519 public key or shared secret. -/
abbrev x25519Len : Nat := 32

/-- Length of an ML-KEM-768 encapsulation key. -/
abbrev kemEncapsulationKeyLen : Nat := 1184

/-- Length of an ML-KEM-768 ciphertext. -/
abbrev kemCiphertextLen : Nat := 1088

/-- Length of the seed an ML-KEM key pair is generated from. -/
abbrev kemSeedLen : Nat := 64

def rootKeyLabel : Bytes := Bytes.utf8 "org.onestein.handshake/ROOT_KEY"

def confirmationALabel : Bytes := Bytes.utf8 "org.onestein.handshake/CONFIRMATION_A"

def confirmationBLabel : Bytes := Bytes.utf8 "org.onestein.handshake/CONFIRMATION_B"

/-- Which side of the handshake a device is. -/
inductive Role where
  | a
  | b
  deriving DecidableEq

/-- Why a handshake step failed. -/
inductive Error where
  | degenerateSharedSecret
  | record (e : Record.Error)
  | wrongLength (expected given : Nat)
  deriving DecidableEq

/-- One device's key pair, ephemeral or static: X25519 and ML-KEM side by side. -/
structure KeyPair where
  x25519 : Octets x25519Len
  kem : Octets kemSeedLen

section Agreement

variable [X25519] [MlKem768]

namespace KeyPair

/-- Builds a key pair from caller-supplied randomness. -/
def fromSeeds (x25519Seed : Octets x25519Len) (kemSeed : Octets kemSeedLen) : KeyPair :=
  ⟨x25519Seed, kemSeed⟩

/-- The X25519 public key. -/
def x25519Public (pair : KeyPair) : Octets x25519Len := X25519.publicKey pair.x25519

/-- The ML-KEM encapsulation key. -/
def kemEncapsulationKey (pair : KeyPair) : Octets kemEncapsulationKeyLen :=
  MlKem768.encapsulationKey pair.kem

/-- Agrees with a peer's X25519 public key. An agreement that comes out all zeroes is refused. -/
def agree (pair : KeyPair) (peerPublic : Octets x25519Len) : Except Error (Octets hashLen) :=
  let shared := X25519.diffieHellman pair.x25519 peerPublic
  if shared = .replicate 32 0 then .error .degenerateSharedSecret else .ok shared

/-- Recovers the secret from a ciphertext encapsulated to this key. -/
def decapsulate (pair : KeyPair) (ciphertext : Octets kemCiphertextLen) : Octets hashLen :=
  MlKem768.decapsulate pair.kem ciphertext

end KeyPair

/-- Encapsulates to a peer's ML-KEM key with caller-supplied randomness. -/
def encapsulate (encapsulationKey : Octets kemEncapsulationKeyLen) (randomness : Octets 32) :
    Except Error (Octets kemCiphertextLen × Octets hashLen) :=
  if MlKem768.isEncapsulationKey encapsulationKey then
    .ok (MlKem768.encapsulate encapsulationKey randomness)
  else .error (.wrongLength kemEncapsulationKeyLen encapsulationKey.size)

end Agreement

/-- The seven shared secrets: the X25519 ones named for whose key is whose, A's first, and the
encapsulated ones for whoever encapsulated. -/
@[ext] structure Secrets where
  dhEphemeral : Octets hashLen
  dhEphemeralStatic : Octets hashLen
  dhStaticEphemeral : Octets hashLen
  kemEphemeralA : Octets hashLen
  kemEphemeralB : Octets hashLen
  kemStaticA : Octets hashLen
  kemStaticB : Octets hashLen

/-- Every public value the handshake touched, in the order the root key hashes them. -/
@[ext] structure Transcript where
  identityIdA : Octets hashLen
  identityIdB : Octets hashLen
  deviceSigningPubA : Octets hashLen
  deviceSigningPubB : Octets hashLen
  dhStaticPubA : Octets x25519Len
  dhStaticPubB : Octets x25519Len
  kemStaticPubA : Octets kemEncapsulationKeyLen
  kemStaticPubB : Octets kemEncapsulationKeyLen
  dhEphemeralPubA : Octets x25519Len
  dhEphemeralPubB : Octets x25519Len
  kemEphemeralPubA : Octets kemEncapsulationKeyLen
  kemEphemeralPubB : Octets kemEncapsulationKeyLen
  ctEphemeralA : Octets kemCiphertextLen
  ctEphemeralB : Octets kemCiphertextLen
  ctStaticA : Octets kemCiphertextLen
  ctStaticB : Octets kemCiphertextLen

/-- What the root key is the hash of. -/
def rootParts (secrets : Secrets) (transcript : Transcript) : List Bytes :=
  [rootKeyLabel, [handshakeVersion], [identityVersion], [primitivesVersion], [transportVersion],
    secrets.dhEphemeral.toList, secrets.dhEphemeralStatic.toList,
    secrets.dhStaticEphemeral.toList, secrets.kemEphemeralA.toList, secrets.kemEphemeralB.toList,
    secrets.kemStaticA.toList, secrets.kemStaticB.toList,
    transcript.identityIdA.toList, transcript.identityIdB.toList,
    transcript.deviceSigningPubA.toList, transcript.deviceSigningPubB.toList,
    transcript.dhStaticPubA.toList, transcript.dhStaticPubB.toList,
    transcript.kemStaticPubA.toList, transcript.kemStaticPubB.toList,
    transcript.dhEphemeralPubA.toList, transcript.dhEphemeralPubB.toList,
    transcript.kemEphemeralPubA.toList, transcript.kemEphemeralPubB.toList,
    transcript.ctEphemeralA.toList, transcript.ctEphemeralB.toList,
    transcript.ctStaticA.toList, transcript.ctStaticB.toList]

/-- The parts name every secret and every public value. -/
theorem rootParts_injective {s s' : Secrets} {t t' : Transcript}
    (h : rootParts s t = rootParts s' t') : s = s' ∧ t = t' := by
  cases s
  cases s'
  cases t
  cases t'
  simpa only [rootParts, List.cons.injEq, Vector.toList_inj, Secrets.mk.injEq,
    Transcript.mk.injEq, and_assoc, and_true, true_and] using h

theorem length_rootParts (secrets : Secrets) (transcript : Transcript) :
    ∀ part ∈ rootParts secrets transcript, part.length < maxPart := by
  have hlabel : rootKeyLabel.length < maxPart := by decide
  simp [rootParts, hlabel]
  decide

section Derivation

variable [Blake2b]

/-- Derives the root key the transport layer starts from. -/
def rootKey (secrets : Secrets) (transcript : Transcript) : Digest :=
  hash (rootParts secrets transcript)

/-- The proof that a peer derived the same root key. -/
def confirmation (rootKey : Digest) (role : Role) : Digest :=
  let label := match role with
    | .a => confirmationALabel
    | .b => confirmationBLabel
  kdf rootKey [label]

/-- Where the hash has no collision between two handshakes, neither do their root keys. -/
theorem rootKey_injective {s s' : Secrets} {t t' : Transcript}
    (hcol : Set.InjOn Blake2b.digest {frame (rootParts s t), frame (rootParts s' t')})
    (h : rootKey s t = rootKey s' t') : s = s' ∧ t = t' := by
  apply rootParts_injective
  exact hash_injective hcol (by simp) (by simp) (length_rootParts s t) (length_rootParts s' t') h

end Derivation

end Onestein.Handshake
