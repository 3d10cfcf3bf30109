import Onestein.Lib.Bytes

/-!
# Signature schemes

Ed25519 and ML-DSA-65 are parameters. Keys and signatures are the byte arrays that are sent
and stored; the decoding of either may refuse.

## Main definitions

* `Ed25519`, `MlDsa65` — the operations of the two schemes.
* `Ed25519.Verifies`, `MlDsa65.Verifies` — that a signature made verifies.
* `Ed25519.Ideal`, `MlDsa65.Ideal` — that a key's signatures cannot be forged.
* `Ed25519.Binding` — that a signature is good for one key and one message.
-/

namespace Onestein.Crypto

/-- Ed25519. -/
class Ed25519 where
  /-- The public key of a seed. -/
  publicKey : Octets 32 → Octets 32
  /-- A signature under a seed. -/
  sign : Octets 32 → Bytes → Octets 64
  /-- Whether the bytes decode to a verifying key. -/
  isKey : Octets 32 → Bool
  /-- Whether a signature verifies under a verifying key. -/
  verify : Octets 32 → Bytes → Octets 64 → Bool

/-- ML-DSA-65 with the empty context. -/
class MlDsa65 where
  /-- The encoded public key of a seed. -/
  publicKey : Octets 32 → Octets 1952
  /-- The deterministic signature under a seed, unless signing fails. -/
  sign : Octets 32 → Bytes → Option (Octets 3309)
  /-- Whether the bytes decode to a signature. -/
  isSignature : Octets 3309 → Bool
  /-- Whether a signature verifies under a public key. -/
  verify : Octets 1952 → Bytes → Octets 3309 → Bool

/-- What is signed under a seed verifies under its public key. -/
def Ed25519.Verifies [Ed25519] (seed : Octets 32) (message : Bytes) : Prop :=
  Ed25519.isKey (Ed25519.publicKey seed) ∧
    Ed25519.verify (Ed25519.publicKey seed) message (Ed25519.sign seed message)

/-- What is signed under a seed verifies under its public key. -/
def MlDsa65.Verifies [MlDsa65] (seed : Octets 32) (message : Bytes) : Prop :=
  ∀ signature, MlDsa65.sign seed message = some signature →
    MlDsa65.isSignature signature ∧ MlDsa65.verify (MlDsa65.publicKey seed) message signature

/-- Nobody forges: a signature verifies under the key only on the messages its owner signed. -/
def Ed25519.Ideal [Ed25519] (key : Octets 32) (signed : Set Bytes) : Prop :=
  ∀ message signature, Ed25519.verify key message signature → message ∈ signed

/-- Nobody forges: a signature verifies under the key only on the messages its owner signed. -/
def MlDsa65.Ideal [MlDsa65] (key : Octets 1952) (signed : Set Bytes) : Prop :=
  ∀ message signature, MlDsa65.verify key message signature → message ∈ signed

/-- Signatures are good for one key and one message: among some seeds and messages, a signature that
was made verifies under no other key and on no other message. -/
def Ed25519.Binding [Ed25519] (seeds : Set (Octets 32)) (messages : Set Bytes) : Prop :=
  ∀ seed ∈ seeds, ∀ seed' ∈ seeds, ∀ message ∈ messages, ∀ message' ∈ messages,
    Ed25519.verify (Ed25519.publicKey seed) message (Ed25519.sign seed' message') →
      Ed25519.publicKey seed = Ed25519.publicKey seed' ∧ message = message'

end Onestein.Crypto
