import Onestein.Lib.Bytes

/-!
# Key agreement

X25519 and ML-KEM-768 are parameters. Secrets are the bytes a key is made from, so that a key pair
is its seeds.

## Main definitions

* `X25519`, `MlKem768` — the operations of the two schemes.
* `X25519.Commutes` — that two parties agree.
* `MlKem768.Inverts` — that decapsulation recovers what was encapsulated.
-/

namespace Onestein.Crypto

/-- X25519. -/
class X25519 where
  /-- The public key of a secret. -/
  publicKey : Octets 32 → Octets 32
  /-- The shared secret of one's own secret and a peer's public key. -/
  diffieHellman : Octets 32 → Octets 32 → Octets 32

/-- ML-KEM-768. -/
class MlKem768 where
  /-- The encapsulation key that belongs to the decapsulation key of a seed. -/
  encapsulationKey : Octets 64 → Octets 1184
  /-- Whether the bytes decode to an encapsulation key. -/
  isEncapsulationKey : Octets 1184 → Bool
  /-- The ciphertext and the secret, from caller-supplied randomness. -/
  encapsulate : Octets 1184 → Octets 32 → Octets 1088 × Octets 32
  /-- The secret of a ciphertext. A ciphertext that was tampered with yields another one. -/
  decapsulate : Octets 64 → Octets 1088 → Octets 32

/-- Two secrets agree whichever of them meets the other's public key. -/
def X25519.Commutes [X25519] : Prop :=
  ∀ a b, X25519.diffieHellman a (X25519.publicKey b) = X25519.diffieHellman b (X25519.publicKey a)

/-- The key of a seed can be encapsulated to, and decapsulation recovers the secret. -/
def MlKem768.Inverts [MlKem768] : Prop :=
  ∀ seed randomness, MlKem768.isEncapsulationKey (MlKem768.encapsulationKey seed) ∧
    MlKem768.decapsulate seed (MlKem768.encapsulate (MlKem768.encapsulationKey seed) randomness).1 =
      (MlKem768.encapsulate (MlKem768.encapsulationKey seed) randomness).2

end Onestein.Crypto
