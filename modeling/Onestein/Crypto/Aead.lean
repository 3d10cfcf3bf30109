import Onestein.Lib.Bytes

/-!
# Authenticated encryption

XSalsa20/Poly1305 is a parameter: a key of 32 bytes, a nonce of 24, a tag of 16 in front of what it
encrypts.

## Main definitions

* `Aead` — sealing and opening.
* `Aead.Ideal` — that what is sealed opens where it was sealed, and nowhere else.
-/

namespace Onestein.Crypto

/-- XSalsa20/Poly1305. -/
class Aead where
  /-- The ciphertext under a key and a nonce. -/
  encrypt : Octets 32 → Octets 24 → Bytes → Bytes
  /-- The plaintext, if the ciphertext authenticates. -/
  decrypt : Octets 32 → Octets 24 → Bytes → Option Bytes

/-- Length of an authentication tag. -/
abbrev authLen : Nat := 16

/-- Decryption inverts encryption, a ciphertext is a tag longer than its plaintext, and among the
keys and nonces in use it opens only under those it was sealed with. -/
structure Aead.Ideal [Aead] (uses : Set (Octets 32 × Octets 24)) : Prop where
  decrypt_encrypt : ∀ key nonce plaintext,
    Aead.decrypt key nonce (Aead.encrypt key nonce plaintext) = some plaintext
  length_encrypt : ∀ key nonce plaintext,
    (Aead.encrypt key nonce plaintext).length = plaintext.length + authLen
  binds : ∀ use ∈ uses, ∀ use' ∈ uses, ∀ plaintext opened,
    Aead.decrypt use'.1 use'.2 (Aead.encrypt use.1 use.2 plaintext) = some opened → use = use'

end Onestein.Crypto
