import Onestein.Crypto.Agreement
import Onestein.Identity.Authenticity

/-!
# Recovery

The root key pair and the contact key are derived from one seed, so that whoever has the seed has
the identity. No other seed has it, and none of the three derived secrets is of use where another
one is meant.

## Main definitions

* `RecoverySeed` — the seed, and what is derived from it.
* `RecoverySeed.Purpose` — what a secret is derived for.

## Main results

* `RecoverySeed.derive_injective` — a derived secret names its seed and its purpose.
* `RecoverySeed.recovers_one` — one seed, one identity and one contact key.
-/

namespace Onestein.Identity

open Crypto

/-- Length of a recovery seed. -/
abbrev recoverySeedLen : Nat := 32

def rootEd25519Label : Bytes := Bytes.utf8 "org.onestein.identity/ROOT_ED25519"

def rootMldsaLabel : Bytes := Bytes.utf8 "org.onestein.identity/ROOT_MLDSA"

def contactKeyLabel : Bytes := Bytes.utf8 "org.onestein.identity/CONTACT_KEY"

/-- The one secret a person keeps. -/
structure RecoverySeed where
  bytes : Octets recoverySeedLen
  deriving DecidableEq

namespace RecoverySeed

/-- What a secret is derived for. -/
inductive Purpose where
  | rootEd25519
  | rootMldsa
  | contactKey
  deriving DecidableEq

def Purpose.label : Purpose → Bytes
  | rootEd25519 => rootEd25519Label
  | rootMldsa => rootMldsaLabel
  | contactKey => contactKeyLabel

section Derivation

variable [Blake2b]

def derive (seed : RecoverySeed) (purpose : Purpose) : Digest := kdf seed.bytes [purpose.label]

/-- The seed for the Ed25519 root key. -/
def rootEd25519Seed (seed : RecoverySeed) : Digest := seed.derive .rootEd25519

/-- The seed for the ML-DSA root key. -/
def rootMldsaSeed (seed : RecoverySeed) : Digest := seed.derive .rootMldsa

/-- The X25519 contact secret key. -/
def contactSecret (seed : RecoverySeed) : Digest := seed.derive .contactKey

/-- The X25519 contact public key, as it travels in a contact bundle. -/
def contactPublic [X25519] (seed : RecoverySeed) : Octets 32 := X25519.publicKey seed.contactSecret

/-- The root key pair. -/
def rootKeys (seed : RecoverySeed) : RootKeys := ⟨seed.rootEd25519Seed, seed.rootMldsaSeed⟩

/-- The identity this seed is. -/
def identityId [Ed25519] [MlDsa65] (seed : RecoverySeed) : Except Error IdentityId :=
  seed.rootKeys.identityId

end Derivation

/-- What is fed to keyed BLAKE2b for two seeds. -/
def inputs (seed seed' : RecoverySeed) : Set (Digest × Bytes) :=
  {input | (input.1 = seed.bytes ∨ input.1 = seed'.bytes) ∧
    ∃ purpose : Purpose, input.2 = frame [purpose.label]}

/-- What an identifier is the hash of. -/
def identityParts [Blake2b] [Ed25519] [MlDsa65] (seed : RecoverySeed) : List Bytes :=
  [identityIdLabel, [identityVersion], seed.rootKeys.ed25519Public.toList,
    seed.rootKeys.mldsaPublic.toList]

theorem Purpose.label_injective : Function.Injective Purpose.label := by
  intro purpose purpose' h
  cases purpose <;> cases purpose' <;> first | rfl | exact absurd h (by decide)

variable [Blake2b] {seed seed' : RecoverySeed} {purpose purpose' : Purpose}

/-- A derived secret names its seed and its purpose. -/
theorem derive_injective
    (hkeyed : Set.InjOn (fun input : Digest × Bytes => Blake2b.keyed input.1 input.2)
      (inputs seed seed'))
    (h : seed.derive purpose = seed'.derive purpose') : seed = seed' ∧ purpose = purpose' := by
  have hlength (purpose : Purpose) : ∀ part ∈ [purpose.label], part.length < maxPart := by
    cases purpose <;> decide
  obtain ⟨hbytes, hlabels⟩ :=
    kdf_injective hkeyed ⟨.inl rfl, purpose, rfl⟩ ⟨.inr rfl, purpose', rfl⟩
    (hlength _) (hlength _) h
  refine ⟨?_, Purpose.label_injective (List.cons.inj hlabels).1⟩
  cases seed
  cases seed'
  exact congrArg mk hbytes

section Keys

variable [Ed25519] [MlDsa65]

/-- Every seed is an identity. -/
theorem identityId_eq (seed : RecoverySeed) : seed.identityId = .ok ⟨hash seed.identityParts⟩ := by
  have hed : ¬ seed.rootKeys.ed25519Public.toList.length ≠ rootEd25519Len :=
    not_not.mpr (Vector.length_toList ..)
  have hmldsa : ¬ seed.rootKeys.mldsaPublic.toList.length ≠ rootMldsaLen :=
    not_not.mpr (Vector.length_toList ..)
  rw [identityId, RootKeys.identityId, IdentityId.derive, if_neg hed, if_neg hmldsa]
  rfl

theorem rootEd25519_eq_of_identityId_eq
    (hdigest : Set.InjOn Blake2b.digest {frame seed.identityParts, frame seed'.identityParts})
    (h : seed.identityId = seed'.identityId) :
    seed.rootKeys.ed25519Public = seed'.rootKeys.ed25519Public := by
  have hlength (seed : RecoverySeed) : ∀ part ∈ seed.identityParts, part.length < maxPart := by
    have hlabel : identityIdLabel.length < maxPart := by decide
    simp [identityParts, hlabel]
    decide
  rw [identityId_eq, identityId_eq] at h
  have hhash := congrArg IdentityId.bytes (Except.ok.inj h)
  have hparts := hash_injective hdigest (.inl rfl) (.inr rfl) (hlength _) (hlength _) hhash
  simp only [identityParts, List.cons.injEq, Vector.toList_inj] at hparts
  exact hparts.2.2.1

/-- One seed, one identity and one contact key: what a seed recovers no other seed recovers, and
none of the three secrets of a seed is another one, of this seed or of another. The hash has no
collision among what is fed to it, and different secrets have different public keys. -/
theorem recovers_one [X25519] (seed seed' : RecoverySeed)
    (hkeyed : Set.InjOn (fun input : Digest × Bytes => Blake2b.keyed input.1 input.2)
      (inputs seed seed'))
    (hdigest : Set.InjOn Blake2b.digest {frame seed.identityParts, frame seed'.identityParts})
    (hed25519 : Set.InjOn Ed25519.publicKey {seed.rootEd25519Seed, seed'.rootEd25519Seed})
    (hx25519 : Set.InjOn X25519.publicKey {seed.contactSecret, seed'.contactSecret}) :
    (∃ id, seed.identityId = .ok id) ∧
    (seed.identityId = seed'.identityId ↔ seed = seed') ∧
    (seed.contactPublic = seed'.contactPublic ↔ seed = seed') ∧
    ∀ purpose purpose', seed.derive purpose = seed'.derive purpose' ↔
      seed = seed' ∧ purpose = purpose' := by
  refine ⟨⟨_, identityId_eq seed⟩, ⟨fun h => ?_, fun h => by rw [h]⟩,
    ⟨fun h => ?_, fun h => by rw [h]⟩,
    fun purpose purpose' => ⟨derive_injective hkeyed, fun h => by rw [h.1, h.2]⟩⟩
  · have hpublic := rootEd25519_eq_of_identityId_eq hdigest h
    exact (derive_injective hkeyed (hed25519 (.inl rfl) (.inr rfl) hpublic)).1
  · exact (derive_injective hkeyed (hx25519 (.inl rfl) (.inr rfl) h)).1

end Keys

end RecoverySeed

/-! ## Two seeds -/

namespace RecoverySeed.Sample

attribute [local instance] checksum

local instance : Ed25519 := Identity.Sample.ed25519 []
local instance : MlDsa65 := Identity.Sample.mldsa65 []

/-- A stand-in that can be run: a public key is its secret. -/
local instance : X25519 where
  publicKey secret := secret
  diffieHellman secret _ := secret

def seed : RecoverySeed := ⟨.replicate 32 0x11⟩

def other : RecoverySeed := ⟨.replicate 32 0x12⟩

/-- What is fed to the keyed hash for the two seeds. -/
def fed : List (Digest × Bytes) :=
  [seed, other].flatMap fun s =>
    [Purpose.rootEd25519, .rootMldsa, .contactKey].map fun purpose =>
      (s.bytes, frame [purpose.label])

theorem keyed_injective :
    Set.InjOn (fun input : Digest × Bytes => Blake2b.keyed input.1 input.2)
      (inputs seed other) := by
  have hfed : ∀ x ∈ fed, ∀ y ∈ fed, Blake2b.keyed x.1 x.2 = Blake2b.keyed y.1 y.2 → x = y := by
    decide +kernel
  have hmem : ∀ x ∈ inputs seed other, x ∈ fed := by
    rintro ⟨key, input⟩ ⟨hkey, purpose, rfl⟩
    rcases hkey with rfl | rfl <;> cases purpose <;> simp [fed]
  exact fun x hx y hy => hfed x (hmem x hx) y (hmem y hy)

/-- Two seeds are two identities with two contact keys. -/
theorem recovers_one_two : seed.identityId ≠ other.identityId ∧
    seed.contactPublic ≠ other.contactPublic := by
  have hne : seed ≠ other := by decide
  obtain ⟨-, hidentity, hcontact, -⟩ := recovers_one seed other keyed_injective
    (Set.injOn_pair.mpr fun h => absurd h (by decide +kernel))
    (Set.injOn_of_injective Function.injective_id) (Set.injOn_of_injective Function.injective_id)
  exact ⟨fun h => hne (hidentity.mp h), fun h => hne (hcontact.mp h)⟩

end RecoverySeed.Sample

end Onestein.Identity
