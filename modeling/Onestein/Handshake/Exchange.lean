import Onestein.Handshake.RootKey

/-!
# One handshake between two devices

Each device sends its public keys, encapsulates to the other's, and fills in the secrets under the
names both sides share: where one encapsulates the other decapsulates. Both derive one root key, and
no other handshake derives the same.

## Main definitions

* `Device`, `Greeting`, `Encapsulations` — a device, and what it sends.
* `Device.secretsA`, `Device.secretsB` — what the two sides fill in.
* `Device.finishA`, `Device.finishB` — what the two sides derive.

## Main results

* `secrets_agree` — the two sides fill in the same secrets.
* `exchange_binds` — they derive the same keys, which bind everything that went in.
-/

namespace Onestein.Handshake

open Crypto

/-- A device in a handshake: its identity and signing key, its key pairs, and the randomness of
its two encapsulations. -/
structure Device where
  identityId : Octets hashLen
  deviceSigningPub : Octets hashLen
  static : KeyPair
  ephemeral : KeyPair
  toEphemeral : Octets 32
  toStatic : Octets 32

/-- What a device sends first: its ephemeral keys, and the rest in its certificate. -/
structure Greeting where
  identityId : Octets hashLen
  deviceSigningPub : Octets hashLen
  dhStaticPub : Octets x25519Len
  kemStaticPub : Octets kemEncapsulationKeyLen
  dhEphemeralPub : Octets x25519Len
  kemEphemeralPub : Octets kemEncapsulationKeyLen

/-- Two ciphertexts: to the peer's ephemeral key, then to the peer's static key. -/
structure Encapsulations where
  ctEphemeral : Octets kemCiphertextLen
  ctStatic : Octets kemCiphertextLen

/-- The ciphertexts for the peer, with the secrets they carry. -/
structure Encapsulated where
  sent : Encapsulations
  kemEphemeral : Octets hashLen
  kemStatic : Octets hashLen

/-- What a side has in the end. -/
structure Derived where
  rootKey : Digest
  confirmationA : Digest
  confirmationB : Digest

/-- The public values of a handshake, as both sides know them. -/
def transcript (a b : Greeting) (ctA ctB : Encapsulations) : Transcript where
  identityIdA := a.identityId
  identityIdB := b.identityId
  deviceSigningPubA := a.deviceSigningPub
  deviceSigningPubB := b.deviceSigningPub
  dhStaticPubA := a.dhStaticPub
  dhStaticPubB := b.dhStaticPub
  kemStaticPubA := a.kemStaticPub
  kemStaticPubB := b.kemStaticPub
  dhEphemeralPubA := a.dhEphemeralPub
  dhEphemeralPubB := b.dhEphemeralPub
  kemEphemeralPubA := a.kemEphemeralPub
  kemEphemeralPubB := b.kemEphemeralPub
  ctEphemeralA := ctA.ctEphemeral
  ctEphemeralB := ctB.ctEphemeral
  ctStaticA := ctA.ctStatic
  ctStaticB := ctB.ctStatic

section Sides

variable [X25519] [MlKem768]

namespace Device

def greeting (self : Device) : Greeting where
  identityId := self.identityId
  deviceSigningPub := self.deviceSigningPub
  dhStaticPub := self.static.x25519Public
  kemStaticPub := self.static.kemEncapsulationKey
  dhEphemeralPub := self.ephemeral.x25519Public
  kemEphemeralPub := self.ephemeral.kemEncapsulationKey

def encapsulate (self : Device) (peer : Greeting) : Except Error Encapsulated := do
  let ephemeral ← Handshake.encapsulate peer.kemEphemeralPub self.toEphemeral
  let static ← Handshake.encapsulate peer.kemStaticPub self.toStatic
  .ok ⟨⟨ephemeral.1, static.1⟩, ephemeral.2, static.2⟩

/-- A's view: it decapsulates what B sent. -/
def secretsA (self : Device) (peer : Greeting) (made : Encapsulated) (received : Encapsulations) :
    Except Error Secrets := do
  let dhEphemeral ← self.ephemeral.agree peer.dhEphemeralPub
  let dhEphemeralStatic ← self.ephemeral.agree peer.dhStaticPub
  let dhStaticEphemeral ← self.static.agree peer.dhEphemeralPub
  .ok {
    dhEphemeral := dhEphemeral
    dhEphemeralStatic := dhEphemeralStatic
    dhStaticEphemeral := dhStaticEphemeral
    kemEphemeralA := made.kemEphemeral
    kemEphemeralB := self.ephemeral.decapsulate received.ctEphemeral
    kemStaticA := made.kemStatic
    kemStaticB := self.static.decapsulate received.ctStatic }

/-- B's view: the mirror image. -/
def secretsB (self : Device) (peer : Greeting) (made : Encapsulated) (received : Encapsulations) :
    Except Error Secrets := do
  let dhEphemeral ← self.ephemeral.agree peer.dhEphemeralPub
  let dhEphemeralStatic ← self.static.agree peer.dhEphemeralPub
  let dhStaticEphemeral ← self.ephemeral.agree peer.dhStaticPub
  .ok {
    dhEphemeral := dhEphemeral
    dhEphemeralStatic := dhEphemeralStatic
    dhStaticEphemeral := dhStaticEphemeral
    kemEphemeralA := self.ephemeral.decapsulate received.ctEphemeral
    kemEphemeralB := made.kemEphemeral
    kemStaticA := self.static.decapsulate received.ctStatic
    kemStaticB := made.kemStatic }

end Device

/-- No agreement comes out all zeroes. B's agreements are A's, seen from the other side. -/
structure Contributory (a b : Device) : Prop where
  ephemeral : X25519.diffieHellman a.ephemeral.x25519 b.ephemeral.x25519Public ≠ .replicate 32 0
  ephemeralStatic :
    X25519.diffieHellman a.ephemeral.x25519 b.static.x25519Public ≠ .replicate 32 0
  staticEphemeral :
    X25519.diffieHellman a.static.x25519 b.ephemeral.x25519Public ≠ .replicate 32 0

omit [MlKem768] in
/-- Two key pairs agree, whichever side computes it. -/
theorem agree_comm (hagree : X25519.Commutes) {own peer : KeyPair}
    (h : X25519.diffieHellman own.x25519 peer.x25519Public ≠ .replicate 32 0) :
    ∃ shared, own.agree peer.x25519Public = .ok shared ∧
      peer.agree own.x25519Public = .ok shared := by
  have hswap : X25519.diffieHellman peer.x25519 own.x25519Public =
      X25519.diffieHellman own.x25519 peer.x25519Public := hagree peer.x25519 own.x25519
  refine ⟨_, if_neg h, ?_⟩
  rw [KeyPair.agree, hswap]
  exact if_neg h

omit [X25519] in
/-- What is encapsulated to a key pair is recovered by it. -/
theorem decapsulate_encapsulate (hkem : MlKem768.Inverts) (peer : KeyPair)
    (randomness : Octets 32) : ∃ ciphertext,
      encapsulate peer.kemEncapsulationKey randomness =
        .ok (ciphertext, peer.decapsulate ciphertext) := by
  obtain ⟨hkey, hinverts⟩ := hkem peer.kem randomness
  refine ⟨(MlKem768.encapsulate peer.kemEncapsulationKey randomness).1, ?_⟩
  have hok : encapsulate peer.kemEncapsulationKey randomness =
      .ok (MlKem768.encapsulate peer.kemEncapsulationKey randomness) := if_pos hkey
  rw [hok]
  exact congrArg Except.ok (Prod.ext rfl hinverts.symm)

/-- A device can encapsulate to what the other one greets with, and the other one recovers both
secrets. -/
theorem encapsulate_greeting (hkem : MlKem768.Inverts) (own peer : Device) :
    ∃ made, own.encapsulate peer.greeting = .ok made ∧
      peer.ephemeral.decapsulate made.sent.ctEphemeral = made.kemEphemeral ∧
      peer.static.decapsulate made.sent.ctStatic = made.kemStatic := by
  obtain ⟨ctEphemeral, hephemeral⟩ :=
    decapsulate_encapsulate hkem peer.ephemeral own.toEphemeral
  obtain ⟨ctStatic, hstatic⟩ := decapsulate_encapsulate hkem peer.static own.toStatic
  refine ⟨⟨⟨ctEphemeral, ctStatic⟩, peer.ephemeral.decapsulate ctEphemeral,
    peer.static.decapsulate ctStatic⟩, ?_, rfl, rfl⟩
  simp only [Device.encapsulate, Device.greeting, hephemeral, hstatic, Except.ok_bind]

/-- The two sides fill in the same seven secrets. -/
theorem secrets_agree (hagree : X25519.Commutes) (hkem : MlKem768.Inverts) {a b : Device}
    (h : Contributory a b) : ∃ madeA madeB secrets,
      a.encapsulate b.greeting = .ok madeA ∧ b.encapsulate a.greeting = .ok madeB ∧
      a.secretsA b.greeting madeA madeB.sent = .ok secrets ∧
      b.secretsB a.greeting madeB madeA.sent = .ok secrets := by
  obtain ⟨madeA, hmadeA, hephemeralA, hstaticA⟩ := encapsulate_greeting hkem a b
  obtain ⟨madeB, hmadeB, hephemeralB, hstaticB⟩ := encapsulate_greeting hkem b a
  obtain ⟨dhEphemeral, ha₁, hb₁⟩ := agree_comm hagree h.ephemeral
  obtain ⟨dhEphemeralStatic, ha₂, hb₂⟩ := agree_comm hagree h.ephemeralStatic
  obtain ⟨dhStaticEphemeral, ha₃, hb₃⟩ := agree_comm hagree h.staticEphemeral
  refine ⟨madeA, madeB, ⟨dhEphemeral, dhEphemeralStatic, dhStaticEphemeral, madeA.kemEphemeral,
    madeB.kemEphemeral, madeA.kemStatic, madeB.kemStatic⟩, hmadeA, hmadeB, ?_, ?_⟩
  · simp only [Device.secretsA, Device.greeting, ha₁, ha₂, ha₃, hephemeralB, hstaticB,
      Except.ok_bind]
  · simp only [Device.secretsB, Device.greeting, hb₁, hb₂, hb₃, hephemeralA, hstaticA,
      Except.ok_bind]

variable [Blake2b]

/-- The root key of some secrets and public values, and the two confirmations of it. -/
def derive (secrets : Secrets) (transcript : Transcript) : Derived where
  rootKey := rootKey secrets transcript
  confirmationA := confirmation (rootKey secrets transcript) .a
  confirmationB := confirmation (rootKey secrets transcript) .b

namespace Device

/-- What A derives from B's greeting and encapsulations. -/
def finishA (self : Device) (peer : Greeting) (received : Encapsulations) :
    Except Error Derived := do
  let made ← self.encapsulate peer
  let secrets ← self.secretsA peer made received
  .ok (derive secrets (transcript self.greeting peer made.sent received))

/-- What B derives from A's greeting and encapsulations. -/
def finishB (self : Device) (peer : Greeting) (received : Encapsulations) :
    Except Error Derived := do
  let made ← self.encapsulate peer
  let secrets ← self.secretsB peer made received
  .ok (derive secrets (transcript peer self.greeting received made.sent))

end Device

/-- Both sides derive one root key and the same confirmations, and the root key of a handshake that
differs in any secret or public value differs too, where the hash has no collision between the
two. -/
theorem exchange_binds (hagree : X25519.Commutes) (hkem : MlKem768.Inverts) :
    (∀ a b : Device, Contributory a b → ∃ madeA madeB derived,
      a.encapsulate b.greeting = .ok madeA ∧ b.encapsulate a.greeting = .ok madeB ∧
      a.finishA b.greeting madeB.sent = .ok derived ∧
      b.finishB a.greeting madeA.sent = .ok derived) ∧
    ∀ (s s' : Secrets) (t t' : Transcript),
      Set.InjOn Blake2b.digest {frame (rootParts s t), frame (rootParts s' t')} →
      s ≠ s' ∨ t ≠ t' → rootKey s t ≠ rootKey s' t' := by
  constructor
  · intro a b h
    obtain ⟨madeA, madeB, secrets, hencA, hencB, hsecA, hsecB⟩ := secrets_agree hagree hkem h
    refine ⟨madeA, madeB,
      derive secrets (transcript a.greeting b.greeting madeA.sent madeB.sent), hencA, hencB, ?_, ?_⟩
    · simp only [Device.finishA, hencA, hsecA, Except.ok_bind]
    · simp only [Device.finishB, hencB, hsecB, Except.ok_bind]
  · intro s s' t t' hcol hne heq
    obtain ⟨hs, ht⟩ := rootKey_injective hcol heq
    rcases hne with hne | hne
    · exact hne hs
    · exact hne ht

end Sides

/-! ## A handshake that can be run -/

namespace Sample

attribute [local instance] checksum

/-- Stand-ins for the two schemes that can be run: a shared secret is the sum of two secrets, and
a ciphertext is the randomness it was made from. -/
abbrev x25519 : X25519 where
  publicKey secret := secret
  diffieHellman secret peer := Octets.be 32 (Bytes.val secret.toList + Bytes.val peer.toList)

abbrev mlKem768 : MlKem768 where
  encapsulationKey seed := Octets.be 1184 (Bytes.val seed.toList)
  isEncapsulationKey _ := true
  encapsulate key randomness := (Octets.be 1088 (Bytes.val randomness.toList),
    Octets.be 32 (Bytes.val key.toList + Bytes.val randomness.toList))
  decapsulate seed ciphertext := Octets.be 32
    (Bytes.val (Octets.be 1184 (Bytes.val seed.toList)).toList + Bytes.val ciphertext.toList)

attribute [local instance] x25519 mlKem768

theorem commutes : X25519.Commutes := fun _ _ => congrArg (Octets.be 32) (Nat.add_comm _ _)

theorem inverts : MlKem768.Inverts := by
  intro seed randomness
  refine ⟨rfl, ?_⟩
  have hval : Bytes.val (Octets.be 1088 (Bytes.val randomness.toList)).toList =
      Bytes.val randomness.toList := Bytes.val_be_val (by simp)
  exact congrArg (fun n => Octets.be 32
    (Bytes.val (Octets.be 1184 (Bytes.val seed.toList)).toList + n)) hval

def pair (byte : UInt8) : KeyPair := .fromSeeds (.replicate 32 byte) (.replicate 64 byte)

def deviceA : Device where
  identityId := .replicate 32 0x01
  deviceSigningPub := .replicate 32 0x03
  static := pair 0x11
  ephemeral := pair 0x33
  toEphemeral := .replicate 32 0x77
  toStatic := .replicate 32 0x88

def deviceB : Device where
  identityId := .replicate 32 0x02
  deviceSigningPub := .replicate 32 0x04
  static := pair 0x22
  ephemeral := pair 0x44
  toEphemeral := .replicate 32 0x55
  toStatic := .replicate 32 0x66

def secrets : Secrets :=
  ⟨.replicate 32 1, .replicate 32 2, .replicate 32 3, .replicate 32 4, .replicate 32 5,
    .replicate 32 6, .replicate 32 7⟩

/-- One secret taken for another. -/
def swapped : Secrets := { secrets with kemStaticB := .replicate 32 6 }

def publicValues : Transcript :=
  transcript deviceA.greeting deviceB.greeting ⟨.replicate 1088 1, .replicate 1088 2⟩
    ⟨.replicate 1088 3, .replicate 1088 4⟩

/-- Two devices finish with the same keys, and one secret taken for another changes the root key. -/
theorem exchange_binds_sample :
    (∃ madeA madeB derived,
      deviceA.encapsulate deviceB.greeting = .ok madeA ∧
      deviceB.encapsulate deviceA.greeting = .ok madeB ∧
      deviceA.finishA deviceB.greeting madeB.sent = .ok derived ∧
      deviceB.finishB deviceA.greeting madeA.sent = .ok derived) ∧
    rootKey secrets publicValues ≠ rootKey swapped publicValues := by
  obtain ⟨hsame, hdiffer⟩ := exchange_binds commutes inverts
  have hcontributory : Contributory deviceA deviceB :=
    ⟨by decide +kernel, by decide +kernel, by decide +kernel⟩
  have hne : secrets ≠ swapped := by
    intro h
    exact absurd (congrArg Secrets.kemStaticB h) (by decide)
  refine ⟨hsame _ _ hcontributory, hdiffer _ _ _ _ ?_ (.inl hne)⟩
  apply Set.injOn_pair.mpr
  intro h
  exact absurd h (by decide +kernel)

end Sample

end Onestein.Handshake
