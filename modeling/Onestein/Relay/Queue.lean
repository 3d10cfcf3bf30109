import Onestein.Crypto.Hash
import Onestein.Crypto.Signature
import Onestein.Lib.Fallible

/-!
# Queues at a relay: keys and proofs

A queue is registered with two public keys, one for each right. A proof of a right is a
signature over the label of the right and a challenge.

## Main definitions

* `queueId`, `QueueKeys.derive` — the name and the keys of a queue.
* `QueueKeys.prove` — signs a challenge for a right.
* `Registration.check` — checks a proof, as a relay does.

## Main results

* `QueueKeys.check_prove` — a proof that was made is accepted.
-/

namespace Onestein.Relay

open Crypto

/-- Length of a queue identifier. -/
abbrev queueIdLen : Nat := hashLen

/-- Length of a proof. -/
abbrev proofLen : Nat := 64

abbrev QueueId := Octets queueIdLen

abbrev Proof := Octets proofLen

/-- The shortest challenge a relay may hand out. -/
def minChallengeLen : Nat := 16

/-- The largest blob a queue accepts, in bytes. -/
def maxBlobLen : Nat := 64 * 1024

/-- The largest a queue may grow, in bytes. -/
def maxQueueLen : Nat := 16 * 1024 * 1024

/-- How long a blob is kept, collected or not, in days. -/
def blobExpiryDays : UInt64 := 30

/-- How long a queue outlives its last write, in days. -/
def queueExpiryDays : UInt64 := 60

def queueALabel : Bytes := Bytes.utf8 "org.onestein.relay/QUEUE_A"
def queueBLabel : Bytes := Bytes.utf8 "org.onestein.relay/QUEUE_B"
def writeLabel : Bytes := Bytes.utf8 "org.onestein.relay/WRITE"
def readLabel : Bytes := Bytes.utf8 "org.onestein.relay/READ"
def writeProofLabel : Bytes := Bytes.utf8 "org.onestein.relay/WRITE_PROOF"
def readProofLabel : Bytes := Bytes.utf8 "org.onestein.relay/READ_PROOF"

/-- Which of a pair's two queues at a relay: from the device whose identity identifier sorts earlier
to the other, or the other way. -/
inductive Direction where
  | aToB
  | bToA
  deriving DecidableEq

/-- Which of a queue's two rights a proof is for: putting a blob in, or taking one out and
deleting it. -/
inductive Right where
  | write
  | read
  deriving DecidableEq

/-- Why a proof was not accepted. -/
inductive Error where
  | badProof
  | challengeTooShort (given : Nat)
  | malformedKey
  deriving DecidableEq

section Derivation

variable [Blake2b]

def derive (rootKey : Digest) (label : Bytes) (relayId : String) (period : UInt64) : Digest :=
  kdf rootKey [label, Bytes.utf8 relayId, Bytes.be 8 period.toNat]

/-- The name of one queue in one period. -/
def queueId (rootKey : Digest) (direction : Direction) (relayId : String) (period : UInt64) :
    QueueId :=
  let label := match direction with
    | .aToB => queueALabel
    | .bToA => queueBLabel
  derive rootKey label relayId period

end Derivation

/-- The message a proof signs: the label for the right, then the challenge. -/
def proofMessage (right : Right) (challenge : Bytes) : Bytes :=
  let label := match right with
    | .write => writeProofLabel
    | .read => readProofLabel
  label ++ challenge

def longEnough (challenge : Bytes) : Except Error Unit :=
  if challenge.length < minChallengeLen then .error (.challengeTooShort challenge.length)
  else .ok ()

theorem longEnough_toList {n : Nat} (hn : minChallengeLen ≤ n) (challenge : Octets n) :
    longEnough challenge.toList = .ok () := by
  simp [longEnough, hn.not_gt]

/-- What a relay stores for a queue: two public keys and nothing else. -/
structure Registration where
  writePublic : Octets 32
  readPublic : Octets 32
  deriving DecidableEq

/-- A peer's keys for one queue in one period, as the seeds they are made from. -/
structure QueueKeys where
  write : Octets 32
  read : Octets 32

/-- Derives both key pairs from the pairwise root key. The direction is in the relay identifier's
place in the derivation. -/
def QueueKeys.derive [Blake2b] (rootKey : Digest) (direction : Direction) (relayId : String)
    (period : UInt64) : QueueKeys :=
  let scope := match direction with
    | .aToB => relayId ++ "/a"
    | .bToA => relayId ++ "/b"
  ⟨Relay.derive rootKey writeLabel scope period, Relay.derive rootKey readLabel scope period⟩

section Proofs

variable [Ed25519]

namespace QueueKeys

/-- The public keys a relay is handed on first use. -/
def registration (keys : QueueKeys) : Registration :=
  ⟨Ed25519.publicKey keys.write, Ed25519.publicKey keys.read⟩

/-- Signs a challenge for one of the two rights. -/
def prove (keys : QueueKeys) (right : Right) (challenge : Bytes) : Except Error Proof := do
  longEnough challenge
  let key := match right with
    | .write => keys.write
    | .read => keys.read
  .ok (Ed25519.sign key (proofMessage right challenge))

end QueueKeys

/-- Checks a proof, as a relay does. -/
def Registration.check (registration : Registration) (right : Right)
    (challenge : Bytes) (proof : Proof) : Except Error Unit := do
  longEnough challenge
  let key := match right with
    | .write => registration.writePublic
    | .read => registration.readPublic
  if Ed25519.isKey key then
    if Ed25519.verify key (proofMessage right challenge) proof then .ok ()
    else .error .badProof
  else .error .malformedKey

namespace QueueKeys

variable {keys : QueueKeys}

/-- A challenge of a relay is long enough to be proved over. -/
theorem exists_prove (right : Right) (challenge : Octets 32) :
    ∃ proof, keys.prove right challenge.toList = .ok proof := by
  simp [prove, longEnough_toList (by decide : minChallengeLen ≤ 32)]

/-- A proof that was made is accepted. -/
theorem check_prove (hwrite : ∀ message, Ed25519.Verifies keys.write message)
    (hread : ∀ message, Ed25519.Verifies keys.read message) {right : Right} {challenge : Bytes}
    {proof : Proof} (h : keys.prove right challenge = .ok proof) :
    keys.registration.check right challenge proof = .ok () := by
  obtain ⟨_, hlong, hsign⟩ := Except.bind_eq_ok.mp h
  obtain rfl := Except.ok.inj hsign
  cases right with
  | write =>
    obtain ⟨hkey, hverify⟩ := hwrite (proofMessage .write challenge)
    simp [Registration.check, registration, hlong, hkey, hverify]
  | read =>
    obtain ⟨hkey, hverify⟩ := hread (proofMessage .read challenge)
    simp [Registration.check, registration, hlong, hkey, hverify]

end QueueKeys

end Proofs

namespace Sample

/-- A stand-in for the signature scheme that can be run: a public key is its seed, and a signature
is the end of the key and the message. -/
abbrev ed25519 : Ed25519 where
  publicKey seed := seed
  sign seed message := Octets.be 64 (Bytes.val (seed.toList ++ message))
  isKey _ := true
  verify key message signature :=
    signature == Octets.be 64 (Bytes.val (key.toList ++ message))

def keys : QueueKeys := ⟨.replicate 32 0x11, .replicate 32 0x22⟩

def queueId : QueueId := .replicate 32 0x33

theorem verifies (seed : Octets 32) (message : Bytes) :
    @Ed25519.Verifies ed25519 seed message :=
  ⟨rfl, beq_self_eq_true _⟩

end Sample

end Onestein.Relay
