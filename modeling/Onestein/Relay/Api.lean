import Onestein.Relay.Store

/-!
# Answering requests

The handler of the relay. A challenge is good once: it is taken out of the map the moment it
is used, whether the proof was good or not.

## Main definitions

* `Request` and `Response` — what a user and a relay say.
* `handle` — answers one request.
* `State.step` — a relay at work: requests, and the daemon dropping what has expired.
-/

namespace Onestein.Relay

open Crypto

/-- What a user of a relay says. -/
inductive Request where
  | register (queueId : QueueId) (writePublic readPublic : Octets 32)
  | challengeRequest (queueId : QueueId) (right : Right)
  | write (queueId : QueueId) (proof : Proof) (blob : Bytes)
  | read (queueId : QueueId) (proof : Proof)
  | delete (queueId : QueueId) (proof : Proof) (blobId : Digest)
  deriving DecidableEq

/-- What a relay says back. -/
inductive Response where
  | challenge (challenge : Octets 32)
  | blob (blobId : Digest) (blob : Bytes)
  | ok
  | empty
  | refused (refusal : Refusal)
  deriving DecidableEq

def rightByte : Right → UInt8
  | .write => 0
  | .read => 1

theorem rightByte_injective {r s : Right} (h : rightByte r = rightByte s) : r = s := by
  cases r <;> cases s <;> simp_all [rightByte]

@[simp] theorem rightByte_inj {r s : Right} : rightByte r = rightByte s ↔ r = s :=
  ⟨rightByte_injective, congrArg rightByte⟩

attribute [local instance] lexOrd

instance instTransOrdKey : Std.TransOrd (QueueId × UInt8) := Std.instTransOrdProd

/-- The challenges a relay is waiting on, keyed by queue and right. -/
abbrev Challenges := Std.ExtTreeMap (QueueId × UInt8) (Octets 32)

section Challenges

variable {challenges : Challenges} {key other : QueueId × UInt8}

theorem challenges_insert {challenge : Octets 32} :
    (challenges.insert key challenge)[other]? =
      if key = other then some challenge else challenges[other]? := by
  rw [Std.ExtTreeMap.getElem?_insert]
  simp

theorem challenges_erase :
    (challenges.erase key)[other]? = if key = other then none else challenges[other]? := by
  rw [Std.ExtTreeMap.getElem?_erase]
  simp

end Challenges

variable [Ed25519]

/-- Takes the outstanding challenge and checks the proof against it. -/
def spend (store : Store) (challenges : Challenges) (queueId : QueueId) (right : Right)
    (proof : Proof) : Challenges × Except Refusal Unit :=
  match store.registration queueId with
  | none => (challenges, .error .unknownQueue)
  | some registration =>
    match challenges[(queueId, rightByte right)]? with
    | none => (challenges, .error .unknownChallenge)
    | some challenge =>
      let challenges := challenges.erase (queueId, rightByte right)
      match registration.check right challenge.toList proof with
      | .ok () => (challenges, .ok ())
      | .error _ => (challenges, .error .badProof)

/-- A relay: what it holds and the challenges it is waiting on. -/
structure State where
  store : Store
  challenges : Challenges

/-- A relay that holds nothing. -/
def State.new : State := ⟨.new, ∅⟩

variable [Blake2b]

/-- Answers one request. -/
def handle (store : Store) (challenges : Challenges) (request : Request) (nowMs : UInt64)
    (freshChallenge : Octets 32) : State × Response :=
  match request with
  | .register queueId writePublic readPublic =>
    (⟨store.register queueId ⟨writePublic, readPublic⟩ nowMs, challenges⟩, .ok)
  | .challengeRequest queueId right =>
    match store.registration queueId with
    | none => (⟨store, challenges⟩, .refused .unknownQueue)
    | some _ =>
      (⟨store, challenges.insert (queueId, rightByte right) freshChallenge⟩,
        .challenge freshChallenge)
  | .write queueId proof blob =>
    match spend store challenges queueId .write proof with
    | (challenges, .error refusal) => (⟨store, challenges⟩, .refused refusal)
    | (challenges, .ok ()) =>
      match store.write queueId blob nowMs with
      | (store, .ok _) => (⟨store, challenges⟩, .ok)
      | (store, .error refusal) => (⟨store, challenges⟩, .refused refusal)
  | .read queueId proof =>
    match spend store challenges queueId .read proof with
    | (challenges, .error refusal) => (⟨store, challenges⟩, .refused refusal)
    | (challenges, .ok ()) =>
      match store.read queueId with
      | some (blobId, blob) => (⟨store, challenges⟩, .blob blobId blob)
      | none => (⟨store, challenges⟩, .empty)
  | .delete queueId proof blobId =>
    match spend store challenges queueId .read proof with
    | (challenges, .error refusal) => (⟨store, challenges⟩, .refused refusal)
    | (challenges, .ok ()) =>
      match store.delete queueId blobId with
      | (store, .ok ()) => (⟨store, challenges⟩, .ok)
      | (store, .error refusal) => (⟨store, challenges⟩, .refused refusal)

/-- What happens at a relay: a request with the time and a fresh challenge, or the daemon
dropping what has expired. -/
inductive Event where
  | handle (request : Request) (nowMs : UInt64) (freshChallenge : Octets 32)
  | expire (nowMs : UInt64)

/-- One event, with the response if there is one. -/
def State.step (relay : State) : Event → State × Option Response
  | .handle request nowMs freshChallenge =>
    let (relay, response) := handle relay.store relay.challenges request nowMs freshChallenge
    (relay, some response)
  | .expire nowMs => ({ relay with store := relay.store.expire nowMs }, none)

end Onestein.Relay
