import Onestein.Handshake.Derivations

/-!
# What a proof is good for

The keys of a queue are derived from a root key, a direction, a relay and a period. A proof that is
made with them is accepted for this queue in this period, for one right and on one challenge.

## Main definitions

* `Generation` — what the keys of a queue are derived from.
* `Generation.seed` — the seed that the proofs of a right are signed with.

## Main results

* `proofMessage_injective` — the message fixes the right and the challenge.
* `Generation.check_prove_iff` — which proofs are accepted.
-/

namespace Onestein.Relay

open Crypto

/-- The labels tell the rights apart, whatever challenge follows them. -/
theorem proofMessage_injective {right right' : Right} {challenge challenge' : Bytes}
    (h : proofMessage right challenge = proofMessage right' challenge') :
    right = right' ∧ challenge = challenge' := by
  have hlabels : ∀ challenge challenge' : Bytes,
      proofMessage .write challenge ≠ proofMessage .read challenge' := by
    intro challenge challenge' heq
    have hletter : (0x57 : UInt8) = 0x52 := congrArg (·.getD 19 0) heq
    exact absurd hletter (by decide)
  cases right <;> cases right'
  case write.write => exact ⟨rfl, List.append_cancel_left h⟩
  case write.read => exact absurd h (hlabels _ _)
  case read.write => exact absurd h.symm (hlabels _ _)
  case read.read => exact ⟨rfl, List.append_cancel_left h⟩

/-- What the keys of a queue in one period are derived from. -/
structure Generation where
  rootKey : Digest
  direction : Direction
  relayId : String
  period : UInt64
  deriving DecidableEq

namespace Generation

/-- The key and the bytes that the seed of a right is derived from. -/
def seedInput (generation : Generation) (right : Right) : Digest × Bytes :=
  (generation.rootKey, (Derivation.seed right generation.direction generation.relayId
    generation.period).input)

/-- What is derived for two generations. -/
def seedInputs (generation generation' : Generation) : List (Digest × Bytes) :=
  [generation.seedInput .write, generation.seedInput .read, generation'.seedInput .write,
    generation'.seedInput .read]

variable {generation generation' : Generation} {right right' : Right}
  {challenge challenge' : Bytes}

theorem seedInput_injective
    (h : generation.seedInput right = generation'.seedInput right') :
    generation = generation' ∧ right = right' := by
  obtain ⟨hkey, hinput⟩ := Prod.mk.inj h
  obtain ⟨hright, hdirection, hrelay, hperiod⟩ :=
    Derivation.seed.inj (Derivation.input_injective hinput)
  cases generation
  cases generation'
  simp_all

theorem seedInput_mem (right : Right) :
    generation.seedInput right ∈ seedInputs generation generation' ∧
      generation'.seedInput right ∈ seedInputs generation generation' := by
  cases right <;> simp [seedInputs]

section Keys

variable [Blake2b]

/-- The keys of a queue in one period. -/
def keys (generation : Generation) : QueueKeys :=
  QueueKeys.derive generation.rootKey generation.direction generation.relayId generation.period

/-- The seed that the proofs of a right are signed with. -/
def seed (generation : Generation) (right : Right) : Octets 32 :=
  Blake2b.keyed (generation.seedInput right).1 (generation.seedInput right).2

/-- The seeds of two generations. -/
def seeds (generation generation' : Generation) : List (Octets 32) :=
  [generation.seed .write, generation.seed .read, generation'.seed .write, generation'.seed .read]

theorem keys_eq (generation : Generation) :
    generation.keys = ⟨generation.seed .write, generation.seed .read⟩ :=
  Derivation.queueKeys_eq _ _ _ _

theorem seed_mem (generation generation' : Generation) (right : Right) :
    generation.seed right ∈ seeds generation generation' ∧
      generation'.seed right ∈ seeds generation generation' := by
  cases right <;> simp [seeds]

variable [Ed25519]

/-- The proof that is made on a challenge. -/
theorem prove_eq (hlong : minChallengeLen ≤ challenge.length) :
    generation.keys.prove right challenge =
      .ok (Ed25519.sign (generation.seed right) (proofMessage right challenge)) := by
  cases right <;> simp [keys_eq, QueueKeys.prove, longEnough, hlong.not_gt]

/-- The proofs that are accepted on a challenge. -/
theorem check_eq_ok (hlong : minChallengeLen ≤ challenge.length) (proof : Proof) :
    generation.keys.registration.check right challenge proof = .ok () ↔
      Ed25519.isKey (Ed25519.publicKey (generation.seed right)) ∧
        Ed25519.verify (Ed25519.publicKey (generation.seed right)) (proofMessage right challenge)
          proof := by
  cases right <;>
    simp [keys_eq, QueueKeys.registration, Registration.check, longEnough, hlong.not_gt,
      Except.ite_eq_ok]

/-- A proof is good for one right, one challenge and one generation of one queue. The seeds have no
collision and have different keys, and signatures are good for one key and one message: among what
is derived, and signed, for the two generations and challenges. -/
theorem check_prove_iff (generation generation' : Generation) (right right' : Right)
    {challenge challenge' : Bytes} (hlong : minChallengeLen ≤ challenge.length)
    (hlong' : minChallengeLen ≤ challenge'.length)
    (hcollision : Set.InjOn (fun input : Digest × Bytes => Blake2b.keyed input.1 input.2)
      {input | input ∈ seedInputs generation generation'})
    (hkeys : Set.InjOn Ed25519.publicKey {seed | seed ∈ seeds generation generation'})
    (hverifies : ∀ seed message, Ed25519.Verifies seed message)
    (hbinding : Ed25519.Binding {seed | seed ∈ seeds generation generation'}
      {proofMessage right challenge, proofMessage right' challenge'}) :
    ∃ proof, generation'.keys.prove right' challenge' = .ok proof ∧
      (generation.keys.registration.check right challenge proof = .ok () ↔
        generation = generation' ∧ right = right' ∧ challenge = challenge') := by
  refine ⟨_, prove_eq hlong', ?_⟩
  rw [check_eq_ok hlong]
  constructor
  · rintro ⟨-, hverify⟩
    have hseed := (seed_mem generation generation' right).1
    have hseed' := (seed_mem generation generation' right').2
    obtain ⟨hkey, hmessage⟩ := hbinding _ hseed _ hseed' _ (.inl rfl) _ (.inr rfl) hverify
    have hinput : generation.seedInput right = generation'.seedInput right' :=
      hcollision (seedInput_mem right).1 (seedInput_mem right').2 (hkeys hseed hseed' hkey)
    obtain ⟨rfl, -⟩ := seedInput_injective hinput
    exact ⟨rfl, proofMessage_injective hmessage⟩
  · rintro ⟨rfl, rfl, rfl⟩
    exact hverifies _ _

end Keys

end Generation

/-! ## The other direction of a pair -/

namespace Sample

attribute [local instance] checksum ed25519

/-- The two queues of a pair at one relay, in one period. -/
def forth : Generation := ⟨.replicate 32 0x44, .aToB, "relay.onestein.org", 12⟩

def back : Generation := ⟨.replicate 32 0x44, .bToA, "relay.onestein.org", 12⟩

def challenge : Bytes := List.replicate 16 0x5a

theorem injOn_seedInputs :
    Set.InjOn (fun input : Digest × Bytes => Blake2b.keyed input.1 input.2)
      {input | input ∈ Generation.seedInputs forth back} := by
  have hnodup : ((Generation.seedInputs forth back).map fun input =>
      Blake2b.keyed input.1 input.2).Nodup := by decide +kernel
  exact fun a ha b hb heq => List.inj_on_of_nodup_map hnodup ha hb heq

theorem binding : Ed25519.Binding {seed | seed ∈ Generation.seeds forth back}
    {proofMessage .read challenge, proofMessage .read challenge} := by
  have hnodup : ((Generation.seeds forth back).map fun seed =>
      Ed25519.sign seed (proofMessage .read challenge)).Nodup := by decide +kernel
  intro seed hseed seed' hseed' message hmessage message' hmessage' hverify
  rw [Set.pair_eq_singleton, Set.mem_singleton_iff] at hmessage hmessage'
  subst hmessage hmessage'
  have hsame := List.inj_on_of_nodup_map hnodup hseed hseed' (beq_iff_eq.mp hverify).symm
  exact ⟨hsame, rfl⟩

/-- A proof for one direction is none for the other. -/
theorem check_prove_back : ∃ proof, back.keys.prove .read challenge = .ok proof ∧
    forth.keys.registration.check .read challenge proof ≠ .ok () := by
  obtain ⟨proof, hproof, hiff⟩ := Generation.check_prove_iff forth back .read .read
    (show minChallengeLen ≤ challenge.length by decide) (by decide) injOn_seedInputs
    (fun _ _ _ _ h => h) verifies binding
  refine ⟨proof, hproof, fun hok => ?_⟩
  exact absurd (hiff.mp hok).1 (by decide)

end Sample

end Onestein.Relay
