import Onestein.Relay.Authorisation

/-!
# Challenges and the queues they are for

A challenge is issued for a queue that is registered. Expiry drops queues and leaves challenges
where they are, so a challenge may outlive its queue.

## Main definitions

* `NoOrphans` — every challenge belongs to a queue that is registered.
* `Spares` — an event drops no queue that has a challenge outstanding.

## Main results

* `noOrphans_step` — when one event leaves no orphan.
* `no_orphans_iff` — when no event of a run does.
-/

namespace Onestein.Relay

open Crypto

attribute [local instance] lexOrd

/-- Every challenge that is outstanding belongs to a queue that is registered. -/
def NoOrphans (relay : State) : Prop :=
  ∀ key : QueueId × UInt8,
    relay.challenges[key]? ≠ none → relay.store.registration key.1 ≠ none

/-- The event drops no queue that has a challenge outstanding. -/
def Spares (relay : State) : Event → Prop
  | .handle .. => True
  | .expire now => ∀ (key : QueueId × UInt8) (queue : Queue), relay.challenges[key]? ≠ none →
    relay.store.queues[key.1]? = some queue → queue.isAlive now

section Runs

variable [Ed25519] [Blake2b] {relay : State} {event : Event} {events : List Event}
  {registration : Registration} {q : QueueId}

omit [Ed25519] [Blake2b] in
theorem registration_expire {store : Store} {now : UInt64} :
    (store.expire now).registration q =
      (store.queues[q]?.filter (·.isAlive now)).map Queue.registration := by
  rw [Store.registration, Store.queues_expire, Option.map_map]
  rfl

/-- A queue keeps its registration as long as no expiry drops it. -/
theorem registration_step (byte : UInt8) (hspares : Spares relay event)
    (hkey : relay.challenges[(q, byte)]? ≠ none ∨
      ∃ request now fresh, event = .handle request now fresh)
    (h : relay.store.registration q = some registration) :
    (relay.step event).1.store.registration q = some registration := by
  cases event with
  | handle request now fresh =>
    exact (framed_handle relay.store relay.challenges request now fresh).registration _ _ h
  | expire now =>
    have hkey : relay.challenges[(q, byte)]? ≠ none := hkey.resolve_right (by simp)
    obtain ⟨queue, hqueue, rfl⟩ := Option.map_eq_some_iff.mp h
    simp [State.step, registration_expire, hqueue, hspares _ queue hkey hqueue]

/-- A challenge is outstanding because it was before, or because its queue is registered. -/
theorem challenge_or_registration {key : QueueId × UInt8}
    (h : (relay.step event).1.challenges[key]? ≠ none) :
    relay.challenges[key]? ≠ none ∨ (∃ request now fresh, event = .handle request now fresh) ∧
      relay.store.registration key.1 ≠ none := by
  obtain ⟨challenge, h⟩ := Option.ne_none_iff_exists'.mp h
  obtain ⟨queueId, right, now, rfl, rfl, hregistered⟩ | ⟨hold, -⟩ := challenge_step h
  · exact .inr ⟨⟨_, _, _, rfl⟩, Option.isSome_iff_ne_none.mp hregistered⟩
  · exact .inl (Option.ne_none_iff_exists'.mpr ⟨challenge, hold⟩)

/-- An event leaves no orphan exactly if it drops no queue that has a challenge outstanding. -/
theorem noOrphans_step (h : NoOrphans relay) (event : Event) :
    NoOrphans (relay.step event).1 ↔ Spares relay event := by
  constructor
  · intro hafter
    cases event with
    | handle request now fresh => trivial
    | expire now =>
      intro key queue hkey hqueue
      by_contra hdead
      refine hafter key hkey ?_
      simpa [State.step, registration_expire, hqueue] using hdead
  · intro hspares key hkey
    have hbefore := challenge_or_registration hkey
    have hregistered : relay.store.registration key.1 ≠ none := by
      rcases hbefore with hold | ⟨-, hregistered⟩
      · exact h key hold
      · exact hregistered
    obtain ⟨registration, hregistration⟩ := Option.ne_none_iff_exists'.mp hregistered
    rw [registration_step key.2 hspares (hbefore.imp_right And.left) hregistration]
    exact Option.some_ne_none registration

omit [Ed25519] [Blake2b] in
theorem noOrphans_new : NoOrphans State.new := fun key h => by simp [State.new] at h

/-- Where no queue is dropped that has a challenge outstanding, a challenge was issued under the
registration its queue still has. -/
theorem exists_issued (hspares : Run.Steps State.step Spares State.new events) (n : Nat)
    {key : QueueId × UInt8} {challenge : Octets 32}
    (h : (relayAt events n).challenges[key]? = some challenge) :
    ∃ m queueId right registration, m < n ∧ key = (queueId, rightByte right) ∧
      Issues events m queueId right challenge ∧
      ∀ l, m ≤ l → l ≤ n →
        (relayAt events l).store.registration queueId = some registration := by
  induction n with
  | zero => simp [relayAt, State.new] at h
  | succ n ih =>
    cases hevent : events[n]? with
    | none =>
      have hsame : relayAt events (n + 1) = relayAt events n := Run.stateAt_succ_of_none hevent
      rw [hsame] at h
      obtain ⟨m, queueId, right, registration, hm, hkey, hissues, hall⟩ := ih h
      refine ⟨m, queueId, right, registration, by omega, hkey, hissues, fun l hml hl => ?_⟩
      obtain rfl | hl := Nat.eq_or_lt_of_le hl
      · rw [hsame]
        exact hall n hm.le le_rfl
      · exact hall l hml (by omega)
    | some event =>
      have hstep : relayAt events (n + 1) = ((relayAt events n).step event).1 :=
        Run.stateAt_succ hevent
      have hspared : Spares (relayAt events n) event := hspares.getElem? hevent
      rw [hstep] at h
      obtain hputs | ⟨hold, -⟩ := challenge_step h
      · have hput : challengeSlots.PutsAt State.new events n key challenge :=
          ⟨event, hevent, hputs⟩
        obtain ⟨queueId, right, now, rfl, rfl, hregistered⟩ := hputs
        obtain ⟨registration, hregistration⟩ := Option.isSome_iff_exists.mp hregistered
        refine ⟨n, queueId, right, registration, by omega, rfl, issues_of_puts hput,
          fun l hnl hl => ?_⟩
        obtain rfl | rfl : l = n ∨ l = n + 1 := by omega
        · exact hregistration
        · rw [hstep]
          exact registration_step (rightByte right) hspared (.inr ⟨_, _, _, rfl⟩)
            hregistration
      · obtain ⟨m, queueId, right, registration, hm, rfl, hissues, hall⟩ := ih hold
        refine ⟨m, queueId, right, registration, by omega, rfl, hissues, fun l hml hl => ?_⟩
        obtain rfl | hl := Nat.eq_or_lt_of_le hl
        · rw [hstep]
          exact registration_step (rightByte right) hspared
            (.inl (Option.ne_none_iff_exists'.mpr ⟨_, hold⟩)) (hall n hm.le le_rfl)
        · exact hall l hml (by omega)

/-- No challenge outlives its queue, in a run from an empty relay, exactly if no expiry drops a
queue that has a challenge outstanding. Then a challenge that is outstanding was issued under the
registration its queue has now, and has had all the time. -/
theorem no_orphans_iff (events : List Event) :
    ((∀ n (key : QueueId × UInt8), (relayAt events n).challenges[key]? ≠ none →
        (relayAt events n).store.registration key.1 ≠ none) ↔
      Run.Steps State.step Spares State.new events) ∧
    (Run.Steps State.step Spares State.new events → ∀ n key challenge,
      (relayAt events n).challenges[key]? = some challenge →
      ∃ m queueId right registration, m < n ∧ key = (queueId, rightByte right) ∧
        Issues events m queueId right challenge ∧
        ∀ l, m ≤ l → l ≤ n →
          (relayAt events l).store.registration queueId = some registration) := by
  refine ⟨?_, fun hspares n key challenge h => exists_issued hspares n h⟩
  exact Run.forall_stateAt_iff_steps (I := NoOrphans) (fun _ event h => noOrphans_step h event)
    noOrphans_new events

end Runs

namespace Sample

attribute [local instance] ed25519 checksum

/-- The keys somebody else registers the same name with. -/
def otherKeys : QueueKeys := ⟨.replicate 32 0x44, .replicate 32 0x55⟩

def outstanding : Octets 32 := .replicate 32 0x66

/-- A proof of the other's right to write, over the challenge that is left behind. -/
def otherProof : Proof := Ed25519.sign otherKeys.write (proofMessage .write outstanding.toList)

def register (keys : QueueKeys) : Request :=
  .register queueId keys.registration.writePublic keys.registration.readPublic

/-- A queue expires while a challenge is outstanding. Somebody registers the same name again and
writes, with a proof over the challenge that was never issued to him. -/
def reborn : List Event :=
  [.handle (register keys) 0 outstanding, .handle (.challengeRequest queueId .write) 0 outstanding,
    .expire (queueLife + 1), .handle (register otherKeys) (queueLife + 1) outstanding,
    .handle (.write queueId otherProof [1]) (queueLife + 1) outstanding]

end Sample

/-- A challenge outlives its queue, and is the one that is checked under the next registration. -/
theorem orphan_checked :
    let _ := Sample.ed25519
    let _ := checksum
    (relayAt Sample.reborn 3).challenges[(Sample.queueId, rightByte .write)]? =
        some Sample.outstanding ∧
      (relayAt Sample.reborn 3).store.registration Sample.queueId = none ∧
      Sample.otherKeys.registration ≠ Sample.keys.registration ∧
      (responses Sample.reborn)[4]? = some (some .ok) := by
  decide +kernel

end Onestein.Relay
