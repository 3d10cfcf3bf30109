import Onestein.Relay.Crossing
import Onestein.Relay.Daemon
import Onestein.Relay.Limits

/-!
# The quota and the number of blobs

The quota of a queue counts the bytes of its blobs. An empty blob has none, and yet it has a name
and a time.

## Main definitions

* `Weighs` — an event puts no empty blob in.

## Main results

* `event_store` — an event acts on the store as at most one operation of the store.
* `quota_bounds_entries` — without empty blobs, the quota bounds the number of blobs.
* `quota_does_not_bound` — with them it does not.
-/

namespace Onestein.Relay

open Crypto Record

attribute [local instance] lexOrd

/-- No blob is empty. -/
def Queue.Weighed (queue : Queue) : Prop := ∀ entry ∈ queue.blobs, entry.2.1 ≠ []

def Store.Weighed (store : Store) : Prop := ∀ q, ∀ entry ∈ store.blobs q, entry.2.1 ≠ []

/-- Where no blob is empty, there are no more of them than bytes. -/
theorem Queue.Weighed.length_le_held {queue : Queue} (h : queue.Weighed) :
    queue.blobs.length ≤ queue.held := by
  have hone : ∀ n ∈ queue.blobs.map fun entry => entry.2.1.length, 1 ≤ n := by
    rw [List.forall_mem_map]
    exact fun entry hmem => List.length_pos_iff.mpr (h entry hmem)
  have hle := List.length_le_sum_of_one_le _ hone
  rwa [List.length_map] at hle

section Events

variable [Ed25519] [Blake2b] {relay : State} {event : Event} {events : List Event}

/-- An event that is the write of an empty blob has no valid proof of the right to write. -/
def Weighs (relay : State) : Event → Prop
  | .handle (.write queueId proof []) _ _ =>
    ¬ Authorised relay.store relay.challenges queueId .write proof
  | _ => True

omit [Ed25519] [Blake2b] in
theorem write_of_storeOp {request : Request} {now time : UInt64} {q : QueueId} {blob : Bytes}
    (h : request.storeOp now = some (.write q blob time)) :
    ∃ proof, request = .write q proof blob := by
  cases request with
  | write queueId proof bytes =>
    obtain ⟨rfl, rfl, -⟩ : queueId = q ∧ bytes = blob ∧ now = time := by
      simpa [Request.storeOp] using h
    exact ⟨proof, rfl⟩
  | register | challengeRequest | read | delete => simp [Request.storeOp] at h

/-- An event leaves the store alone, or acts on it as an operation of the store. Where that is a
write, its proof was good. -/
theorem event_store (relay : State) (event : Event) :
    (relay.step event).1.store = relay.store ∨
    ∃ op, (relay.step event).1.store = (relay.store.step op).1 ∧
      ∀ q blob time, op = .write q blob time → ∃ proof now fresh,
        event = .handle (.write q proof blob) now fresh ∧
          Authorised relay.store relay.challenges q .write proof := by
  cases event with
  | expire now => exact .inr ⟨.expire now, rfl, by simp⟩
  | handle request now fresh =>
    obtain heq | ⟨op, hop, heq⟩ := handle_store relay.store relay.challenges request now fresh
    · exact .inl heq
    · by_cases hwrite : ∃ q blob time, op = .write q blob time
      · obtain ⟨q, blob, time, rfl⟩ := hwrite
        obtain ⟨proof, rfl⟩ := write_of_storeOp hop
        have hoperation : (Request.write q proof blob).operation = some (q, .write, proof) := rfl
        obtain ⟨_, -, hrefused⟩ | ⟨-, -, hrefused⟩ | ⟨hauthorised, -⟩ :=
          handle_operation_cases relay.store relay.challenges now fresh hoperation
        · exact .inl (by rw [State.step, hrefused])
        · exact .inl (by rw [State.step, hrefused])
        · refine .inr ⟨_, heq, fun q' blob' time' hsame => ?_⟩
          cases hsame
          exact ⟨proof, now, fresh, rfl, hauthorised⟩
      · exact .inr ⟨op, heq, fun q blob time hop => absurd ⟨q, blob, time, hop⟩ hwrite⟩

theorem within_event (h : relay.store.Within) (event : Event) :
    (relay.step event).1.store.Within := by
  obtain heq | ⟨op, heq, -⟩ := event_store relay event
  · rwa [heq]
  · rw [heq]
    exact within_step h op

/-- An event that puts no empty blob in leaves none. -/
theorem weighed_event (h : relay.store.Weighed) (hweighs : Weighs relay event) :
    (relay.step event).1.store.Weighed := by
  obtain heq | ⟨op, heq, hwrite⟩ := event_store relay event
  · rwa [heq]
  · rw [heq]
    intro q entry hmem
    obtain hold | ⟨write, haccepted, rfl⟩ := mem_blobs_step hmem
    · exact h q entry hold
    · obtain ⟨proof, now, fresh, rfl, hauthorised⟩ :=
        hwrite _ _ _ (eq_write_of_accepted haccepted)
      rintro hempty
      rw [Written.entry] at hempty
      rw [hempty] at hweighs
      exact hweighs hauthorised

/-- In a run from an empty relay in which no empty blob is written under a good proof, no queue ever
holds more blobs than its quota has bytes. -/
theorem quota_bounds_entries (events : List Event)
    (hweighs : Run.Steps State.step Weighs State.new events) (n : Nat) (q : QueueId) :
    ((relayAt events n).store.blobs q).length ≤ maxQueueLen := by
  have hnew : State.new.store.Within ∧ State.new.store.Weighed :=
    ⟨fun q queue h => by simp [State.new] at h, fun q entry h => by simp [State.new] at h⟩
  have hstep (relay : State) (event : Event) (h : relay.store.Within ∧ relay.store.Weighed)
      (hevent : Weighs relay event) :
      (relay.step event).1.store.Within ∧ (relay.step event).1.store.Weighed :=
    ⟨within_event h.1 event, weighed_event h.2 hevent⟩
  obtain ⟨hwithin, hweighed⟩ : (relayAt events n).store.Within ∧ (relayAt events n).store.Weighed :=
    hweighs.invariant hstep hnew n
  cases hqueue : (relayAt events n).store.queues[q]? with
  | none => simp [Store.blobs, hqueue]
  | some queue =>
    have hqueueWeighed : queue.Weighed := fun entry hmem =>
      hweighed q entry (blobs_of_queue hqueue ▸ hmem)
    rw [blobs_of_queue hqueue]
    exact hqueueWeighed.length_le_held.trans (hwithin q queue hqueue).held_le

end Events

/-! ## A queue of empty blobs -/

namespace Sample

attribute [local instance] ed25519 checksum

def issued : Octets 32 := .replicate 32 0x66

/-- A good proof of the right to write, over the challenge that is always handed out. -/
def writeProof : Proof := Ed25519.sign keys.write (proofMessage .write issued.toList)

/-- A queue is registered, and written to as often as one likes, with nothing each time. -/
def flooding : Nat → List Event
  | 0 => [.handle (.register queueId keys.registration.writePublic keys.registration.readPublic) 0
      issued]
  | n + 1 => flooding n ++ [.handle (.challengeRequest queueId .write) 0 issued,
      .handle (.write queueId writeProof []) 0 issued]

/-- The queue that holds so many empty blobs. -/
def flooded (n : Nat) : Queue := ⟨keys.registration, List.replicate n (blobId [], [], 0), 0⟩

theorem held_flooded (n : Nat) : (flooded n).held = 0 := by
  simp [flooded, Queue.held]

theorem check_writeProof :
    keys.registration.check .write issued.toList writeProof = .ok () := by
  decide +kernel

theorem queues_flooding (n : Nat) :
    (Run.final State.step State.new (flooding n)).store.queues[queueId]? = some (flooded n) := by
  induction n with
  | zero =>
    simp [flooding, State.step, handle, Store.queues_register, State.new, flooded]
  | succ n ih =>
    rw [flooding, Run.final_append]
    generalize Run.final State.step State.new (flooding n) = relay at ih
    have hregistered : relay.store.registration queueId = some keys.registration := by
      simp [Store.registration, ih, flooded]
    have hchallenge : (relay.challenges.insert (queueId, rightByte .write) issued)[
        (queueId, rightByte .write)]? = some issued := by
      rw [challenges_insert, if_pos rfl]
    have hroom : (flooded n).held + ([] : Bytes).length ≤ maxQueueLen := by
      rw [held_flooded]
      decide
    have hasked : (relay.step (.handle (.challengeRequest queueId .write) 0 issued)).1 =
        ⟨relay.store, relay.challenges.insert (queueId, rightByte .write) issued⟩ := by
      rw [State.step, handle_challengeRequest hregistered]
    rw [Run.final_cons, Run.final_cons, Run.final_nil, hasked, State.step,
      handle_write ih hchallenge check_writeProof (by decide) hroom]
    dsimp only
    rw [Store.queues_insert, if_pos rfl, flooded, flooded, List.replicate_succ']

/-- The requests fit their records. -/
theorem readable_flooding (n : Nat) : ∀ event ∈ flooding n, ∃ record request now fresh,
    decodeRequest record = .ok request ∧ event = .handle request now fresh := by
  have hread (request : Request) (hfits : request.typed.2.length ≤ maxPayloadLen) :
      ∃ record request' now fresh', decodeRequest record = .ok request' ∧
        Event.handle request 0 issued = .handle request' now fresh' := by
    obtain ⟨record, hrecord⟩ := exists_encodeRequest.mpr hfits
    exact ⟨record, request, 0, issued, decodeRequest_eq_ok.mpr hrecord, rfl⟩
  induction n with
  | zero => exact List.forall_mem_singleton.mpr (hread _ (by decide))
  | succ n ih =>
    refine List.forall_mem_append.mpr ⟨ih, List.forall_mem_cons.mpr ⟨hread _ (by decide),
      List.forall_mem_singleton.mpr (hread _ (by decide))⟩⟩

/-- A queue takes empty blobs beyond its quota: one more of them than it has bytes. -/
theorem quota_does_not_bound : ∃ events : List Event,
    (∀ event ∈ events, ∃ record request now fresh,
      decodeRequest record = .ok request ∧ event = .handle request now fresh) ∧
    maxQueueLen < ((Run.final State.step State.new events).store.blobs queueId).length := by
  refine ⟨flooding (maxQueueLen + 1), readable_flooding _, ?_⟩
  rw [blobs_of_queue (queues_flooding _), flooded, List.length_replicate]
  exact Nat.lt_succ_self _

/-- A run that writes a blob of one byte. -/
def weighing : List Event :=
  flooding 0 ++ [.handle (.challengeRequest queueId .write) 0 issued,
    .handle (.write queueId writeProof [1]) 0 issued]

theorem quota_bounds_entries_weighing :
    ((relayAt weighing 3).store.blobs queueId).length ≤ maxQueueLen := by
  have hweighs : Run.Steps State.step Weighs State.new weighing := by
    simp [weighing, flooding, Run.Steps, Weighs]
  exact quota_bounds_entries weighing hweighs 3 queueId

end Sample

end Onestein.Relay
