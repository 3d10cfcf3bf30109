import Onestein.Lib.Word
import Onestein.Relay.Queue

/-!
# What a relay holds

A store maps queue identifiers to queues: a registration, the blobs in the order they were
written, and the time of the last write. Time is an argument of every operation that needs
it.

## Main definitions

* `Store` with `register`, `write`, `read`, `delete` and `expire`.
* `Store.blobs` — the blobs of a queue, with the times they were written.
-/

namespace Onestein.Relay

open Crypto

def blobLabel : Bytes := Bytes.utf8 "org.onestein.relay/BLOB"

/-- Relay layer version, in every record and in a blob's name. -/
def relayVersion : UInt8 := 1

/-- Milliseconds in a day. -/
def dayMs : UInt64 := 24 * 60 * 60 * 1000

/-- Why a relay said no. -/
inductive Refusal where
  | unknownQueue
  | badProof
  | tooLarge
  | queueFull
  | unknownChallenge
  deriving DecidableEq

/-- The name of a blob, derived from the blob. -/
def blobId [Blake2b] (blob : Bytes) : Digest := hash [blobLabel, [relayVersion], blob]

/-- A blob with its name and the time it was written. -/
abbrev Entry := Digest × Bytes × UInt64

structure Queue where
  registration : Registration
  blobs : List Entry
  lastWriteMs : UInt64

/-- How many bytes a queue holds. -/
def Queue.held (queue : Queue) : Nat := (queue.blobs.map fun (_, bytes, _) => bytes.length).sum

/-- How long a blob lives, in milliseconds. -/
def blobLife : UInt64 := blobExpiryDays * dayMs

/-- How long a queue outlives its last write, in milliseconds. -/
def queueLife : UInt64 := queueExpiryDays * dayMs

/-- A blob has not outlived its limit. -/
def Entry.isAlive (nowMs : UInt64) : Entry → Bool
  | (_, _, written) => nowMs ≤ written.saturatingAdd blobLife

/-- A queue has not outlived its limit. -/
def Queue.isAlive (nowMs : UInt64) (queue : Queue) : Bool :=
  nowMs ≤ queue.lastWriteMs.saturatingAdd queueLife

/-- Every queue this relay holds. -/
structure Store where
  queues : Std.ExtTreeMap QueueId Queue

namespace Store

/-- An empty relay. -/
def new : Store := ⟨∅⟩

/-- Takes a queue's public keys on first use. Registering it again changes nothing. -/
def register (store : Store) (queueId : QueueId) (registration : Registration)
    (nowMs : UInt64) : Store :=
  ⟨store.queues.insertIfNew queueId ⟨registration, [], nowMs⟩⟩

/-- The keys a queue was registered with. -/
def registration (store : Store) (queueId : QueueId) : Option Registration :=
  store.queues[queueId]?.map Queue.registration

/-- Puts a blob in. -/
def write [Blake2b] (store : Store) (queueId : QueueId) (blob : Bytes) (nowMs : UInt64) :
    Store × Except Refusal Digest :=
  if maxBlobLen < blob.length then
    (store, .error .tooLarge)
  else
    match store.queues[queueId]? with
    | none => (store, .error .unknownQueue)
    | some queue =>
      if maxQueueLen < queue.held + blob.length then
        (store, .error .queueFull)
      else
        let id := blobId blob
        let queue := { queue with
          blobs := queue.blobs ++ [(id, blob, nowMs)]
          lastWriteMs := nowMs }
        (⟨store.queues.insert queueId queue⟩, .ok id)

/-- The oldest blob, without removing it. -/
def read (store : Store) (queueId : QueueId) : Option (Digest × Bytes) := do
  let queue ← store.queues[queueId]?
  queue.blobs.head?.map fun (id, bytes, _) => (id, bytes)

/-- Removes a blob by name. -/
def delete (store : Store) (queueId : QueueId) (blobId : Digest) : Store × Except Refusal Unit :=
  match store.queues[queueId]? with
  | none => (store, .error .unknownQueue)
  | some queue =>
    let queue := { queue with blobs := queue.blobs.filter fun (id, _, _) => id ≠ blobId }
    (⟨store.queues.insert queueId queue⟩, .ok ())

/-- Drops what has outlived the limits: first blobs, then queues. -/
def expire (store : Store) (nowMs : UInt64) : Store :=
  let queues := store.queues.map fun _ queue =>
    { queue with blobs := queue.blobs.filter (Entry.isAlive nowMs) }
  ⟨queues.filter fun _ queue => queue.isAlive nowMs⟩

/-- The blobs of a queue; none if there is no such queue. -/
def blobs (store : Store) (queueId : QueueId) : List Entry :=
  match store.queues[queueId]? with
  | none => []
  | some queue => queue.blobs

/-! ## What the operations do to one queue -/

section Frame

variable {store : Store} {queueId q : QueueId} {now : UInt64}

@[simp] theorem queues_new : new.queues[q]? = none := by
  simp [new]

theorem queues_register {registration : Registration} :
    (store.register queueId registration now).queues[q]? =
      if queueId = q ∧ store.queues[q]? = none then some ⟨registration, [], now⟩
      else store.queues[q]? := by
  rw [register, Std.ExtTreeMap.getElem?_insertIfNew]
  by_cases hq : queueId = q
  · subst hq
    simp
  · simp [hq]

theorem queues_insert {queue : Queue} :
    (Store.mk (store.queues.insert queueId queue)).queues[q]? =
      if queueId = q then some queue else store.queues[q]? := by
  rw [Std.ExtTreeMap.getElem?_insert]
  simp

theorem queues_expire :
    (store.expire now).queues[q]? = (store.queues[q]?.filter (·.isAlive now)).map fun queue =>
      { queue with blobs := queue.blobs.filter (Entry.isAlive now) } := by
  rw [expire, Std.ExtTreeMap.getElem?_filter', Std.ExtTreeMap.getElem?_map]
  cases store.queues[q]? with
  | none => rfl
  | some queue =>
    simp only [Option.map_some, Option.filter_some, Queue.isAlive]
    split <;> rfl

/-- Expiry drops queues and changes no registration. -/
theorem registration_of_expire {registration : Registration}
    (h : (store.expire now).registration q = some registration) :
    store.registration q = some registration := by
  rw [Store.registration, queues_expire] at h
  rw [Store.registration]
  cases hq : store.queues[q]? with
  | none => simp [hq] at h
  | some queue =>
    rw [hq, Option.filter_some] at h
    split at h
    · simpa using h
    · simp at h

variable [Blake2b]

/-- A write is refused and changes nothing, or appends the blob to its queue. -/
theorem write_cases (store : Store) (queueId : QueueId) (blob : Bytes) (now : UInt64) :
    (∃ refusal, store.write queueId blob now = (store, .error refusal)) ∨
    ∃ queue, store.queues[queueId]? = some queue ∧ blob.length ≤ maxBlobLen ∧
      queue.held + blob.length ≤ maxQueueLen ∧
      store.write queueId blob now = (⟨store.queues.insert queueId { queue with
        blobs := queue.blobs ++ [(blobId blob, blob, now)], lastWriteMs := now }⟩,
        .ok (blobId blob)) := by
  unfold write
  split
  case isTrue => exact .inl ⟨_, rfl⟩
  case isFalse hlen =>
    cases hq : store.queues[queueId]? with
    | none => exact .inl ⟨_, rfl⟩
    | some queue =>
      by_cases hfull : maxQueueLen < queue.held + blob.length
      · exact .inl ⟨_, if_pos hfull⟩
      · exact .inr ⟨queue, rfl, by omega, by omega, if_neg hfull⟩

/-- A write is refused for its size, for want of a queue, or for want of room. -/
theorem write_refused {blob : Bytes} {refusal : Refusal}
    (h : (store.write queueId blob now).2 = .error refusal) :
    refusal = .tooLarge ∨ refusal = .unknownQueue ∨ refusal = .queueFull := by
  unfold write at h
  split at h
  case isTrue => exact .inl (Except.error.inj h).symm
  case isFalse =>
    split at h
    case h_1 => exact .inr (.inl (Except.error.inj h).symm)
    case h_2 =>
      split at h
      case isTrue => exact .inr (.inr (Except.error.inj h).symm)
      case isFalse => cases h

omit [Blake2b] in
/-- A delete is refused and changes nothing, or takes the name out of its queue. -/
theorem delete_cases (store : Store) (queueId : QueueId) (id : Digest) :
    (store.queues[queueId]? = none ∧ store.delete queueId id = (store, .error .unknownQueue)) ∨
    ∃ queue, store.queues[queueId]? = some queue ∧
      store.delete queueId id = (⟨store.queues.insert queueId { queue with
        blobs := queue.blobs.filter fun (name, _, _) => name ≠ id }⟩, .ok ()) := by
  unfold delete
  cases hq : store.queues[queueId]? with
  | none => exact .inl ⟨rfl, rfl⟩
  | some queue => exact .inr ⟨queue, rfl, rfl⟩

end Frame

end Store

end Onestein.Relay
