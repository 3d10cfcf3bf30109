import Onestein.Relay.Authorisation

/-!
# Queues do not see each other

What a relay holds for a queue, and what it answers about it, is decided by the requests that name
the queue and by the expiries.

## Main definitions

* `Agree` — two relays hold the same for a queue.
* `Event.regards` — an event is an expiry or a request that names the queue.

## Main results

* `handle_agree` — a request that names a queue acts alike where the queue is alike.
* `step_other` — an event that does not regard a queue leaves it alone.
* `isolated` — leaving out what names other queues changes nothing for a queue.
-/

namespace Onestein.Relay

open Crypto

attribute [local instance] lexOrd

/-- Two relays hold the same for a queue: the queue itself, and its challenges. -/
structure Agree (q : QueueId) (relay relay' : State) : Prop where
  queue : relay.store.queues[q]? = relay'.store.queues[q]?
  challenges : ∀ byte : UInt8, relay.challenges[(q, byte)]? = relay'.challenges[(q, byte)]?

/-- An event is an expiry, or a request that names the queue. -/
def Event.regards (q : QueueId) : Event → Bool
  | .handle request .. => request.queueId = q
  | .expire _ => true

section Store

variable {q : QueueId} {store store' : Store}

theorem registration_congr (hqueue : store.queues[q]? = store'.queues[q]?) :
    store.registration q = store'.registration q :=
  congrArg (Option.map Queue.registration) hqueue

theorem read_congr (hqueue : store.queues[q]? = store'.queues[q]?) :
    store.read q = store'.read q := by
  rw [Store.read, Store.read, hqueue]

/-- A delete asks for nothing but its queue. -/
theorem delete_congr (id : Digest) (hqueue : store.queues[q]? = store'.queues[q]?) :
    (store.delete q id).2 = (store'.delete q id).2 ∧
      (store.delete q id).1.queues[q]? = (store'.delete q id).1.queues[q]? := by
  unfold Store.delete
  rw [hqueue]
  cases hqueue' : store'.queues[q]? with
  | none => exact ⟨rfl, hqueue⟩
  | some queue => simp

/-- A write asks for nothing but its queue. -/
theorem write_congr [Blake2b] (blob : Bytes) (now : UInt64)
    (hqueue : store.queues[q]? = store'.queues[q]?) :
    (store.write q blob now).2 = (store'.write q blob now).2 ∧
      (store.write q blob now).1.queues[q]? = (store'.write q blob now).1.queues[q]? := by
  unfold Store.write
  rw [hqueue]
  by_cases hlen : maxBlobLen < blob.length
  · simpa [hlen] using hqueue
  · cases hqueue' : store'.queues[q]? with
    | none => simp [hlen, hqueue, hqueue']
    | some queue =>
      by_cases hfull : maxQueueLen < queue.held + blob.length
      · simp [hlen, hfull, hqueue, hqueue']
      · simp [hlen, hfull]

theorem register_congr (registration : Registration) (now : UInt64)
    (hqueue : store.queues[q]? = store'.queues[q]?) :
    (store.register q registration now).queues[q]? =
      (store'.register q registration now).queues[q]? := by
  rw [Store.queues_register, Store.queues_register, hqueue]

theorem expire_congr (now : UInt64) (hqueue : store.queues[q]? = store'.queues[q]?) :
    (store.expire now).queues[q]? = (store'.expire now).queues[q]? := by
  rw [Store.queues_expire, Store.queues_expire, hqueue]

/-- What an operation does to its queue, and what it answers, is decided by its queue. -/
theorem perform_congr [Blake2b] (request : Request) (now : UInt64)
    (hqueue : store.queues[request.queueId]? = store'.queues[request.queueId]?) :
    (perform store request now).2 = (perform store' request now).2 ∧
      (perform store request now).1.queues[request.queueId]? =
        (perform store' request now).1.queues[request.queueId]? := by
  cases request with
  | register | challengeRequest => exact ⟨rfl, hqueue⟩
  | write queueId proof blob =>
    obtain ⟨hsame, hafter⟩ := write_congr blob now hqueue
    rw [perform_write, perform_write]
    exact ⟨congrArg Response.ofResult hsame, hafter⟩
  | read queueId proof =>
    rw [perform_read, perform_read]
    exact ⟨congrArg Response.ofRead (read_congr hqueue), hqueue⟩
  | delete queueId proof id =>
    obtain ⟨hsame, hafter⟩ := delete_congr id hqueue
    rw [perform_delete, perform_delete]
    exact ⟨congrArg Response.ofResult hsame, hafter⟩

end Store

variable [Ed25519]

section Agree

variable {q : QueueId} {store store' : Store} {challenges challenges' : Challenges}
  {relay relay' : State} {request : Request} {event : Event}

/-- Spending asks for nothing but the queue and its challenge. -/
theorem spend_agree (right : Right) (proof : Proof)
    (h : Agree q ⟨store, challenges⟩ ⟨store', challenges'⟩) :
    (spend store challenges q right proof).2 = (spend store' challenges' q right proof).2 ∧
      Agree q ⟨store, (spend store challenges q right proof).1⟩
        ⟨store', (spend store' challenges' q right proof).1⟩ := by
  have hslot : challenges[(q, rightByte right)]? = challenges'[(q, rightByte right)]? :=
    h.challenges _
  have herased : Agree q ⟨store, challenges.erase (q, rightByte right)⟩
      ⟨store', challenges'.erase (q, rightByte right)⟩ := by
    refine ⟨h.queue, fun byte => ?_⟩
    rw [challenges_erase, challenges_erase]
    split
    case isTrue => rfl
    case isFalse => exact h.challenges byte
  unfold spend
  rw [registration_congr h.queue, hslot]
  cases store'.registration q with
  | none => exact ⟨rfl, h⟩
  | some registration =>
    cases challenges'[(q, rightByte right)]? with
    | none => exact ⟨rfl, h⟩
    | some challenge =>
      dsimp only
      cases registration.check right challenge.toList proof with
      | error e => exact ⟨rfl, herased⟩
      | ok u => exact ⟨rfl, herased⟩

variable [Blake2b]

/-- A request acts alike where the queue it names is alike. -/
theorem handle_agree (now : UInt64) (fresh : Octets 32)
    (h : Agree request.queueId relay relay') :
    (handle relay.store relay.challenges request now fresh).2 =
        (handle relay'.store relay'.challenges request now fresh).2 ∧
      Agree request.queueId (handle relay.store relay.challenges request now fresh).1
        (handle relay'.store relay'.challenges request now fresh).1 := by
  cases hop : request.operation with
  | some operation =>
    obtain ⟨queueId, right, proof⟩ := operation
    obtain ⟨rfl, -⟩ := Request.queueId_of_operation hop
    obtain ⟨hresult, hspent⟩ := spend_agree right proof h
    obtain ⟨hsame, hafter⟩ := perform_congr request now h.queue
    rw [handle_operation hop, handle_operation hop]
    rcases hspend : spend relay.store relay.challenges request.queueId right proof
      with ⟨left, result⟩
    rcases hspend' : spend relay'.store relay'.challenges request.queueId right proof
      with ⟨left', result'⟩
    rw [hspend, hspend'] at hresult hspent
    obtain rfl : result = result' := hresult
    cases result with
    | error refusal => exact ⟨rfl, hspent⟩
    | ok u => exact ⟨hsame, hafter, hspent.challenges⟩
  | none =>
    cases request with
    | register queueId writePublic readPublic =>
      exact ⟨rfl, register_congr _ now h.queue, h.challenges⟩
    | challengeRequest queueId right =>
      have hregistration : relay.store.registration queueId =
          relay'.store.registration queueId := registration_congr h.queue
      simp only [handle, hregistration]
      cases relay'.store.registration queueId with
      | none => exact ⟨rfl, h⟩
      | some registration =>
        refine ⟨rfl, h.queue, fun byte => ?_⟩
        rw [challenges_insert, challenges_insert]
        split
        case isTrue => rfl
        case isFalse => exact h.challenges byte
    | write | read | delete => simp [Request.operation] at hop

/-- An event that regards a queue acts alike where the queue is alike. -/
theorem step_agree (hregards : event.regards q) (h : Agree q relay relay') :
    Agree q (relay.step event).1 (relay'.step event).1 ∧
      (relay.step event).2 = (relay'.step event).2 := by
  cases event with
  | expire now => exact ⟨⟨expire_congr now h.queue, h.challenges⟩, rfl⟩
  | handle request now fresh =>
    obtain rfl : request.queueId = q := by simpa [Event.regards] using hregards
    obtain ⟨hsame, hafter⟩ := handle_agree now fresh h
    exact ⟨hafter, congrArg some hsame⟩

/-- An event that does not regard a queue leaves it alone. -/
theorem step_other (hregards : event.regards q = false) (h : Agree q relay relay') :
    Agree q (relay.step event).1 relay' := by
  cases event with
  | expire now => simp [Event.regards] at hregards
  | handle request now fresh =>
    have hq : request.queueId ≠ q := by simpa [Event.regards] using hregards
    have hframe := framed_handle relay.store relay.challenges request now fresh
    refine ⟨(hframe.queues q hq.symm).trans h.queue, fun byte => ?_⟩
    refine (hframe.challenges (q, byte) fun right _ hkey => ?_).trans (h.challenges byte)
    exact hq (congrArg Prod.fst hkey).symm

end Agree

variable [Blake2b]

/-- Leaving out of a run the requests that name other queues changes no response to a request that
names the queue, and in the end neither what is held for the queue nor its challenges. -/
theorem isolated (events : List Event) (q : QueueId) :
    let alone := events.filter (Event.regards q)
    (events.zip (responses events)).filter (fun said => said.1.regards q) =
        alone.zip (responses alone) ∧
      (relayAt events events.length).store.queues[q]? =
        (relayAt alone alone.length).store.queues[q]? ∧
      ∀ byte : UInt8, (relayAt events events.length).challenges[(q, byte)]? =
        (relayAt alone alone.length).challenges[(q, byte)]? := by
  intro alone
  have hstart : Agree q State.new State.new := ⟨rfl, fun _ => rfl⟩
  obtain ⟨hfinal, hsaid⟩ := Run.filter_related (fun _ _ _ => step_agree)
    (fun _ _ _ => step_other) hstart events
  rw [relayAt, relayAt, Run.stateAt, Run.stateAt, List.take_length, List.take_length]
  exact ⟨hsaid, hfinal.queue, hfinal.challenges⟩

end Onestein.Relay
