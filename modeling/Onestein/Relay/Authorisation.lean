import Onestein.Lib.Tokens
import Onestein.Relay.Api

/-!
# What a request can do

## Main definitions

* `Request.operation` — the queue, right and proof of a request that spends a challenge.
* `Authorised` — an outstanding challenge and a proof that verifies over it.

## Main results

* `handle_frame` — a request touches nothing but what it names, and only with authority.
* `challenge_once` — over any run, a challenge authorises at most one operation.
-/

namespace Onestein.Relay

open Crypto

attribute [local instance] lexOrd

/-- The queue a request names. -/
def Request.queueId : Request → QueueId
  | .register queueId .. => queueId
  | .challengeRequest queueId .. => queueId
  | .write queueId .. => queueId
  | .read queueId .. => queueId
  | .delete queueId .. => queueId

/-- The right a request is about. -/
def Request.right : Request → Option Right
  | .register .. => none
  | .challengeRequest _ right => some right
  | .write .. => some .write
  | .read .. => some .read
  | .delete .. => some .read

/-- The queue, right and proof of a request that spends a challenge. -/
def Request.operation : Request → Option (QueueId × Right × Proof)
  | .write queueId proof _ => some (queueId, .write, proof)
  | .read queueId proof => some (queueId, .read, proof)
  | .delete queueId proof _ => some (queueId, .read, proof)
  | _ => none

variable [Ed25519]

/-- A challenge for the queue and right is outstanding, and the proof verifies over it under
the key for that right from the stored registration. -/
def Authorised (store : Store) (challenges : Challenges) (queueId : QueueId) (right : Right)
    (proof : Proof) : Prop :=
  ∃ registration challenge, store.registration queueId = some registration ∧
    challenges[(queueId, rightByte right)]? = some challenge ∧
    registration.check right challenge.toList proof = .ok ()

/-- Spending is refused without touching anything, or takes the challenge out. -/
theorem spend_cases (store : Store) (challenges : Challenges) (queueId : QueueId) (right : Right)
    (proof : Proof) :
    (∃ refusal, (refusal = .unknownQueue ∧ store.registration queueId = none ∨
        refusal = .unknownChallenge ∧ challenges[(queueId, rightByte right)]? = none) ∧
      spend store challenges queueId right proof = (challenges, .error refusal)) ∨
    ((store.registration queueId).isSome ∧ challenges[(queueId, rightByte right)]? ≠ none ∧
      spend store challenges queueId right proof =
        (challenges.erase (queueId, rightByte right), .error .badProof)) ∨
    (Authorised store challenges queueId right proof ∧
      spend store challenges queueId right proof =
        (challenges.erase (queueId, rightByte right), .ok ())) := by
  unfold spend
  cases hreg : store.registration queueId with
  | none => exact .inl ⟨_, .inl ⟨rfl, rfl⟩, rfl⟩
  | some registration =>
    cases hch : challenges[(queueId, rightByte right)]? with
    | none => exact .inl ⟨_, .inr ⟨rfl, rfl⟩, rfl⟩
    | some challenge =>
      cases hcheck : registration.check right challenge.toList proof with
      | error e => exact .inr (.inl ⟨rfl, by simp, by simp [hcheck]⟩)
      | ok _ =>
        exact .inr (.inr ⟨⟨registration, challenge, hreg, hch, hcheck⟩, by simp [hcheck]⟩)

variable [Blake2b]

/-- What an operation does once its challenge is spent. -/
def perform (store : Store) (request : Request) (nowMs : UInt64) : Store × Response :=
  match request with
  | .write queueId _ blob =>
    match store.write queueId blob nowMs with
    | (store, .ok _) => (store, .ok)
    | (store, .error refusal) => (store, .refused refusal)
  | .read queueId _ =>
    match store.read queueId with
    | some (blobId, blob) => (store, .blob blobId blob)
    | none => (store, .empty)
  | .delete queueId _ blobId =>
    match store.delete queueId blobId with
    | (store, .ok ()) => (store, .ok)
    | (store, .error refusal) => (store, .refused refusal)
  | _ => (store, .ok)

/-- The answer to an operation that has nothing to hand out. -/
def Response.ofResult {α : Type} : Except Refusal α → Response
  | .ok _ => .ok
  | .error refusal => .refused refusal

/-- The answer to a read. -/
def Response.ofRead : Option (Digest × Bytes) → Response
  | some (id, bytes) => .blob id bytes
  | none => .empty

section Perform

variable {store : Store} {now : UInt64} {queueId : QueueId} {proof : Proof}

omit [Ed25519] in
theorem perform_write {blob : Bytes} : perform store (.write queueId proof blob) now =
    ((store.write queueId blob now).1, .ofResult (store.write queueId blob now).2) := by
  simp only [perform]
  rcases store.write queueId blob now with ⟨after, refusal | id⟩ <;> rfl

omit [Ed25519] in
theorem perform_read : perform store (.read queueId proof) now =
    (store, .ofRead (store.read queueId)) := by
  simp only [perform]
  cases store.read queueId <;> rfl

omit [Ed25519] in
theorem perform_delete {id : Digest} : perform store (.delete queueId proof id) now =
    ((store.delete queueId id).1, .ofResult (store.delete queueId id).2) := by
  simp only [perform]
  rcases store.delete queueId id with ⟨after, refusal | ⟨⟩⟩ <;> rfl

end Perform

section Handle

variable {store : Store} {challenges : Challenges} {request : Request} {now : UInt64}
  {fresh : Octets 32} {queueId : QueueId} {right : Right} {proof : Proof}

/-- An operation spends first, and is performed if that went well. -/
theorem handle_operation (h : request.operation = some (queueId, right, proof)) :
    handle store challenges request now fresh =
      match spend store challenges queueId right proof with
      | (challenges, .error refusal) => (⟨store, challenges⟩, .refused refusal)
      | (challenges, .ok ()) =>
        (⟨(perform store request now).1, challenges⟩, (perform store request now).2) := by
  cases request with
  | register | challengeRequest => simp [Request.operation] at h
  | write q p blob =>
    obtain ⟨rfl, rfl, rfl⟩ : q = queueId ∧ .write = right ∧ p = proof := by
      simpa [Request.operation] using h
    simp only [handle, perform]
    rcases spend store challenges q .write p with ⟨challenges, refusal | ⟨⟩⟩
    · rfl
    · rcases store.write q blob now with ⟨store', refusal | id⟩ <;> rfl
  | read q p =>
    obtain ⟨rfl, rfl, rfl⟩ : q = queueId ∧ .read = right ∧ p = proof := by
      simpa [Request.operation] using h
    simp only [handle, perform]
    rcases spend store challenges q .read p with ⟨challenges, refusal | ⟨⟩⟩
    · rfl
    · cases store.read q <;> rfl
  | delete q p id =>
    obtain ⟨rfl, rfl, rfl⟩ : q = queueId ∧ .read = right ∧ p = proof := by
      simpa [Request.operation] using h
    simp only [handle, perform]
    rcases spend store challenges q .read p with ⟨challenges, refusal | ⟨⟩⟩
    · rfl
    · rcases store.delete q id with ⟨store', refusal | ⟨⟩⟩ <;> rfl

/-- An operation is refused without touching anything, refused with its challenge gone, or
performed with its challenge gone. -/
theorem handle_operation_cases (store : Store) (challenges : Challenges) (now : UInt64)
    (fresh : Octets 32) (h : request.operation = some (queueId, right, proof)) :
    (∃ refusal, (refusal = .unknownQueue ∧ store.registration queueId = none ∨
        refusal = .unknownChallenge ∧ challenges[(queueId, rightByte right)]? = none) ∧
      handle store challenges request now fresh = (⟨store, challenges⟩, .refused refusal)) ∨
    ((store.registration queueId).isSome ∧ challenges[(queueId, rightByte right)]? ≠ none ∧
      handle store challenges request now fresh =
        (⟨store, challenges.erase (queueId, rightByte right)⟩, .refused .badProof)) ∨
    (Authorised store challenges queueId right proof ∧
      handle store challenges request now fresh =
        (⟨(perform store request now).1, challenges.erase (queueId, rightByte right)⟩,
          (perform store request now).2)) := by
  rw [handle_operation h]
  obtain ⟨refusal, hr, hs⟩ | ⟨hreg, hc, hs⟩ | ⟨hauth, hs⟩ :=
    spend_cases store challenges queueId right proof
  · exact .inl ⟨refusal, hr, by rw [hs]⟩
  · exact .inr (.inl ⟨hreg, hc, by rw [hs]⟩)
  · exact .inr (.inr ⟨hauth, by rw [hs]⟩)

/-! ## What performing an operation leaves alone -/

omit [Ed25519] in
/-- The store after an operation: as before, or with one queue replaced by one of the same
registration. -/
theorem perform_cases (store : Store) (request : Request) (now : UInt64) :
    (perform store request now).1 = store ∨
    ∃ queue blobs lastWriteMs, store.queues[request.queueId]? = some queue ∧
      (perform store request now).1 = ⟨store.queues.insert request.queueId
        ⟨queue.registration, blobs, lastWriteMs⟩⟩ ∧
      (perform store request now).2 = .ok ∧
      ((∃ proof blob, request = .write request.queueId proof blob) ∨
        ∃ proof id, request = .delete request.queueId proof id) := by
  cases request with
  | register | challengeRequest => exact .inl rfl
  | write queueId proof blob =>
    obtain ⟨refusal, heq⟩ | ⟨queue, hq, -, -, heq⟩ := store.write_cases queueId blob now
    · exact .inl (by rw [perform_write, heq])
    · rw [perform_write, heq]
      exact .inr ⟨queue, _, _, hq, rfl, rfl, .inl ⟨proof, blob, rfl⟩⟩
  | read queueId proof => exact .inl (by rw [perform_read])
  | delete queueId proof id =>
    obtain ⟨-, heq⟩ | ⟨queue, hq, heq⟩ := store.delete_cases queueId id
    · exact .inl (by rw [perform_delete, heq])
    · rw [perform_delete, heq]
      exact .inr ⟨queue, _, _, hq, rfl, rfl, .inr ⟨proof, id, rfl⟩⟩

omit [Ed25519] in
theorem perform_queues {q : QueueId} (hq : q ≠ request.queueId) :
    (perform store request now).1.queues[q]? = store.queues[q]? := by
  obtain heq | ⟨queue, _, _, -, heq, -⟩ := perform_cases store request now
  · rw [heq]
  · rw [heq, Store.queues_insert, if_neg hq.symm]

omit [Ed25519] in
theorem perform_registration (q : QueueId) :
    (perform store request now).1.registration q = store.registration q := by
  obtain heq | ⟨queue, _, _, hqueue, heq, -⟩ := perform_cases store request now
  · rw [heq]
  · rw [heq, Store.registration, Store.registration, Store.queues_insert]
    split
    case isTrue hq =>
      subst hq
      simp [hqueue]
    case isFalse => rfl

omit [Ed25519] in
theorem perform_refused {refusal : Refusal}
    (h : (perform store request now).2 = .refused refusal) :
    (perform store request now).1 = store := by
  obtain heq | ⟨queue, _, _, -, -, hok, -⟩ := perform_cases store request now
  · exact heq
  · simp [hok] at h

omit [Ed25519] in
theorem perform_blobs {q : QueueId} (h : (perform store request now).1.blobs q ≠ store.blobs q) :
    (∃ proof blob, request = .write q proof blob) ∨ ∃ proof id, request = .delete q proof id := by
  obtain heq | ⟨queue, _, _, -, -, -, hop⟩ := perform_cases store request now
  · simp [heq] at h
  · have hq : request.queueId = q := by
      by_contra hne
      apply h
      rw [Store.blobs, Store.blobs, perform_queues (Ne.symm hne)]
    rwa [hq] at hop

/-! ## Requests that are no operations -/

/-- A request without an operation registers a queue or asks for a challenge. -/
theorem handle_other (store : Store) (challenges : Challenges) (now : UInt64) (fresh : Octets 32)
    (h : request.operation = none) :
    (∃ registration, handle store challenges request now fresh =
      (⟨store.register request.queueId registration now, challenges⟩, .ok)) ∨
    handle store challenges request now fresh = (⟨store, challenges⟩, .refused .unknownQueue) ∨
    ∃ right, request = .challengeRequest request.queueId right ∧
      (store.registration request.queueId).isSome ∧
      handle store challenges request now fresh =
        (⟨store, challenges.insert (request.queueId, rightByte right) fresh⟩,
          .challenge fresh) := by
  cases request with
  | register => exact .inl ⟨_, rfl⟩
  | challengeRequest queueId right =>
    cases hreg : store.registration queueId with
    | none => exact .inr (.inl (by simp [handle, hreg]))
    | some registration =>
      exact .inr (.inr ⟨right, rfl, by simp [Request.queueId, hreg],
        by simp [handle, hreg, Request.queueId]⟩)
  | write | read | delete => simp [Request.operation] at h

end Handle

omit [Ed25519] [Blake2b] in
/-- The right of a request that is an operation, and the queue it names. -/
theorem Request.queueId_of_operation {request : Request} {queueId : QueueId} {right : Right}
    {proof : Proof} (h : request.operation = some (queueId, right, proof)) :
    request.queueId = queueId ∧ request.right = some right := by
  cases request <;> simp_all [Request.operation, Request.queueId, Request.right]

/-! ## The frame of a request -/

/-- What the answer to a request may change. -/
structure Framed (store : Store) (challenges : Challenges) (request : Request) (after : State)
    (response : Response) : Prop where
  /-- Blobs change only by a write or a delete that has authority over their queue. -/
  blobs : ∀ q, after.store.blobs q ≠ store.blobs q →
    (∃ proof blob, request = .write q proof blob ∧ Authorised store challenges q .write proof) ∨
    ∃ proof id, request = .delete q proof id ∧ Authorised store challenges q .read proof
  /-- A queue that is there keeps its registration. -/
  registration : ∀ q registration, store.registration q = some registration →
    after.store.registration q = some registration
  /-- A refusal leaves the store as it was, and at most removes the challenge named. -/
  refused : ∀ refusal, response = .refused refusal → after.store = store ∧
    (after.challenges = challenges ∨ ∃ right, request.right = some right ∧
      after.challenges = challenges.erase (request.queueId, rightByte right))
  /-- Other queues are left alone. -/
  queues : ∀ q, q ≠ request.queueId → after.store.queues[q]? = store.queues[q]?
  /-- Other challenges are left alone. -/
  challenges : ∀ key, (∀ right, request.right = some right →
    key ≠ (request.queueId, rightByte right)) → after.challenges[key]? = challenges[key]?

section Frame

variable {store : Store} {challenges : Challenges} {request : Request} {now : UInt64}
  {fresh : Octets 32} {right : Right}

omit [Blake2b] in
/-- Nothing changes, or at most the challenge named is gone. -/
theorem framed_of_store_eq {after : Challenges} {response : Response}
    (hafter : after = challenges ∨ ∃ right, request.right = some right ∧
      after = challenges.erase (request.queueId, rightByte right)) :
    Framed store challenges request ⟨store, after⟩ response where
  blobs q h := absurd rfl h
  registration q registration h := h
  refused refusal _ := ⟨rfl, hafter⟩
  queues q _ := rfl
  challenges key hkey := by
    rcases hafter with rfl | ⟨right, hright, rfl⟩
    · rfl
    · rw [challenges_erase, if_neg (hkey right hright).symm]

/-- A performed operation changes blobs of its queue, with authority. -/
theorem framed_perform {queueId : QueueId} {proof : Proof}
    (hop : request.operation = some (queueId, right, proof))
    (hauth : Authorised store challenges queueId right proof) :
    Framed store challenges request
      ⟨(perform store request now).1, challenges.erase (queueId, rightByte right)⟩
      (perform store request now).2 := by
  obtain ⟨rfl, hright⟩ := Request.queueId_of_operation hop
  refine ⟨?_, ?_, ?_, fun q hq => perform_queues hq, ?_⟩
  · intro q hblobs
    obtain ⟨p, blob, rfl⟩ | ⟨p, id, rfl⟩ := perform_blobs hblobs
    · obtain ⟨-, rfl, rfl⟩ : _ ∧ .write = right ∧ p = proof := by
        simpa [Request.operation] using hop
      exact .inl ⟨p, blob, rfl, hauth⟩
    · obtain ⟨-, rfl, rfl⟩ : _ ∧ .read = right ∧ p = proof := by
        simpa [Request.operation] using hop
      exact .inr ⟨p, id, rfl, hauth⟩
  · intro q registration h
    rw [← h]
    exact perform_registration q
  · intro refusal hrefused
    exact ⟨perform_refused hrefused, .inr ⟨right, hright, rfl⟩⟩
  · intro key hkey
    rw [challenges_erase, if_neg (hkey right hright).symm]

omit [Blake2b] in
/-- Registering a queue touches no other one, and none that is there. -/
theorem framed_register (registration : Registration) :
    Framed store challenges request
      ⟨store.register request.queueId registration now, challenges⟩ .ok := by
  refine ⟨?_, ?_, fun refusal h => by simp at h, ?_, fun key _ => rfl⟩
  · intro q h
    exfalso
    apply h
    simp only [Store.blobs, Store.queues_register]
    cases store.queues[q]? with
    | none => by_cases hq : request.queueId = q <;> simp [hq]
    | some queue => simp
  · intro q old h
    rw [Store.registration] at h
    rw [Store.registration, Store.queues_register, if_neg]
    · exact h
    · rintro ⟨-, hnone⟩
      simp [hnone] at h
  · intro q hq
    rw [Store.queues_register, if_neg]
    rintro ⟨rfl, -⟩
    exact hq rfl

/-- A request touches nothing but what it names. -/
theorem framed_handle (store : Store) (challenges : Challenges) (request : Request)
    (now : UInt64) (fresh : Octets 32) :
    Framed store challenges request (handle store challenges request now fresh).1
      (handle store challenges request now fresh).2 := by
  cases hop : request.operation with
  | some operation =>
    obtain ⟨queueId, right, proof⟩ := operation
    obtain ⟨refusal, -, heq⟩ | ⟨-, -, heq⟩ | ⟨hauth, heq⟩ :=
      handle_operation_cases store challenges now fresh hop
    · rw [heq]
      exact framed_of_store_eq (.inl rfl)
    · obtain ⟨rfl, hright⟩ := Request.queueId_of_operation hop
      rw [heq]
      exact framed_of_store_eq (.inr ⟨right, hright, rfl⟩)
    · rw [heq]
      exact framed_perform hop hauth
  | none =>
    obtain ⟨registration, heq⟩ | heq | ⟨right, hreq, -, heq⟩ :=
      handle_other store challenges now fresh hop
    · rw [heq]
      exact framed_register registration
    · rw [heq]
      exact framed_of_store_eq (.inl rfl)
    · have hright : request.right = some right := by
        rw [hreq]
        rfl
      rw [heq]
      refine ⟨fun q h => absurd rfl h, fun q _ h => h, fun _ h => by simp at h,
        fun q _ => rfl, ?_⟩
      intro key hkey
      rw [challenges_insert, if_neg (hkey right hright).symm]

/-- A request touches nothing but what it names, and an expiry changes no registration. -/
theorem handle_framed (store : Store) (challenges : Challenges) (request : Request)
    (now : UInt64) (fresh : Octets 32) :
    Framed store challenges request (handle store challenges request now fresh).1
        (handle store challenges request now fresh).2 ∧
      ∀ q registration, (store.expire now).registration q = some registration →
        store.registration q = some registration :=
  ⟨framed_handle store challenges request now fresh,
    fun _ _ h => Store.registration_of_expire h⟩

end Frame

/-! ## Challenges over a run -/

/-- The operation an event carries. -/
def Event.operation : Event → Option (QueueId × Right × Proof)
  | .handle request .. => request.operation
  | .expire _ => none

section Slots

variable {relay : State} {event : Event} {key : QueueId × UInt8} {challenge : Octets 32}

/-- The event issues a challenge. -/
def Puts (relay : State) (event : Event) (key : QueueId × UInt8) (challenge : Octets 32) : Prop :=
  ∃ queueId right now, event = .handle (.challengeRequest queueId right) now challenge ∧
    key = (queueId, rightByte right) ∧ (relay.store.registration queueId).isSome

/-- The event spends the challenge of a queue that is there. -/
def Takes (relay : State) (event : Event) (key : QueueId × UInt8) : Prop :=
  ∃ queueId right proof, event.operation = some (queueId, right, proof) ∧
    key = (queueId, rightByte right) ∧ (relay.store.registration queueId).isSome

/-- A challenge is outstanding because the event issued it, or because it was before and the
event did not spend it. -/
theorem challenge_step (h : (relay.step event).1.challenges[key]? = some challenge) :
    Puts relay event key challenge ∨
      relay.challenges[key]? = some challenge ∧ ¬ Takes relay event key := by
  have hnone (hop : event.operation = none) : ¬ Takes relay event key := by
    rintro ⟨_, _, _, hop', -⟩
    simp [hop] at hop'
  cases event with
  | expire now => exact .inr ⟨h, hnone rfl⟩
  | handle request now fresh =>
    cases hop : request.operation with
    | none =>
      obtain ⟨registration, heq⟩ | heq | ⟨right, hreq, hreg, heq⟩ :=
        handle_other relay.store relay.challenges now fresh hop
      · simp only [State.step, heq] at h
        exact .inr ⟨h, hnone hop⟩
      · simp only [State.step, heq] at h
        exact .inr ⟨h, hnone hop⟩
      · simp only [State.step, heq, Std.ExtTreeMap.getElem?_insert] at h
        split at h
        case isTrue hkey =>
          obtain rfl : fresh = challenge := by simpa using h
          have hkey := (Std.LawfulEqCmp.compare_eq_iff_eq.mp hkey).symm
          exact .inl ⟨_, right, now, by rw [← hreq], hkey, hreg⟩
        case isFalse => exact .inr ⟨h, hnone hop⟩
    | some operation =>
      obtain ⟨queueId, right, proof⟩ := operation
      have htakes (ht : Takes relay (.handle request now fresh) key) :
          key = (queueId, rightByte right) ∧ (relay.store.registration queueId).isSome := by
        obtain ⟨q, r, p, hop', rfl, hreg⟩ := ht
        obtain ⟨rfl, rfl, rfl⟩ : queueId = q ∧ right = r ∧ proof = p := by
          simpa [hop] using hop.symm.trans hop'
        exact ⟨rfl, hreg⟩
      have herased {s : Store} {response : Response} (heq : handle relay.store relay.challenges
          request now fresh =
            (⟨s, relay.challenges.erase (queueId, rightByte right)⟩, response)) :
          relay.challenges[key]? = some challenge ∧
            ¬ Takes relay (.handle request now fresh) key := by
        simp only [State.step, heq, Std.ExtTreeMap.getElem?_erase] at h
        split at h
        case isTrue => simp at h
        case isFalse hkey =>
          refine ⟨h, fun ht => ?_⟩
          rw [(htakes ht).1] at hkey
          simp at hkey
      refine .inr ?_
      obtain ⟨refusal, hrefusal, heq⟩ | ⟨-, -, heq⟩ | ⟨-, heq⟩ :=
        handle_operation_cases relay.store relay.challenges now fresh hop
      · simp only [State.step, heq] at h
        refine ⟨h, fun ht => ?_⟩
        obtain ⟨rfl, hreg⟩ := htakes ht
        rcases hrefusal with ⟨-, hunknown⟩ | ⟨-, hunknown⟩
        · simp [hunknown] at hreg
        · simp [hunknown] at h
      · exact herased heq
      · exact herased heq

/-- The challenges of a relay as one-time tokens. -/
def challengeSlots : Run.Slots State.step (QueueId × UInt8) (Octets 32) where
  slot relay key := relay.challenges[key]?
  Puts := Puts
  Takes := Takes
  puts_unique := by
    rintro s s' event key key' t t' ⟨q, right, now, rfl, rfl, -⟩ ⟨q', right', now', heq, rfl, -⟩
    obtain ⟨⟨rfl, rfl⟩, -, -⟩ : (q = q' ∧ right = right') ∧ now = now' ∧ t = t' := by
      simpa using heq
    rfl
  takes_unique := by
    rintro s s' event key key' ⟨q, right, proof, hop, rfl, -⟩ ⟨q', right', proof', hop', rfl, -⟩
    obtain ⟨rfl, rfl, rfl⟩ : q = q' ∧ right = right' ∧ proof = proof' := by
      simpa using hop.symm.trans hop'
    rfl
  slot_step := challenge_step

end Slots

/-- The responses of a run, from an empty relay. -/
def responses (events : List Event) : List (Option Response) :=
  Run.outputs State.step State.new events

/-- The relay after the first `n` events of a run. -/
def relayAt (events : List Event) (n : Nat) : State := Run.stateAt State.step State.new events n

/-- The event at `n` is a write, read or delete that was not turned away for want of a queue or
a challenge; it was answered `response`. -/
def Spends (events : List Event) (n : Nat) (queueId : QueueId) (right : Right) (proof : Proof)
    (response : Response) : Prop :=
  ∃ request now fresh, events[n]? = some (.handle request now fresh) ∧
    request.operation = some (queueId, right, proof) ∧
    (responses events)[n]? = some (some response) ∧
    response ≠ .refused .unknownQueue ∧ response ≠ .refused .unknownChallenge

/-- The event at `n` is a challenge request, answered with `challenge`. -/
def Issues (events : List Event) (n : Nat) (queueId : QueueId) (right : Right)
    (challenge : Octets 32) : Prop :=
  ∃ now, events[n]? = some (.handle (.challengeRequest queueId right) now challenge) ∧
    (responses events)[n]? = some (some (.challenge challenge))

section Runs

variable {events : List Event} {n : Nat} {queueId : QueueId} {right : Right} {proof : Proof}
  {response : Response}

/-- An operation that was not turned away had a challenge, took it, and unless it was refused
for its proof, its proof verified over it. -/
theorem Spends.takes (h : Spends events n queueId right proof response) :
    ∃ challenge, challengeSlots.TakesAt State.new events n (queueId, rightByte right) challenge ∧
      (relayAt events (n + 1)).challenges[(queueId, rightByte right)]? = none ∧
      (response ≠ .refused .badProof → ∃ registration,
        (relayAt events n).store.registration queueId = some registration ∧
        registration.check right challenge.toList proof = .ok ()) := by
  obtain ⟨request, now, fresh, hevent, hop, hresponse, hqueue, hchallenge⟩ := h
  have hstep : (responses events)[n]? = some ((relayAt events n).step _).2 :=
    Run.outputs_getElem? hevent
  have hnext : relayAt events (n + 1) = ((relayAt events n).step _).1 := Run.stateAt_succ hevent
  have hanswer : response = (handle (relayAt events n).store (relayAt events n).challenges
      request now fresh).2 :=
    Option.some.inj (Option.some.inj (hresponse.symm.trans hstep))
  have htakes {challenge : Octets 32}
      (hreg : ((relayAt events n).store.registration queueId).isSome)
      (hch : (relayAt events n).challenges[(queueId, rightByte right)]? = some challenge) :
      challengeSlots.TakesAt State.new events n (queueId, rightByte right) challenge :=
    ⟨_, hevent, ⟨queueId, right, proof, hop, rfl, hreg⟩, hch⟩
  have hgone {s : Store} {answer : Response} (heq : handle (relayAt events n).store
      (relayAt events n).challenges request now fresh =
        (⟨s, (relayAt events n).challenges.erase (queueId, rightByte right)⟩, answer)) :
      (relayAt events (n + 1)).challenges[(queueId, rightByte right)]? = none := by
    simp [hnext, State.step, heq]
  obtain ⟨refusal, hrefusal, heq⟩ | ⟨hreg, hch, heq⟩ | ⟨hauth, heq⟩ :=
    handle_operation_cases (relayAt events n).store (relayAt events n).challenges now fresh hop
  · rw [heq] at hanswer
    rcases hrefusal with ⟨rfl, -⟩ | ⟨rfl, -⟩
    · exact absurd hanswer hqueue
    · exact absurd hanswer hchallenge
  · obtain ⟨challenge, hch⟩ := Option.ne_none_iff_exists'.mp hch
    refine ⟨challenge, htakes hreg hch, hgone heq, fun hbad => ?_⟩
    rw [heq] at hanswer
    exact absurd hanswer hbad
  · obtain ⟨registration, challenge, hreg, hch, hcheck⟩ := hauth
    exact ⟨challenge, htakes (by simp [hreg]) hch, hgone heq, fun _ => ⟨_, hreg, hcheck⟩⟩

/-- Only a challenge request that was answered with a challenge puts one. -/
theorem issues_of_puts {challenge : Octets 32}
    (h : challengeSlots.PutsAt State.new events n (queueId, rightByte right) challenge) :
    Issues events n queueId right challenge := by
  obtain ⟨event, hevent, q, r, now, rfl, hkey, hreg⟩ := h
  obtain ⟨rfl, hright⟩ := Prod.mk.inj hkey
  obtain rfl := rightByte_injective hright
  refine ⟨now, hevent, (Run.outputs_getElem? hevent).trans ?_⟩
  obtain ⟨registration, hreg⟩ := Option.isSome_iff_exists.mp hreg
  simp [State.step, handle, hreg]

end Runs

/-- A challenge authorises at most one operation: every operation that was not turned away for
want of a queue or a challenge is matched with a challenge request of its own, an earlier one
for the same queue and right. Unless it was refused for its proof, its proof verified over the
challenge issued there; in either case the challenge is gone. -/
theorem challenge_once (events : List Event) :
    ∃ m : Nat → Nat,
      (∀ n queueId right proof response, Spends events n queueId right proof response →
        m n < n ∧ ∃ challenge, Issues events (m n) queueId right challenge ∧
          (relayAt events (n + 1)).challenges[(queueId, rightByte right)]? = none ∧
          (response ≠ .refused .badProof → ∃ registration,
            (relayAt events n).store.registration queueId = some registration ∧
            registration.check right challenge.toList proof = .ok ())) ∧
      Set.InjOn m {n | ∃ queueId right proof response,
        Spends events n queueId right proof response} := by
  have hempty : ∀ key, challengeSlots.slot State.new key = none := fun key => by
    simp [challengeSlots, State.new]
  obtain ⟨m, hm, hinj⟩ : ∃ m : Nat → Nat,
      (∀ n key challenge, challengeSlots.TakesAt State.new events n key challenge →
        m n < n ∧ challengeSlots.PutsAt State.new events (m n) key challenge) ∧
      Set.InjOn m {n | ∃ key challenge, challengeSlots.TakesAt State.new events n key challenge} :=
    challengeSlots.exists_matching hempty
  refine ⟨m, ?_, hinj.mono ?_⟩
  · intro n queueId right proof response hspend
    obtain ⟨challenge, htakes, hgone, hproof⟩ := hspend.takes
    obtain ⟨hlt, hputs⟩ := hm n _ challenge htakes
    exact ⟨hlt, challenge, issues_of_puts hputs, hgone, hproof⟩
  · rintro n ⟨queueId, right, proof, response, hspend⟩
    obtain ⟨challenge, htakes, -⟩ := hspend.takes
    exact ⟨_, challenge, htakes⟩

end Onestein.Relay
