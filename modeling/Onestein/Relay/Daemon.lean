import Onestein.Relay.Authorisation
import Onestein.Relay.History
import Onestein.Relay.Wire

/-!
# The daemon

What is behind the socket: one record in, one record out.

## Main definitions

* `answer` — turns one record into one reply.
* `Store.Fits` — every blob that is held fits the record it is served in.

## Main results

* `handle_store` — a request acts on the store as an operation of the store.
* `answers_readable` — every reply is one record that can be read.
-/

namespace Onestein.Relay

open Crypto Record

/-- What the daemon is handed for one answer: a record, the time, a fresh challenge unless the
generator failed, and whether the lock could be taken. -/
structure Ask where
  record : Bytes
  nowMs : UInt64
  challenge : Option (Octets 32)
  locked : Bool

/-- A response as it is sent, or nothing if it does not fit. -/
def reply (response : Response) : Bytes :=
  match encodeResponse response with
  | .ok encoded => encoded
  | .error _ => []

variable [Ed25519] [Blake2b]

/-- Turns one record into one reply. -/
def answer (shared : State) (ask : Ask) : State × Bytes :=
  match ask.challenge with
  -- A generator that failed stops the answer rather than weakening the challenge.
  | none => (shared, reply .empty)
  | some challenge =>
    if ask.locked then
      let store := shared.store.expire ask.nowMs
      match decodeRequest ask.record with
      | .error _ => ({ shared with store := store }, reply .empty)
      | .ok request =>
        let (shared, response) := handle store shared.challenges request ask.nowMs challenge
        (shared, reply response)
    else (shared, reply .empty)

omit [Ed25519] [Blake2b] in
theorem Response.ofResult_ne_blob {α : Type} {result : Except Refusal α} {id : Digest}
    {blob : Bytes} : Response.ofResult result ≠ .blob id blob := by
  cases result <;> simp [ofResult]

omit [Ed25519] [Blake2b] in
theorem Response.ofRead_eq_blob {found : Option (Digest × Bytes)} {id : Digest} {blob : Bytes} :
    Response.ofRead found = .blob id blob ↔ found = some (id, blob) := by
  cases found <;> simp [ofRead, Prod.ext_iff]

/-! ## Requests as operations of the store -/

/-- The operation of the store that a request asks for. -/
def Request.storeOp (nowMs : UInt64) : Request → Option StoreOp
  | .register queueId writePublic readPublic =>
    some (.register queueId ⟨writePublic, readPublic⟩ nowMs)
  | .challengeRequest .. => none
  | .write queueId _ blob => some (.write queueId blob nowMs)
  | .read queueId _ => some (.read queueId)
  | .delete queueId _ blobId => some (.delete queueId blobId)

section Requests

variable {store : Store} {challenges : Challenges} {request : Request} {now : UInt64}
  {fresh : Octets 32}

omit [Ed25519] in
theorem perform_store {operation : QueueId × Right × Proof}
    (h : request.operation = some operation) :
    ∃ op, request.storeOp now = some op ∧ (perform store request now).1 = (store.step op).1 := by
  cases request with
  | register | challengeRequest => simp [Request.operation] at h
  | write queueId proof blob => exact ⟨_, rfl, by rw [perform_write, Store.step]⟩
  | read queueId proof => exact ⟨_, rfl, by rw [perform_read, Store.step]⟩
  | delete queueId proof id => exact ⟨_, rfl, by rw [perform_delete, Store.step]⟩

/-- A request leaves the store alone, or acts on it as its operation does. -/
theorem handle_store (store : Store) (challenges : Challenges) (request : Request) (now : UInt64)
    (fresh : Octets 32) :
    (handle store challenges request now fresh).1.store = store ∨
    ∃ op, request.storeOp now = some op ∧
      (handle store challenges request now fresh).1.store = (store.step op).1 := by
  cases hop : request.operation with
  | none =>
    cases request with
    | register queueId writePublic readPublic => exact .inr ⟨_, rfl, rfl⟩
    | challengeRequest queueId right =>
      left
      simp only [handle]
      cases store.registration queueId <;> rfl
    | write | read | delete => simp [Request.operation] at hop
  | some operation =>
    obtain ⟨queueId, right, proof⟩ := operation
    obtain ⟨refusal, -, heq⟩ | ⟨-, -, heq⟩ | ⟨-, heq⟩ :=
      handle_operation_cases store challenges now fresh hop
    · exact .inl (by rw [heq])
    · exact .inl (by rw [heq])
    · rw [heq]
      exact .inr (perform_store hop)

omit [Ed25519] in
theorem read_of_perform {id : Digest} {blob : Bytes}
    (h : (perform store request now).2 = .blob id blob) :
    ∃ q, store.read q = some (id, blob) := by
  cases request with
  | register | challengeRequest => cases h
  | write queueId proof bytes =>
    rw [perform_write] at h
    exact absurd h Response.ofResult_ne_blob
  | read queueId proof =>
    rw [perform_read] at h
    exact ⟨queueId, Response.ofRead_eq_blob.mp h⟩
  | delete queueId proof name =>
    rw [perform_delete] at h
    exact absurd h Response.ofResult_ne_blob

/-- A blob is served because the store holds it. -/
theorem read_of_handle {id : Digest} {blob : Bytes}
    (h : (handle store challenges request now fresh).2 = .blob id blob) :
    ∃ q, store.read q = some (id, blob) := by
  cases hop : request.operation with
  | none =>
    obtain ⟨registration, heq⟩ | heq | ⟨right, -, -, heq⟩ :=
      handle_other store challenges now fresh hop
    · simp [heq] at h
    · simp [heq] at h
    · simp [heq] at h
  | some operation =>
    obtain ⟨queueId, right, proof⟩ := operation
    obtain ⟨refusal, -, heq⟩ | ⟨-, -, heq⟩ | ⟨-, heq⟩ :=
      handle_operation_cases store challenges now fresh hop
    · simp [heq] at h
    · simp [heq] at h
    · rw [heq] at h
      exact read_of_perform h

end Requests

/-! ## What is held fits -/

/-- A blob and its name fit the record they are served in. -/
def Served (entry : Entry) : Prop :=
  (Response.blob entry.1 entry.2.1).typed.2.length ≤ maxPayloadLen

/-- Every blob that is held fits the record it is served in. -/
def Store.Fits (store : Store) : Prop := ∀ q, ∀ entry ∈ store.blobs q, Served entry

section Fits

variable {store : Store} {challenges : Challenges} {request : Request} {now : UInt64}
  {fresh : Octets 32}

omit [Ed25519] in
theorem Store.Fits.step (hfits : store.Fits) {op : StoreOp}
    (hwrite : ∀ q blob now, op = .write q blob now → hashLen + blob.length ≤ maxPayloadLen) :
    (store.step op).1.Fits := by
  intro q entry hmem
  obtain hmem | ⟨write, haccepted, rfl⟩ := mem_blobs_step hmem
  · exact hfits q entry hmem
  · simpa [Served, Response.typed, Written.entry] using
      hwrite q write.1 write.2 (eq_write_of_accepted haccepted)

omit [Ed25519] in
theorem Store.Fits.expire (hfits : store.Fits) : (store.expire now).Fits := by
  have hstep : (store.step (.expire now)).1.Fits := hfits.step (by simp)
  exact hstep

omit [Ed25519] [Blake2b] in
/-- A request that came in a record leaves room for the name of its blob: its own queue identifier
and its proof are longer than that. -/
theorem fits_of_decodeRequest {record : Bytes} (h : decodeRequest record = .ok request)
    {q : QueueId} {blob : Bytes} {time : UInt64}
    (hop : request.storeOp now = some (.write q blob time)) :
    hashLen + blob.length ≤ maxPayloadLen := by
  have hlen := exists_encodeRequest.mp ⟨record, decodeRequest_eq_ok.mp h⟩
  cases request with
  | write queueId proof bytes =>
    obtain ⟨rfl, rfl, rfl⟩ : queueId = q ∧ bytes = blob ∧ now = time := by
      simpa [Request.storeOp] using hop
    simp only [Request.typed, List.length_append, Vector.length_toList, queueIdLen] at hlen
    omega
  | register | challengeRequest | read | delete => simp [Request.storeOp] at hop

theorem fits_handle (hfits : store.Fits) {record : Bytes}
    (h : decodeRequest record = .ok request) :
    (handle store challenges request now fresh).1.store.Fits := by
  obtain heq | ⟨op, hop, heq⟩ := handle_store store challenges request now fresh
  · rw [heq]
    exact hfits
  · rw [heq]
    apply hfits.step
    rintro q blob time rfl
    exact fits_of_decodeRequest h hop

theorem fits_response (hfits : store.Fits) :
    (handle store challenges request now fresh).2.typed.2.length ≤ maxPayloadLen := by
  cases hresponse : (handle store challenges request now fresh).2 with
  | blob id bytes =>
    obtain ⟨q, hread⟩ := read_of_handle hresponse
    rw [read_eq_head_blobs, Option.map_eq_some_iff] at hread
    obtain ⟨entry, hhead, heq⟩ := hread
    obtain ⟨rfl, rfl⟩ := Prod.mk.inj heq
    exact hfits q entry (List.mem_of_mem_head? hhead)
  | challenge bytes => simp [Response.typed, maxPayloadLen]
  | ok => simp [Response.typed, maxPayloadLen]
  | empty => simp [Response.typed, maxPayloadLen]
  | refused refusal => simp [Response.typed, maxPayloadLen]

end Fits

/-! ## Replies -/

/-- One record that can be read. -/
def Readable (encoded : Bytes) : Prop :=
  encoded ≠ [] ∧ ∃ response, decodeResponse encoded = .ok response

omit [Ed25519] [Blake2b] in
theorem readable_reply {response : Response} (h : response.typed.2.length ≤ maxPayloadLen) :
    Readable (reply response) := by
  obtain ⟨encoded, hencoded⟩ := exists_encodeResponse.mpr h
  obtain ⟨-, hwire⟩ := encodeResponse_eq_ok.mp hencoded
  rw [reply, hencoded]
  exact ⟨by simp [← hwire, Record.wire], response, decodeResponse_eq_ok.mpr hencoded⟩

omit [Ed25519] [Blake2b] in
theorem readable_empty : Readable (reply .empty) := readable_reply (by decide)

section Answers

variable {shared : State} (ask : Ask)

theorem fits_answer (hfits : shared.store.Fits) : (answer shared ask).1.store.Fits := by
  have hexpired : (shared.store.expire ask.nowMs).Fits := hfits.expire
  unfold answer
  split
  · exact hfits
  · split
    · dsimp only
      split
      · exact hexpired
      · exact fits_handle hexpired ‹_›
    · exact hfits

theorem readable_answer (hfits : shared.store.Fits) : Readable (answer shared ask).2 := by
  have hexpired : (shared.store.expire ask.nowMs).Fits := hfits.expire
  unfold answer
  split
  · exact readable_empty
  · split
    · dsimp only
      split
      · exact readable_empty
      · exact readable_reply (fits_response hexpired)
    · exact readable_empty

end Answers

/-- The daemon always answers with one record that can be read, and every blob it holds fits the
record it will be served in. -/
theorem answers_readable (asks : List Ask) :
    (∀ encoded ∈ Run.outputs answer State.new asks,
      encoded ≠ [] ∧ ∃ response, decodeResponse encoded = .ok response) ∧
    ∀ q, ∀ entry ∈ (Run.final answer State.new asks).store.blobs q,
      ∃ encoded, encodeResponse (.blob entry.1 entry.2.1) = .ok encoded := by
  have hnew : State.new.store.Fits := fun q entry h => by simp [State.new] at h
  have hstep (shared : State) (ask : Ask) (hfits : shared.store.Fits) :
      (answer shared ask).1.store.Fits := fits_answer ask hfits
  refine ⟨?_, fun q entry hmem => ?_⟩
  · exact Run.forall_outputs hstep (fun shared ask hfits => readable_answer ask hfits) hnew asks
  · have hfits : (Run.final answer State.new asks).store.Fits := Run.invariant hstep hnew asks
    exact exists_encodeResponse.mpr (hfits q entry hmem)

end Onestein.Relay
