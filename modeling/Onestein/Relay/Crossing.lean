import Onestein.Relay.Authorisation
import Onestein.Relay.Wire

/-!
# A blob across the relay

A blob is written by one peer and read by the other. On its way it passes the writer's record, the
limits of the store and the record of the relay's answer.

## Main definitions

* `Crosses` — a blob goes in by a write on the wire and comes out by a read on the wire.

## Main results

* `crosses_iff` — which blobs cross.
-/

namespace Onestein.Relay

open Crypto Record

attribute [local instance] lexOrd

/-- The largest blob that fits the record it is written in, behind the name of the queue and the
proof. -/
def maxWrittenLen : Nat := maxPayloadLen - (queueIdLen + proofLen)

section Relaying

variable [Ed25519] [Blake2b]

/-- A blob goes in and comes out. The relay hands out a challenge for each right; the write is
proved, put on the wire, read off it and accepted; the read is proved and answered with a response
that is put on the wire and read off it as the blob and its name. -/
def Crosses (relay : State) (keys : QueueKeys) (queueId : QueueId) (blob : Bytes)
    (times : Fin 4 → UInt64) (fresh : Fin 4 → Octets 32) : Prop :=
  let asked := handle relay.store relay.challenges (.challengeRequest queueId .write) (times 0)
    (fresh 0)
  let ready := handle asked.1.store asked.1.challenges (.challengeRequest queueId .read) (times 1)
    (fresh 1)
  asked.2 = .challenge (fresh 0) ∧ ready.2 = .challenge (fresh 1) ∧
  ∃ writeProof readProof sent request,
    keys.prove .write (fresh 0).toList = .ok writeProof ∧
    keys.prove .read (fresh 1).toList = .ok readProof ∧
    encodeRequest (.write queueId writeProof blob) = .ok sent ∧
    decodeRequest sent = .ok request ∧
    let written := handle ready.1.store ready.1.challenges request (times 2) (fresh 2)
    let collected := handle written.1.store written.1.challenges (.read queueId readProof) (times 3)
      (fresh 3)
    written.2 = .ok ∧ ∃ answer, encodeResponse collected.2 = .ok answer ∧
      decodeResponse answer = .ok (.blob (blobId blob) blob)

section Steps

variable {store : Store} {challenges : Challenges} {queueId : QueueId} {queue : Queue}
  {registration : Registration} {right : Right} {challenge : Octets 32} {proof : Proof}
  {now : UInt64} {fresh : Octets 32} {blob : Bytes}

omit [Blake2b] in
/-- A proof that verifies over the outstanding challenge spends it. -/
theorem spend_of_check (hregistration : store.registration queueId = some registration)
    (hchallenge : challenges[(queueId, rightByte right)]? = some challenge)
    (hcheck : registration.check right challenge.toList proof = .ok ()) :
    spend store challenges queueId right proof =
      (challenges.erase (queueId, rightByte right), .ok ()) := by
  simp [spend, hregistration, hchallenge, hcheck]

theorem handle_challengeRequest (hregistration : store.registration queueId = some registration) :
    handle store challenges (.challengeRequest queueId right) now fresh =
      (⟨store, challenges.insert (queueId, rightByte right) fresh⟩, .challenge fresh) := by
  simp [handle, hregistration]

/-- A write that is proved is accepted where there is room. -/
theorem handle_write (hqueue : store.queues[queueId]? = some queue)
    (hchallenge : challenges[(queueId, rightByte .write)]? = some challenge)
    (hcheck : queue.registration.check .write challenge.toList proof = .ok ())
    (hblob : blob.length ≤ maxBlobLen) (hroom : queue.held + blob.length ≤ maxQueueLen) :
    handle store challenges (.write queueId proof blob) now fresh =
      (⟨⟨store.queues.insert queueId { queue with
          blobs := queue.blobs ++ [(blobId blob, blob, now)], lastWriteMs := now }⟩,
        challenges.erase (queueId, rightByte .write)⟩, .ok) := by
  have hregistration : store.registration queueId = some queue.registration := by
    simp [Store.registration, hqueue]
  simp [handle, spend_of_check hregistration hchallenge hcheck, Store.write, hqueue,
    hblob.not_gt, hroom.not_gt]

/-- A read that is proved is answered with the oldest blob. -/
theorem handle_read {entry : Entry} {rest : List Entry}
    (hqueue : store.queues[queueId]? = some queue) (hblobs : queue.blobs = entry :: rest)
    (hchallenge : challenges[(queueId, rightByte .read)]? = some challenge)
    (hcheck : queue.registration.check .read challenge.toList proof = .ok ()) :
    handle store challenges (.read queueId proof) now fresh =
      (⟨store, challenges.erase (queueId, rightByte .read)⟩, .blob entry.1 entry.2.1) := by
  have hregistration : store.registration queueId = some queue.registration := by
    simp [Store.registration, hqueue]
  simp [handle, spend_of_check hregistration hchallenge hcheck, Store.read, hqueue, hblobs]

end Steps

section Crossing

variable {relay : State} {keys : QueueKeys} {queueId : QueueId} {queue : Queue} {blob : Bytes}
  {times : Fin 4 → UInt64} {fresh : Fin 4 → Octets 32}

omit [Ed25519] [Blake2b] in
/-- A write fits its record exactly up to 49056 bytes of blob. -/
theorem exists_encodeRequest_write {proof : Proof} :
    (∃ sent, encodeRequest (.write queueId proof blob) = .ok sent) ↔
      blob.length ≤ maxWrittenLen := by
  rw [exists_encodeRequest]
  simp only [Request.typed, List.length_append, Vector.length_toList]
  unfold maxWrittenLen maxPayloadLen queueIdLen proofLen hashLen
  omega

/-- Only what fits the record of the write crosses. -/
theorem Crosses.length_le (h : Crosses relay keys queueId blob times fresh) :
    blob.length ≤ maxWrittenLen := by
  obtain ⟨-, -, writeProof, readProof, sent, request, -, -, hsent, -⟩ := h
  exact exists_encodeRequest_write.mp ⟨sent, hsent⟩

theorem crosses_of_length_le (hwrite : ∀ message, Ed25519.Verifies keys.write message)
    (hread : ∀ message, Ed25519.Verifies keys.read message)
    (hqueue : relay.store.queues[queueId]? = some queue)
    (hregistration : queue.registration = keys.registration) (hblobs : queue.blobs = [])
    (hlen : blob.length ≤ maxWrittenLen) : Crosses relay keys queueId blob times fresh := by
  have hregistered : relay.store.registration queueId = some queue.registration := by
    simp [Store.registration, hqueue]
  obtain ⟨writeProof, hwriteProof⟩ := keys.exists_prove .write (fresh 0)
  obtain ⟨readProof, hreadProof⟩ := keys.exists_prove .read (fresh 1)
  have hwriteCheck := QueueKeys.check_prove hwrite hread hwriteProof
  have hreadCheck := QueueKeys.check_prove hwrite hread hreadProof
  rw [← hregistration] at hwriteCheck hreadCheck
  obtain ⟨sent, hsent⟩ : ∃ sent, encodeRequest (.write queueId writeProof blob) = .ok sent :=
    exists_encodeRequest_write.mpr hlen
  have hblob : blob.length ≤ maxBlobLen :=
    hlen.trans (by decide : maxWrittenLen ≤ maxBlobLen)
  have hroom : queue.held + blob.length ≤ maxQueueLen := by
    rw [Queue.held, hblobs]
    simpa using hblob.trans (by decide : maxBlobLen ≤ maxQueueLen)
  have hanswer : (Response.blob (blobId blob) blob).typed.2.length ≤ maxPayloadLen := by
    simp only [Response.typed, List.length_append, Vector.length_toList]
    unfold maxWrittenLen maxPayloadLen queueIdLen proofLen hashLen at *
    omega
  obtain ⟨answer, hanswer⟩ := exists_encodeResponse.mpr hanswer
  -- both challenges are outstanding, each under its own right
  have hwriteChallenge : ((relay.challenges.insert (queueId, rightByte .write) (fresh 0)).insert
      (queueId, rightByte .read) (fresh 1))[(queueId, rightByte .write)]? = some (fresh 0) := by
    rw [challenges_insert, if_neg (by simp), challenges_insert, if_pos rfl]
  have hreadChallenge : (((relay.challenges.insert (queueId, rightByte .write) (fresh 0)).insert
      (queueId, rightByte .read) (fresh 1)).erase (queueId, rightByte .write))[
        (queueId, rightByte .read)]? = some (fresh 1) := by
    rw [challenges_erase, if_neg (by simp), challenges_insert, if_pos rfl]
  unfold Crosses
  dsimp only
  rw [handle_challengeRequest hregistered]
  dsimp only
  rw [handle_challengeRequest hregistered]
  refine ⟨rfl, rfl, writeProof, readProof, sent, _, hwriteProof, hreadProof, hsent,
    decodeRequest_eq_ok.mpr hsent, ?_⟩
  rw [handle_write hqueue hwriteChallenge hwriteCheck hblob hroom, hblobs, List.nil_append]
  dsimp only
  have hheld : (Store.mk (relay.store.queues.insert queueId
      ⟨queue.registration, [(blobId blob, blob, times 2)], times 2⟩)).queues[queueId]? =
        some ⟨queue.registration, [(blobId blob, blob, times 2)], times 2⟩ :=
    Store.queues_insert.trans (if_pos rfl)
  rw [handle_read hheld rfl hreadChallenge hreadCheck]
  exact ⟨rfl, answer, hanswer, decodeResponse_eq_ok.mpr hanswer⟩

/-- A blob crosses exactly if it fits the record of its write. The limit of the store is not what
decides. -/
theorem crosses_iff (hwrite : ∀ message, Ed25519.Verifies keys.write message)
    (hread : ∀ message, Ed25519.Verifies keys.read message)
    (hqueue : relay.store.queues[queueId]? = some queue)
    (hregistration : queue.registration = keys.registration) (hblobs : queue.blobs = []) :
    Crosses relay keys queueId blob times fresh ↔ blob.length ≤ 48 * 1024 - 96 :=
  ⟨Crosses.length_le, crosses_of_length_le hwrite hread hqueue hregistration hblobs⟩

end Crossing

end Relaying

namespace Sample

attribute [local instance] ed25519 checksum

/-- A queue that was registered and holds nothing. -/
def queue : Queue := ⟨keys.registration, [], 0⟩

/-- A relay that holds one empty queue. -/
def relay : State := ⟨⟨Std.ExtTreeMap.empty.insert queueId queue⟩, ∅⟩

def times : Fin 4 → UInt64 := fun i => .ofNat i

/-- Fresh challenges, one for each step. -/
def fresh : Fin 4 → Octets 32 := fun i => .replicate 32 (.ofNat i)

theorem queues_relay : relay.store.queues[queueId]? = some queue := by
  simp [relay]

end Sample

/-- A blob of a few bytes crosses. -/
theorem crosses_small :
    @Crosses Sample.ed25519 checksum Sample.relay Sample.keys Sample.queueId [1, 2, 3] Sample.times
      Sample.fresh := by
  let _ := Sample.ed25519
  let _ := checksum
  have hlen : ([1, 2, 3] : Bytes).length ≤ 48 * 1024 - 96 := by decide
  exact (crosses_iff (Sample.verifies _) (Sample.verifies _) Sample.queues_relay rfl rfl).mpr hlen

/-- A blob one byte too long for its record does not cross, although the queue would take it: it is
within the limit, the queue has room for it and holds no other. -/
theorem crosses_not_large :
    ∃ blob : Bytes, blob.length = 49057 ∧ blob.length ≤ maxBlobLen ∧
      Sample.relay.store.queues[Sample.queueId]? = some Sample.queue ∧
      Sample.queue.registration = @QueueKeys.registration Sample.ed25519 Sample.keys ∧
      Sample.queue.blobs = [] ∧ Sample.queue.held + blob.length ≤ maxQueueLen ∧
      (∀ seed message, @Ed25519.Verifies Sample.ed25519 seed message) ∧
      ¬ @Crosses Sample.ed25519 checksum Sample.relay Sample.keys Sample.queueId blob Sample.times
        Sample.fresh := by
  let _ := Sample.ed25519
  let _ := checksum
  have hlen : (List.replicate 49057 (0 : UInt8)).length = 49057 := List.length_replicate
  refine ⟨List.replicate 49057 0, hlen, ?_, Sample.queues_relay, rfl, rfl, ?_, Sample.verifies, ?_⟩
  · rw [hlen]
    decide
  · rw [hlen]
    decide
  · intro h
    have hle := h.length_le
    rw [hlen] at hle
    exact absurd hle (by decide)

end Onestein.Relay
