import Onestein.Relay.Daemon

/-!
# Where a blob that is served comes from

A relay makes nothing up and mixes nothing up: a blob that it hands out from a queue was put into
this queue, has not been deleted since, and has not outlived its days at any expiry since.

## Main definitions

* `PutIn`, `TakenOut` — what an event does to an entry of a queue.

## Main results

* `entry_step` — an entry is there because the event put it in, or was and is not taken out.
* `served_was_written` — where a blob that is served comes from.
-/

namespace Onestein.Relay

open Crypto

variable [Ed25519] [Blake2b]

/-- The event puts the entry into the queue: it is a write that was answered with yes. -/
def PutIn (relay : State) (event : Event) (q : QueueId) (entry : Entry) : Prop :=
  ∃ proof fresh, event = .handle (.write q proof entry.2.1) entry.2.2 fresh ∧
    entry.1 = blobId entry.2.1 ∧ (relay.step event).2 = some .ok

/-- The event takes the entry out of the queue: it is an expiry that covers it, or a delete of its
name that was answered with yes. -/
def TakenOut (relay : State) (event : Event) (q : QueueId) (entry : Entry) : Prop :=
  (∃ now, event = .expire now ∧ entry.2.2.toNat + thirtyDays < now.toNat) ∨
    ∃ proof now fresh, event = .handle (.delete q proof entry.1) now fresh ∧
      (relay.step event).2 = some .ok

section Step

variable {store : Store} {relay : State} {event : Event} {request : Request} {now : UInt64}
  {fresh : Octets 32} {q : QueueId} {entry : Entry}

omit [Ed25519] in
theorem mem_blobs_write {queueId : QueueId} {blob : Bytes}
    (h : entry ∈ (store.write queueId blob now).1.blobs q) :
    entry ∈ store.blobs q ∨ queueId = q ∧ entry = (blobId blob, blob, now) ∧
      (store.write queueId blob now).2 = .ok (blobId blob) := by
  obtain ⟨refusal, heq⟩ | ⟨queue, hqueue, -, -, heq⟩ := store.write_cases queueId blob now
  · exact .inl (by rwa [heq] at h)
  · rw [heq, Store.blobs, Store.queues_insert] at h
    split_ifs at h with hq
    · subst hq
      rw [heq]
      refine (List.mem_append.mp h).imp (fun hold => ?_) fun hnew => ?_
      · exact blobs_of_queue hqueue ▸ hold
      · exact ⟨rfl, List.mem_singleton.mp hnew, rfl⟩
    · exact .inl h

omit [Ed25519] [Blake2b] in
theorem mem_blobs_delete {queueId : QueueId} {id : Digest}
    (h : entry ∈ (store.delete queueId id).1.blobs q) :
    entry ∈ store.blobs q ∧
      (queueId = q → (store.delete queueId id).2 = .ok () → entry.1 ≠ id) := by
  obtain ⟨hnone, heq⟩ | ⟨queue, hqueue, heq⟩ := store.delete_cases queueId id
  · rw [heq] at h ⊢
    exact ⟨h, fun _ hok => by simp at hok⟩
  · rw [heq, Store.blobs, Store.queues_insert] at h
    split_ifs at h with hq
    · subst hq
      obtain ⟨hold, hne⟩ := List.mem_filter.mp h
      exact ⟨blobs_of_queue hqueue ▸ hold, fun _ _ => by simpa using hne⟩
    · exact ⟨h, fun hsame => absurd hsame hq⟩

omit [Ed25519] [Blake2b] in
theorem mem_blobs_expire (h : entry ∈ (store.expire now).blobs q) :
    entry ∈ store.blobs q ∧ entry.isAlive now := by
  rw [Store.blobs, Store.queues_expire] at h
  cases hqueue : store.queues[q]? with
  | none => simp [hqueue] at h
  | some queue =>
    rw [hqueue, Option.filter_some] at h
    split_ifs at h with halive
    · rw [blobs_of_queue hqueue]
      exact List.mem_filter.mp h
    · simp at h

omit [Ed25519] [Blake2b] in
theorem mem_blobs_register {queueId : QueueId} {registration : Registration}
    (h : entry ∈ (store.register queueId registration now).blobs q) : entry ∈ store.blobs q := by
  rw [Store.blobs, Store.queues_register] at h
  split_ifs at h with hnew
  · simp at h
  · exact h

omit [Ed25519] in
/-- What is in a queue after an operation. -/
theorem mem_blobs_perform (h : entry ∈ (perform store request now).1.blobs q) :
    (entry ∈ store.blobs q ∨ ∃ proof, request = .write q proof entry.2.1 ∧
      entry.1 = blobId entry.2.1 ∧ now = entry.2.2 ∧ (perform store request now).2 = .ok) ∧
    ∀ proof, request = .delete q proof entry.1 → (perform store request now).2 ≠ .ok := by
  cases request with
  | register | challengeRequest => exact ⟨.inl h, by simp⟩
  | read queueId proof =>
    rw [perform_read] at h
    exact ⟨.inl h, by simp⟩
  | write queueId proof blob =>
    refine ⟨?_, by simp⟩
    rw [perform_write] at h ⊢
    obtain hold | ⟨rfl, rfl, hok⟩ := mem_blobs_write h
    · exact .inl hold
    · exact .inr ⟨proof, rfl, rfl, rfl, by simp [hok, Response.ofResult]⟩
  | delete queueId proof id =>
    rw [perform_delete] at h ⊢
    obtain ⟨hold, hkept⟩ := mem_blobs_delete h
    refine ⟨.inl hold, fun proof' hsame hok => ?_⟩
    obtain ⟨rfl, rfl, rfl⟩ : queueId = q ∧ proof = proof' ∧ id = entry.1 := by simpa using hsame
    cases hresult : (store.delete queueId entry.1).2 with
    | error refusal => simp [hresult, Response.ofResult] at hok
    | ok u => exact hkept rfl hresult rfl

/-- An entry is in a queue because the event put it in, or because it was there and the event did
not take it out. -/
theorem entry_step (h : entry ∈ (relay.step event).1.store.blobs q) :
    PutIn relay event q entry ∨ entry ∈ relay.store.blobs q ∧ ¬ TakenOut relay event q entry := by
  cases event with
  | expire now =>
    obtain ⟨hold, halive⟩ := mem_blobs_expire h
    refine .inr ⟨hold, ?_⟩
    rintro (⟨later, hsame, hdead⟩ | ⟨proof, time, fresh, hsame, -⟩)
    · obtain rfl : now = later := by simpa using hsame
      rw [(not_isAlive_iff entry now).mpr hdead] at halive
      cases halive
    · cases hsame
  | handle request now fresh =>
    have hnot (hno : ∀ proof, request = .delete q proof entry.1 →
        (relay.step (.handle request now fresh)).2 ≠ some .ok) :
        ¬ TakenOut relay (.handle request now fresh) q entry := by
      rintro (⟨later, hsame, -⟩ | ⟨proof, time, fresh', hsame, hok⟩)
      · cases hsame
      · obtain ⟨rfl, rfl, rfl⟩ :
            request = .delete q proof entry.1 ∧ now = time ∧ fresh = fresh' := by
          simpa using hsame
        exact hno proof rfl hok
    cases hop : request.operation with
    | none =>
      have hdelete (proof : Proof) : request ≠ .delete q proof entry.1 := by
        rintro rfl
        simp [Request.operation] at hop
      refine .inr ⟨?_, hnot fun proof hsame => absurd hsame (hdelete proof)⟩
      obtain ⟨registration, heq⟩ | heq | ⟨right, -, -, heq⟩ :=
        handle_other relay.store relay.challenges now fresh hop
      · rw [State.step, heq] at h
        exact mem_blobs_register h
      · rwa [State.step, heq] at h
      · rwa [State.step, heq] at h
    | some operation =>
      obtain ⟨queueId, right, proof⟩ := operation
      obtain ⟨refusal, -, heq⟩ | ⟨-, -, heq⟩ | ⟨-, heq⟩ :=
        handle_operation_cases relay.store relay.challenges now fresh hop
      · rw [State.step, heq] at h
        exact .inr ⟨h, hnot fun _ _ hok => by simp [State.step, heq] at hok⟩
      · rw [State.step, heq] at h
        exact .inr ⟨h, hnot fun _ _ hok => by simp [State.step, heq] at hok⟩
      · rw [State.step, heq] at h
        obtain ⟨hhere, hkept⟩ := mem_blobs_perform h
        obtain hold | ⟨proof', rfl, hname, rfl, hok⟩ := hhere
        · refine .inr ⟨hold, hnot fun proof' hsame hok => hkept proof' hsame ?_⟩
          simpa [State.step, heq] using hok
        · exact .inl ⟨proof', fresh, rfl, hname, by simp [State.step, heq, hok]⟩

/-- What a read hands out is in the queue. -/
theorem exists_entry_of_served {proof : Proof} {id : Digest} {blob : Bytes}
    (h : (relay.step (.handle (.read q proof) now fresh)).2 = some (.blob id blob)) :
    ∃ entry ∈ relay.store.blobs q, entry.1 = id ∧ entry.2.1 = blob := by
  have hop : (Request.read q proof).operation = some (q, .read, proof) := rfl
  obtain ⟨refusal, -, heq⟩ | ⟨-, -, heq⟩ | ⟨-, heq⟩ :=
    handle_operation_cases relay.store relay.challenges now fresh hop
  · simp [State.step, heq] at h
  · simp [State.step, heq] at h
  · have hread : Response.ofRead (relay.store.read q) = .blob id blob := by
      simpa [State.step, heq, perform_read] using h
    rw [Response.ofRead_eq_blob, read_eq_head_blobs, Option.map_eq_some_iff] at hread
    obtain ⟨entry, hhead, hsame⟩ := hread
    obtain ⟨rfl, rfl⟩ := Prod.mk.inj hsame
    exact ⟨entry, List.mem_of_mem_head? hhead, rfl, rfl⟩

end Step

/-- A relay makes nothing up: a blob that it answers a read of a queue with carries its name, and an
earlier write to this queue, answered with yes, put it in. Since then no delete of this name was
answered with yes for this queue, and no expiry came more than thirty days after the write. -/
theorem served_was_written (events : List Event) (n : Nat) (q : QueueId) (proof : Proof)
    (now : UInt64) (fresh : Octets 32) (id : Digest) (blob : Bytes)
    (hevent : events[n]? = some (.handle (.read q proof) now fresh))
    (hresponse : (responses events)[n]? = some (some (.blob id blob))) :
    id = blobId blob ∧ ∃ m proof' time fresh', m < n ∧
      events[m]? = some (.handle (.write q proof' blob) time fresh') ∧
      (responses events)[m]? = some (some .ok) ∧
      ∀ l, m < l → l < n →
        (∀ later, events[l]? = some (.expire later) → later.toNat ≤ time.toNat + thirtyDays) ∧
        ∀ proof'' time' fresh'', events[l]? = some (.handle (.delete q proof'' id) time' fresh'') →
          (responses events)[l]? ≠ some (some .ok) := by
  have hsaid {l : Nat} {event : Event} (h : events[l]? = some event) :
      (responses events)[l]? = some ((relayAt events l).step event).2 :=
    Run.outputs_getElem? h
  have hserved : ((relayAt events n).step (.handle (.read q proof) now fresh)).2 =
      some (.blob id blob) := Option.some.inj ((hsaid hevent).symm.trans hresponse)
  obtain ⟨⟨id, blob, time⟩, hmem, rfl, rfl⟩ := exists_entry_of_served hserved
  obtain ⟨m, event, hm, hput, ⟨proof', fresh', rfl, hname, hok⟩, hkept⟩ :=
    Run.exists_origin (H := fun relay entry => entry ∈ relay.store.blobs q)
      (P := fun relay event entry => PutIn relay event q entry)
      (L := fun relay event entry => TakenOut relay event q entry)
      (fun _ _ _ => entry_step) (by simp [State.new]) n hmem
  refine ⟨hname, m, proof', time, fresh', hm, hput, (hsaid hput).trans (congrArg some hok), ?_⟩
  intro l hml hln
  refine ⟨fun later hlater => ?_, fun proof'' time' fresh'' hdelete hyes => ?_⟩
  · by_contra hlate
    exact hkept l _ hml hln hlater (.inl ⟨later, rfl, Nat.lt_of_not_le hlate⟩)
  · have hanswered := Option.some.inj ((hsaid hdelete).symm.trans hyes)
    exact hkept l _ hml hln hdelete (.inr ⟨proof'', time', fresh'', rfl, hanswered⟩)

namespace Sample

attribute [local instance] ed25519

def nonce : Octets 32 := .replicate 32 0x79

/-- A blob is put in and read. -/
def collected : List Event :=
  [.handle (.register queueId keys.registration.writePublic keys.registration.readPublic) 0 nonce,
    .handle (.challengeRequest queueId .write) 1 nonce,
    .handle (.write queueId (Ed25519.sign keys.write (proofMessage .write nonce.toList)) [7]) 2
      nonce,
    .handle (.challengeRequest queueId .read) 3 nonce,
    .handle (.read queueId (Ed25519.sign keys.read (proofMessage .read nonce.toList))) 4 nonce]

end Sample

omit [Ed25519] [Blake2b] in
/-- A blob that was read had been written. -/
theorem served_was_written_collected :
    let _ := Sample.ed25519
    let _ := checksum
    ∃ m proof time fresh, m < 4 ∧
      Sample.collected[m]? = some (.handle (.write Sample.queueId proof [7]) time fresh) ∧
      (responses Sample.collected)[m]? = some (some .ok) := by
  intro _ _
  have hserved : (responses Sample.collected)[4]? = some (some (.blob (blobId [7]) [7])) := by
    decide +kernel
  obtain ⟨-, m, proof, time, fresh, hm, hwrite, hok, -⟩ :=
    served_was_written Sample.collected 4 Sample.queueId _ 4 Sample.nonce _ [7] rfl hserved
  exact ⟨m, proof, time, fresh, hm, hwrite, hok⟩

end Onestein.Relay
