import Onestein.Relay.History

/-!
# Limits and expiry

A queue is bounded in what it holds, and it goes some time after its last write, a blob some time
after its own. The time of the last write is that of the clock, also when the clock went back.

## Main definitions

* `Store.Accepts` — there is room for a blob.
* `Store.Within` — nothing that is held is over a limit, and all of it has its name.
* `Store.Covers` — a queue outlives its blobs.
* `Timely` — an operation does not come with a clock too far behind.

## Main results

* `forall_queues_step` — what an operation keeps of every queue.
* `limits_hold` — the limits of a store after any run.
* `covers_step` — when an operation leaves no blob that its queue does not outlive.
* `expire_spares_iff` — when no expiry in a run drops a blob that is alive.
-/

namespace Onestein.Relay

open Crypto

/-- The queue is there, and there is room for the blob. -/
def Store.Accepts (store : Store) (queueId : QueueId) (blob : Bytes) : Prop :=
  ∃ queue, store.queues[queueId]? = some queue ∧ blob.length ≤ maxBlobLen ∧
    queue.held + blob.length ≤ maxQueueLen

/-- Nothing in a queue is over a limit, and every blob has its name. -/
structure Queue.Within [Blake2b] (queue : Queue) : Prop where
  held_le : queue.held ≤ maxQueueLen
  length_le : ∀ entry ∈ queue.blobs, entry.2.1.length ≤ maxBlobLen
  named : ∀ entry ∈ queue.blobs, entry.1 = blobId entry.2.1

def Store.Within [Blake2b] (store : Store) : Prop :=
  ∀ (q : QueueId) (queue : Queue), store.queues[q]? = some queue → queue.Within

/-- A queue outlives its blobs. -/
def Queue.Covers (queue : Queue) : Prop :=
  ∀ entry ∈ queue.blobs,
    entry.2.2.saturatingAdd blobLife ≤ queue.lastWriteMs.saturatingAdd queueLife

def Store.Covers (store : Store) : Prop :=
  ∀ (q : QueueId) (queue : Queue), store.queues[q]? = some queue → queue.Covers

/-- A write that is accepted leaves the queue a life that is not shorter than that of its blobs. -/
def Timely (store : Store) : StoreOp → Prop
  | .write queueId blob now => store.Accepts queueId blob → ∀ entry ∈ store.blobs queueId,
    entry.2.2.saturatingAdd blobLife ≤ now.saturatingAdd queueLife
  | _ => True

section Held

variable {queue : Queue}

@[simp] theorem held_nil (registration : Registration) (now : UInt64) :
    (Queue.mk registration [] now).held = 0 := rfl

theorem held_concat (entry : Entry) (now : UInt64) :
    ({ queue with blobs := queue.blobs ++ [entry], lastWriteMs := now } : Queue).held =
      queue.held + entry.2.1.length := by
  simp [Queue.held]

/-- Taking blobs out does not fill a queue. -/
theorem held_filter_le (p : Entry → Bool) :
    ({ queue with blobs := queue.blobs.filter p } : Queue).held ≤ queue.held :=
  (List.filter_sublist.map _).sum_le_sum fun _ _ => Nat.zero_le _

end Held

variable [Blake2b] {store : Store} {op : StoreOp} {q : QueueId}

/-- A write is accepted exactly if there is room for the blob. -/
theorem write_ok_iff {blob : Bytes} {now : UInt64} :
    (∃ id, (store.write q blob now).2 = .ok id) ↔ store.Accepts q blob := by
  constructor
  · rintro ⟨id, hok⟩
    obtain ⟨refusal, heq⟩ | ⟨queue, hqueue, hblob, hroom, -⟩ := store.write_cases q blob now
    · simp [heq] at hok
    · exact ⟨queue, hqueue, hblob, hroom⟩
  · rintro ⟨queue, hqueue, hblob, hroom⟩
    refine ⟨blobId blob, ?_⟩
    simp [Store.write, hqueue, hblob.not_gt, hroom.not_gt]

/-- The write that an operation makes had room. -/
theorem accepts_of_accepted {blob : Bytes} {now : UInt64}
    (h : accepted store q (.write q blob now) = some (blob, now)) : store.Accepts q blob := by
  simp only [accepted, true_and] at h
  split at h
  case isTrue hok => exact write_ok_iff.mp ⟨_, hok⟩
  case isFalse => simp at h

/-! ## Limits -/

omit [Blake2b] in
theorem Store.Accepts.queue {queue : Queue} {blob : Bytes} (h : store.Accepts q blob)
    (hqueue : store.queues[q]? = some queue) :
    blob.length ≤ maxBlobLen ∧ queue.held + blob.length ≤ maxQueueLen := by
  obtain ⟨queue', hqueue', hrest⟩ := h
  obtain rfl := Option.some.inj (hqueue'.symm.trans hqueue)
  exact hrest

/-- What holds of every queue, of a new one, after a write that had room and whatever is taken out,
holds of every queue after an operation. -/
theorem forall_queues_step {P : Queue → Prop}
    (hmade : ∀ registration now, P ⟨registration, [], now⟩)
    (hwrote : ∀ (q : QueueId) (queue : Queue) (blob : Bytes) (now : UInt64),
      op = .write q blob now → store.queues[q]? = some queue → store.Accepts q blob → P queue →
      P { queue with blobs := queue.blobs ++ [(blobId blob, blob, now)], lastWriteMs := now })
    (hfilter : ∀ (queue : Queue) (p : Entry → Bool), P queue →
      P { queue with blobs := queue.blobs.filter p })
    (h : ∀ (q : QueueId) (queue : Queue), store.queues[q]? = some queue → P queue) (q : QueueId)
    (queue : Queue) (hafter : (store.step op).1.queues[q]? = some queue) : P queue := by
  have hstep := queueStep store op q
  rw [hafter] at hstep
  generalize hsome : some queue = after at hstep
  cases hstep with
  | made =>
    obtain rfl := Option.some.inj hsome
    exact hmade _ _
  | wrote hqueue haccepted =>
    obtain rfl := Option.some.inj hsome
    exact hwrote q _ _ _ rfl hqueue (accepts_of_accepted haccepted) (h q _ hqueue)
  | deleted hqueue =>
    obtain rfl := Option.some.inj hsome
    exact hfilter _ _ (h q _ hqueue)
  | expired hqueue =>
    obtain rfl := Option.some.inj hsome
    exact hfilter _ _ (h q _ hqueue)
  | dropped => cases hsome
  | kept => exact h q queue hsome.symm

theorem Queue.Within.filter {queue : Queue} (h : queue.Within) (p : Entry → Bool) :
    ({ queue with blobs := queue.blobs.filter p } : Queue).Within where
  held_le := (held_filter_le p).trans h.held_le
  length_le entry hmem := h.length_le entry (List.mem_filter.mp hmem).1
  named entry hmem := h.named entry (List.mem_filter.mp hmem).1

theorem within_step (h : store.Within) (op : StoreOp) : (store.step op).1.Within := by
  refine forall_queues_step (fun _ _ => ⟨by simp, by simp, by simp⟩) ?_
    (fun _ p hqueue => hqueue.filter p) h
  intro q queue blob now _ hqueue haccepts hwithin
  obtain ⟨hblob, hroom⟩ := haccepts.queue hqueue
  exact ⟨by rwa [held_concat],
    List.forall_mem_append.mpr ⟨hwithin.length_le, List.forall_mem_singleton.mpr hblob⟩,
    List.forall_mem_append.mpr ⟨hwithin.named, List.forall_mem_singleton.mpr rfl⟩⟩

omit [Blake2b] in
theorem queue_of_mem {entry : Entry} (hmem : entry ∈ store.blobs q) :
    ∃ queue, store.queues[q]? = some queue ∧ entry ∈ queue.blobs := by
  obtain ⟨queue, hqueue⟩ := exists_queue_of_mem hmem
  exact ⟨queue, hqueue, blobs_of_queue hqueue ▸ hmem⟩

theorem within_storeAfter (ops : List StoreOp) : (storeAfter ops).Within := by
  have hnew : Store.new.Within := fun q queue h => by simp at h
  have hstep : ∀ (store : Store) op, store.Within → (store.step op).1.Within :=
    fun _ op h => within_step h op
  exact Run.invariant hstep hnew ops

/-- After any run, no blob and no queue is over its limit, every blob has its name, and a write is
accepted exactly if its queue is there, the blob is within its limit and the queue stays within its
own. -/
theorem limits_hold (ops : List StoreOp) :
    (∀ q, ∀ entry ∈ (storeAfter ops).blobs q,
      entry.2.1.length ≤ maxBlobLen ∧ entry.1 = blobId entry.2.1) ∧
    (∀ (q : QueueId) (queue : Queue), (storeAfter ops).queues[q]? = some queue →
      queue.held ≤ maxQueueLen) ∧
    ∀ (q : QueueId) (blob : Bytes) (now : UInt64),
      (∃ id, ((storeAfter ops).write q blob now).2 = .ok id) ↔
        ∃ queue, (storeAfter ops).queues[q]? = some queue ∧ blob.length ≤ maxBlobLen ∧
          queue.held + blob.length ≤ maxQueueLen := by
  have hwithin := within_storeAfter ops
  refine ⟨fun q entry hmem => ?_, fun q queue hqueue => (hwithin q queue hqueue).held_le,
    fun q blob now => write_ok_iff⟩
  obtain ⟨queue, hqueue, hmem⟩ := queue_of_mem hmem
  exact ⟨(hwithin q queue hqueue).length_le entry hmem, (hwithin q queue hqueue).named entry hmem⟩

/-! ## Expiry -/

omit [Blake2b] in
/-- A queue outlives its blobs exactly if it is never gone before them. -/
theorem covers_iff {queue : Queue} : queue.Covers ↔
    ∀ now, queue.isAlive now = false → ∀ entry ∈ queue.blobs, entry.isAlive now = false := by
  simp only [Queue.Covers, Queue.isAlive, Entry.isAlive, decide_eq_false_iff_not, UInt64.not_le]
  constructor
  · intro h now hnow entry hmem
    exact UInt64.lt_of_le_of_lt (h entry hmem) hnow
  · intro h entry hmem
    by_contra hlt
    exact UInt64.lt_irrefl _ (h _ (UInt64.not_le.mp hlt) entry hmem)

omit [Blake2b] in
/-- A queue is gone by an expiry that it does not outlive. -/
theorem expire_eq_none_iff {queue : Queue} {now : UInt64} (h : store.queues[q]? = some queue) :
    (store.expire now).queues[q]? = none ↔ queue.isAlive now = false := by
  rw [Store.queues_expire, h, Option.filter_some]
  split <;> simp_all

omit [Blake2b] in
/-- The queues of a store outlive their blobs exactly if no expiry drops a blob that is alive. -/
theorem covers_iff_expire : store.Covers ↔
    ∀ (now : UInt64) (q : QueueId) (queue : Queue), store.queues[q]? = some queue →
      (store.expire now).queues[q]? = none →
      ∀ entry ∈ queue.blobs, entry.2.2.toNat + thirtyDays < now.toNat := by
  simp only [Store.Covers, covers_iff, not_isAlive_iff]
  constructor
  · intro h now q queue hqueue hnone
    exact h q queue hqueue now ((expire_eq_none_iff hqueue).mp hnone)
  · intro h q queue hqueue now halive
    exact h now q queue hqueue ((expire_eq_none_iff hqueue).mpr halive)

omit [Blake2b] in
/-- A blob does not live longer than a queue that is written to at the same time. -/
theorem blobLife_le_queueLife (now : UInt64) :
    now.saturatingAdd blobLife ≤ now.saturatingAdd queueLife := by
  have hlife : blobLife.toNat ≤ queueLife.toNat := by decide
  rw [UInt64.le_iff_toNat_le, UInt64.toNat_saturatingAdd, UInt64.toNat_saturatingAdd]
  omega

omit [Blake2b] in
theorem Queue.Covers.filter {queue : Queue} (h : queue.Covers) (p : Entry → Bool) :
    ({ queue with blobs := queue.blobs.filter p } : Queue).Covers :=
  fun entry hmem => h entry (List.mem_filter.mp hmem).1

/-- An operation leaves no blob that its queue does not outlive exactly if it is timely. -/
theorem covers_step (h : store.Covers) (op : StoreOp) :
    (store.step op).1.Covers ↔ Timely store op := by
  constructor
  · intro hafter
    cases op with
    | write q blob now =>
      rintro ⟨queue, hqueue, hblob, hroom⟩ entry hmem
      rw [blobs_of_queue hqueue] at hmem
      obtain ⟨refusal, heq⟩ | ⟨queue', hqueue', -, -, heq⟩ := store.write_cases q blob now
      · obtain ⟨id, hok⟩ : ∃ id, (store.write q blob now).2 = .ok id :=
          write_ok_iff.mpr ⟨queue, hqueue, hblob, hroom⟩
        simp [heq] at hok
      · obtain rfl := Option.some.inj (hqueue'.symm.trans hqueue)
        have hwritten : (store.step (.write q blob now)).1.queues[q]? = some { queue' with
            blobs := queue'.blobs ++ [(blobId blob, blob, now)], lastWriteMs := now } := by
          rw [Store.step, heq, Store.queues_insert, if_pos rfl]
        exact hafter q _ hwritten entry (List.mem_append_left _ hmem)
    | register | read | delete | expire => trivial
  · intro htimely
    refine forall_queues_step (fun _ _ => by simp [Queue.Covers]) ?_
      (fun _ p hqueue => hqueue.filter p) h
    rintro q queue blob now rfl hqueue haccepts -
    have hold := htimely haccepts
    rw [blobs_of_queue hqueue] at hold
    exact List.forall_mem_append.mpr
      ⟨hold, List.forall_mem_singleton.mpr (blobLife_le_queueLife now)⟩

/-- In a run from an empty store, no expiry can drop a queue with a blob that is alive exactly if no
write that is accepted comes with a clock so far behind that the queue is gone before one of its
blobs. -/
theorem expire_spares_iff (ops : List StoreOp) :
    (∀ n (now : UInt64) (q : QueueId) (queue : Queue),
      (Run.stateAt Store.step Store.new ops n).queues[q]? = some queue →
        ((Run.stateAt Store.step Store.new ops n).expire now).queues[q]? = none →
        ∀ entry ∈ queue.blobs, entry.2.2.toNat + thirtyDays < now.toNat) ↔
      Run.Steps Store.step Timely Store.new ops := by
  have hnew : Store.new.Covers := fun q queue h => by simp at h
  rw [← Run.forall_stateAt_iff_steps (I := Store.Covers) (fun _ op h => covers_step h op) hnew ops]
  exact forall_congr' fun n => covers_iff_expire.symm

namespace Sample

attribute [local instance] checksum

/-- A blob that is written on the hundredth day. -/
def lateEntry : Entry := (blobId [1], [1], 100 * dayMs)

/-- A blob is written on the hundredth day, and another one after the clock was set back to the
first. -/
def steppedBack : List StoreOp :=
  [.register queueId ⟨.replicate 32 0x11, .replicate 32 0x22⟩ (100 * dayMs),
    .write queueId [1] (100 * dayMs), .write queueId [2] 0]

end Sample

omit [Blake2b] in
/-- An expiry on the sixty-first day drops a queue with the blob of the hundredth. -/
theorem expire_drops_alive :
    let _ := checksum
    ∃ queue, (storeAfter Sample.steppedBack).queues[Sample.queueId]? = some queue ∧
      ((storeAfter Sample.steppedBack).expire (queueLife + 1)).queues[Sample.queueId]? = none ∧
      Sample.lateEntry ∈ queue.blobs ∧
      ¬ Sample.lateEntry.2.2.toNat + thirtyDays < (queueLife + 1).toNat := by
  intro _
  have hmem : Sample.lateEntry ∈ (storeAfter Sample.steppedBack).blobs Sample.queueId := by
    decide +kernel
  have hgone : ((storeAfter Sample.steppedBack).expire (queueLife + 1)).registration
      Sample.queueId = none := by decide +kernel
  obtain ⟨queue, hqueue, hmem⟩ := queue_of_mem hmem
  exact ⟨queue, hqueue, Option.map_eq_none_iff.mp hgone, hmem, by decide⟩

end Onestein.Relay
