import Onestein.Lib.Run
import Onestein.Relay.Store

/-!
# What a queue holds, from its history

A run of store operations is judged from the outside: which writes were accepted, and what
came after them. The queue holds exactly the accepted writes that nothing later removed.

## Main definitions

* `Store.step` — one operation of a run.
* `retained` — the accepted writes to a queue since it last came into existence, less those
  that a later operation removed.
* `returned` — what the reads of a queue returned.

## Main results

* `queueStep` — what one operation does to one queue.
* `blobs_final` — the queue holds what is retained.
* `nothing_lost` — a read returns the oldest write retained, and under a reader that deletes
  only what it read, a blob leaves by expiry or after it was returned.
-/

namespace Onestein.Relay

open Crypto

/-- An operation on a store. -/
inductive StoreOp where
  | register (queueId : QueueId) (registration : Registration) (nowMs : UInt64)
  | write (queueId : QueueId) (blob : Bytes) (nowMs : UInt64)
  | read (queueId : QueueId)
  | delete (queueId : QueueId) (blobId : Digest)
  | expire (nowMs : UInt64)
  deriving DecidableEq

/-- The time an operation is given. -/
def StoreOp.time : StoreOp → Option UInt64
  | .register _ _ nowMs => some nowMs
  | .write _ _ nowMs => some nowMs
  | .expire nowMs => some nowMs
  | _ => none

variable [Blake2b]

/-- One operation of a run, with the blob a read found. -/
def Store.step (store : Store) : StoreOp → Store × Option (Digest × Bytes)
  | .register queueId registration nowMs => (store.register queueId registration nowMs, none)
  | .write queueId blob nowMs => ((store.write queueId blob nowMs).1, none)
  | .read queueId => (store, store.read queueId)
  | .delete queueId blobId => ((store.delete queueId blobId).1, none)
  | .expire nowMs => (store.expire nowMs, none)

/-- The store after a run from the empty one. -/
def storeAfter (ops : List StoreOp) : Store := Run.final Store.step Store.new ops

/-! ## The history of a queue -/

/-- A write: its blob and its time. -/
abbrev Written := Bytes × UInt64

/-- The entry a write puts into its queue. -/
def Written.entry (write : Written) : Entry := (blobId write.1, write.1, write.2)

/-- The write to a queue that an operation makes, if the store accepts it. -/
def accepted (store : Store) (queueId : QueueId) : StoreOp → Option Written
  | .write q blob nowMs =>
    if q = queueId ∧ (store.write q blob nowMs).2 = .ok (blobId blob) then some (blob, nowMs)
    else none
  | _ => none

/-- Thirty days in milliseconds. -/
def thirtyDays : Nat := 30 * 24 * 60 * 60 * 1000

/-- An operation removes a write: a delete names its blob, or an expiry comes more than thirty
days later. -/
def removes (queueId : QueueId) (write : Written) : StoreOp → Bool
  | .delete q id => q = queueId ∧ id = blobId write.1
  | .expire nowMs => write.2.toNat + thirtyDays < nowMs.toNat
  | _ => false

/-- The queue is registered, from a store on, before and after every operation of a run. -/
def standing (queueId : QueueId) : Store → List StoreOp → Bool
  | store, [] => (store.registration queueId).isSome
  | store, op :: ops =>
    (store.registration queueId).isSome && standing queueId (store.step op).1 ops

/-- The writes a run made to a queue, in order: those the store accepted, since the queue last
came into existence, that no later operation removed. -/
def retained (queueId : QueueId) : Store → List StoreOp → List Written
  | _, [] => []
  | store, op :: ops =>
    let later := retained queueId (store.step op).1 ops
    match accepted store queueId op with
    | none => later
    | some write =>
      if standing queueId (store.step op).1 ops ∧ ¬ ops.any (removes queueId write) then
        write :: later
      else later

/-- What the reads of a queue returned, in order. -/
def returned (queueId : QueueId) : Store → List StoreOp → List (Digest × Bytes)
  | _, [] => []
  | store, op :: ops =>
    let later := returned queueId (store.step op).1 ops
    if op = .read queueId then (store.read queueId).toList ++ later else later

/-! ## One step -/

section Step

variable {store : Store} {op : StoreOp} {q : QueueId}

/-- Every entry carries the name of its blob. -/
def Named (store : Store) : Prop := ∀ q, ∀ entry ∈ store.blobs q, entry.1 = blobId entry.2.1

omit [Blake2b] in
theorem blobs_of_not_registered (h : store.registration q = none) : store.blobs q = [] := by
  rw [Store.registration, Option.map_eq_none_iff] at h
  rw [Store.blobs, h]

omit [Blake2b] in
theorem blobs_of_queue {queue : Queue} (h : store.queues[q]? = some queue) :
    store.blobs q = queue.blobs := by
  rw [Store.blobs, h]

omit [Blake2b] in
/-- A blob is dropped by an expiry more than thirty days later. -/
theorem not_isAlive_iff (entry : Entry) (now : UInt64) :
    entry.isAlive now = false ↔ entry.2.2.toNat + thirtyDays < now.toNat := by
  obtain ⟨id, bytes, written⟩ := entry
  have hlife : blobLife.toNat = thirtyDays := by decide
  have hlt := now.toNat_lt
  rw [Entry.isAlive, decide_eq_false_iff_not, UInt64.le_iff_toNat_le, UInt64.toNat_saturatingAdd,
    hlife]
  dsimp only
  omega

/-- What an operation does to one queue, by what the queue is afterwards. -/
inductive QueueStep (store : Store) (q : QueueId) : StoreOp → Option Queue → Prop
  | made {registration : Registration} {now : UInt64} : store.queues[q]? = none →
      QueueStep store q (.register q registration now) (some ⟨registration, [], now⟩)
  | wrote {queue : Queue} {blob : Bytes} {now : UInt64} : store.queues[q]? = some queue →
      accepted store q (.write q blob now) = some (blob, now) →
      QueueStep store q (.write q blob now) (some { queue with
        blobs := queue.blobs ++ [(blobId blob, blob, now)], lastWriteMs := now })
  | deleted {queue : Queue} {id : Digest} : store.queues[q]? = some queue →
      QueueStep store q (.delete q id) (some { queue with
        blobs := queue.blobs.filter fun entry => entry.1 ≠ id })
  | expired {queue : Queue} {now : UInt64} : store.queues[q]? = some queue → queue.isAlive now →
      QueueStep store q (.expire now) (some { queue with
        blobs := queue.blobs.filter (Entry.isAlive now) })
  | dropped {queue : Queue} {now : UInt64} : store.queues[q]? = some queue →
      queue.isAlive now = false → QueueStep store q (.expire now) none
  | kept {op : StoreOp} : accepted store q op = none →
      (∀ entry ∈ store.blobs q, removes q entry.2 op = false) →
      QueueStep store q op store.queues[q]?

/-- Every operation does one of these to every queue. -/
theorem queueStep (store : Store) (op : StoreOp) (q : QueueId) :
    QueueStep store q op (store.step op).1.queues[q]? := by
  cases op with
  | read queueId => exact .kept rfl fun _ _ => rfl
  | register queueId registration now =>
    rw [Store.step, Store.queues_register]
    split
    case isTrue h =>
      obtain ⟨rfl, hnone⟩ := h
      exact .made hnone
    case isFalse => exact .kept rfl fun _ _ => rfl
  | write queueId blob now =>
    obtain ⟨refusal, heq⟩ | ⟨queue, hqueue, -, -, heq⟩ := store.write_cases queueId blob now
    · rw [Store.step, heq]
      exact .kept (by simp [accepted, heq]) fun _ _ => rfl
    · rw [Store.step, heq, Store.queues_insert]
      split
      case isTrue hq =>
        subst hq
        exact .wrote hqueue (by simp [accepted, heq])
      case isFalse hq => exact .kept (by simp [accepted, hq]) fun _ _ => rfl
  | delete queueId id =>
    obtain ⟨hnone, heq⟩ | ⟨queue, hqueue, heq⟩ := store.delete_cases queueId id
    · rw [Store.step, heq]
      refine .kept rfl fun entry hentry => ?_
      by_cases hq : queueId = q
      · subst hq
        simp [Store.blobs, hnone] at hentry
      · simp [removes, hq]
    · rw [Store.step, heq, Store.queues_insert]
      split
      case isTrue hq =>
        subst hq
        exact .deleted hqueue
      case isFalse hq => exact .kept rfl fun _ _ => by simp [removes, hq]
  | expire now =>
    rw [Store.step, Store.queues_expire]
    cases hqueue : store.queues[q]? with
    | none =>
      have hkept : QueueStep store q (.expire now) store.queues[q]? :=
        .kept rfl fun entry hentry => by simp [Store.blobs, hqueue] at hentry
      rwa [hqueue] at hkept
    | some queue =>
      rw [Option.filter_some]
      split
      case isTrue halive => exact .expired hqueue halive
      case isFalse halive => exact .dropped hqueue (Bool.not_eq_true _ ▸ halive)

/-- What one operation does to the blobs of a queue: if the queue is there afterwards, it
holds what it held before and was not removed, and the write the operation made. -/
theorem blobs_step (hnamed : Named store) (op : StoreOp) (q : QueueId) :
    (store.step op).1.blobs q =
      (if ((store.step op).1.registration q).isSome then
        (store.blobs q).filter fun entry => !removes q entry.2 op
      else []) ++ ((accepted store q op).map Written.entry).toList := by
  have hstep := queueStep store op q
  generalize hafter : (store.step op).1.queues[q]? = after at hstep
  rw [Store.blobs, Store.registration, hafter]
  cases hstep with
  | made hnone => simp [Store.blobs, hnone, accepted]
  | wrote hqueue haccepted =>
    simp [Store.blobs, hqueue, haccepted, removes, Written.entry]
  | deleted hqueue =>
    simp only [accepted, Option.map_some, Option.isSome_some, if_true, Option.map_none,
      Option.toList_none, List.append_nil]
    rw [← blobs_of_queue hqueue]
    refine List.filter_congr fun entry hentry => ?_
    simp [removes, hnamed q entry hentry, eq_comm]
  | expired hqueue =>
    simp only [accepted, Option.map_some, Option.isSome_some, if_true, Option.map_none,
      Option.toList_none, List.append_nil]
    rw [← blobs_of_queue hqueue]
    refine List.filter_congr fun entry _ => ?_
    rw [Bool.eq_iff_iff, ← not_iff_not, Bool.not_eq_true, not_isAlive_iff]
    simp [removes]
  | dropped => simp [accepted]
  | kept haccepted hremoves =>
    have hkeep : (store.blobs q).filter (fun entry => !removes q entry.2 op) = store.blobs q :=
      List.filter_eq_self.mpr fun entry h => by simp [hremoves entry h]
    rw [hkeep, haccepted]
    cases hqueue : store.queues[q]? <;> simp [Store.blobs, hqueue]

/-- An entry is there because it was before, or because the operation wrote it. -/
theorem mem_blobs_step {entry : Entry} (h : entry ∈ (store.step op).1.blobs q) :
    entry ∈ store.blobs q ∨ ∃ write, accepted store q op = some write ∧ entry = write.entry := by
  have hstep := queueStep store op q
  generalize hafter : (store.step op).1.queues[q]? = after at hstep
  rw [Store.blobs, hafter] at h
  cases hstep with
  | made => simp at h
  | wrote hqueue haccepted =>
    rcases List.mem_append.mp h with h | h
    · exact .inl (blobs_of_queue hqueue ▸ h)
    · exact .inr ⟨_, haccepted, List.mem_singleton.mp h⟩
  | deleted hqueue => exact .inl (blobs_of_queue hqueue ▸ (List.mem_filter.mp h).1)
  | expired hqueue => exact .inl (blobs_of_queue hqueue ▸ (List.mem_filter.mp h).1)
  | dropped => simp at h
  | kept => exact .inl h

theorem mem_blobs_of_accepted (hnamed : Named store) {write : Written}
    (h : accepted store q op = some write) : write.entry ∈ (store.step op).1.blobs q := by
  rw [blobs_step hnamed op q, h]
  exact List.mem_append_right _ (by simp)

theorem named_step (hnamed : Named store) (op : StoreOp) : Named (store.step op).1 := by
  intro q entry h
  obtain h | ⟨write, -, rfl⟩ := mem_blobs_step h
  · exact hnamed q entry h
  · rfl

end Step

omit [Blake2b] in
@[simp] theorem blobs_new (q : QueueId) : Store.new.blobs q = [] := by
  simp [Store.blobs]

theorem named_new : Named Store.new := fun q entry h => by simp at h

/-! ## Runs -/

section Runs

variable {store : Store} {q : QueueId}

theorem registration_isSome_of_standing {ops : List StoreOp} (h : standing q store ops) :
    (store.registration q).isSome := by
  cases ops with
  | nil => exact h
  | cons op ops => exact (Bool.and_eq_true_iff.mp h).1

/-- A queue holds what it held at the start and was not removed, as long as it stayed, and
then what the run wrote and did not remove. -/
theorem blobs_final (hnamed : Named store) (ops : List StoreOp) (q : QueueId) :
    (Run.final Store.step store ops).blobs q =
      (if standing q store ops then
        (store.blobs q).filter fun entry => !ops.any (removes q entry.2)
      else []) ++ (retained q store ops).map Written.entry := by
  induction ops generalizing store with
  | nil =>
    cases hq : store.registration q with
    | none => simp [standing, retained, hq, blobs_of_not_registered hq]
    | some registration => simp [standing, retained, hq]
  | cons op ops ih =>
    rw [Run.final_cons, ih (named_step hnamed op), blobs_step hnamed op q]
    by_cases hstand : standing q (store.step op).1 ops
    · have hreg := registration_isSome_of_standing hstand
      -- what was there before the run and is not removed by its first operation or later
      have hold : ((store.blobs q).filter fun entry => !removes q entry.2 op).filter
            (fun entry => !ops.any (removes q entry.2)) =
          if standing q store (op :: ops) then
            (store.blobs q).filter fun entry => !(op :: ops).any (removes q entry.2)
          else [] := by
        cases hq : store.registration q with
        | none => simp [blobs_of_not_registered hq]
        | some registration =>
          simp only [standing, hq, hstand, Option.isSome_some, Bool.and_self, if_true,
            List.filter_filter, List.any_cons, Bool.not_or]
          exact List.filter_congr fun entry _ => Bool.and_comm _ _
      rw [if_pos hstand, if_pos hreg, List.filter_append, hold, List.append_assoc]
      congr 1
      cases haccepted : accepted store q op with
      | none => simp [retained, haccepted]
      | some write =>
        by_cases hremoved : ops.any (removes q write)
        · simp [retained, haccepted, hstand, hremoved, Written.entry]
        · simp [retained, haccepted, hstand, hremoved, Written.entry]
    · have hretained : retained q store (op :: ops) = retained q (store.step op).1 ops := by
        simp only [retained]
        split <;> simp [hstand]
      simp [hstand, standing, hretained]

omit [Blake2b] in
theorem read_eq_head_blobs (store : Store) (q : QueueId) :
    store.read q = (store.blobs q).head?.map fun entry => (entry.1, entry.2.1) := by
  rw [Store.read, Store.blobs]
  cases store.queues[q]? <;> rfl

/-- A read returns the oldest write retained. -/
theorem read_eq_head_retained (ops : List StoreOp) (q : QueueId) :
    (storeAfter ops).read q =
      (retained q Store.new ops).head?.map fun (blob, _) => (blobId blob, blob) := by
  have hblobs := blobs_final named_new ops q
  rw [blobs_new, List.filter_nil, ite_self, List.nil_append] at hblobs
  rw [read_eq_head_blobs, storeAfter, hblobs, List.head?_map, Option.map_map]
  rfl

/-! ## Leaving a queue -/

/-- The last write to a queue is not older than a time. -/
def WrittenSince (store : Store) (q : QueueId) (time : UInt64) : Prop :=
  ∀ queue, store.queues[q]? = some queue → time ≤ queue.lastWriteMs

/-- A queue stays, with the time of its last write or that of the operation, or it goes by an
expiry that it does not outlive. -/
theorem queue_step (op : StoreOp) {queue : Queue} (hqueue : store.queues[q]? = some queue) :
    (∃ next, (store.step op).1.queues[q]? = some next ∧
      (next.lastWriteMs = queue.lastWriteMs ∨ op.time = some next.lastWriteMs)) ∨
    ∃ now, op = .expire now ∧ queue.isAlive now = false := by
  have hstep := queueStep store op q
  generalize (store.step op).1.queues[q]? = after at hstep
  cases hstep with
  | made hnone => simp [hnone] at hqueue
  | wrote => exact .inl ⟨_, rfl, .inr rfl⟩
  | deleted hold =>
    obtain rfl := Option.some.inj (hold.symm.trans hqueue)
    exact .inl ⟨_, rfl, .inl rfl⟩
  | expired hold =>
    obtain rfl := Option.some.inj (hold.symm.trans hqueue)
    exact .inl ⟨_, rfl, .inl rfl⟩
  | dropped hold halive =>
    obtain rfl := Option.some.inj (hold.symm.trans hqueue)
    exact .inr ⟨_, rfl, halive⟩
  | kept => exact .inl ⟨queue, hqueue, .inl rfl⟩

omit [Blake2b] in
theorem exists_queue_of_mem {entry : Entry} (hmem : entry ∈ store.blobs q) :
    ∃ queue, store.queues[q]? = some queue := by
  cases hqueue : store.queues[q]? with
  | none => simp [Store.blobs, hqueue] at hmem
  | some queue => exact ⟨queue, rfl⟩

/-- A blob that an operation does not remove stays: a queue only goes when its last write,
and so the blob, is more than thirty days old. -/
theorem mem_blobs_of_not_removes (hnamed : Named store) {op : StoreOp} {write : Written}
    (hmem : write.entry ∈ store.blobs q) (hsince : WrittenSince store q write.2)
    (hremoves : removes q write op = false) : write.entry ∈ (store.step op).1.blobs q := by
  obtain ⟨queue, hqueue⟩ := exists_queue_of_mem hmem
  obtain ⟨next, hnext, -⟩ | ⟨now, rfl, halive⟩ := queue_step op hqueue
  · have hreg : ((store.step op).1.registration q).isSome := by
      simp [Store.registration, hnext]
    rw [blobs_step hnamed op q, if_pos hreg]
    refine List.mem_append_left _ (List.mem_filter.mpr ⟨hmem, ?_⟩)
    simp [Written.entry, hremoves]
  · have hlast := hsince queue hqueue
    have hlife : queueLife.toNat = 2 * thirtyDays := by decide
    have hlt := now.toNat_lt
    rw [UInt64.le_iff_toNat_le] at hlast
    simp only [removes, decide_eq_false_iff_not] at hremoves
    rw [Queue.isAlive, decide_eq_false_iff_not, UInt64.le_iff_toNat_le,
      UInt64.toNat_saturatingAdd, hlife] at halive
    omega

theorem writtenSince_step {op : StoreOp} {time : UInt64} (hsince : WrittenSince store q time)
    (hreg : ∃ queue, store.queues[q]? = some queue) (htime : ∀ now ∈ op.time, time ≤ now) :
    WrittenSince (store.step op).1 q time := by
  intro next hnext
  obtain ⟨queue, hqueue⟩ := hreg
  obtain ⟨next', hnext', hlast⟩ | ⟨now, rfl, halive⟩ := queue_step op hqueue
  · obtain rfl : next = next' := Option.some.inj (hnext.symm.trans hnext')
    rcases hlast with hlast | hlast
    · rw [hlast]
      exact hsince queue hqueue
    · exact htime _ hlast
  · simp [Store.step, Store.queues_expire, hqueue, Option.filter_some, halive] at hnext

theorem writtenSince_of_accepted {op : StoreOp} {write : Written}
    (h : accepted store q op = some write) : WrittenSince (store.step op).1 q write.2 := by
  intro next hnext
  have hstep := queueStep store op q
  generalize (store.step op).1.queues[q]? = after at hstep hnext
  cases hstep with
  | wrote _ haccepted =>
    obtain rfl := Option.some.inj (haccepted.symm.trans h)
    obtain rfl := Option.some.inj hnext
    exact UInt64.le_refl _
  | made | deleted | expired | dropped => simp [accepted] at h
  | kept hnone => simp [hnone] at h

/-- A blob stays in its queue until an operation removes it. -/
theorem mem_blobs_final (hnamed : Named store) {ops : List StoreOp} {write : Written}
    (hmem : write.entry ∈ store.blobs q) (hsince : WrittenSince store q write.2)
    (htime : ∀ now ∈ ops.filterMap StoreOp.time, write.2 ≤ now)
    (hremoves : ¬ ops.any (removes q write)) :
    write.entry ∈ (Run.final Store.step store ops).blobs q := by
  induction ops generalizing store with
  | nil => exact hmem
  | cons op ops ih =>
    rw [List.any_cons, Bool.or_eq_true, not_or, Bool.not_eq_true] at hremoves
    have htime_op : ∀ now ∈ op.time, write.2 ≤ now := by
      intro now hnow
      exact htime now (List.mem_filterMap.mpr ⟨op, by simp, hnow⟩)
    have htime_ops : ∀ now ∈ ops.filterMap StoreOp.time, write.2 ≤ now := by
      intro now hnow
      obtain ⟨op', hop', hnow⟩ := List.mem_filterMap.mp hnow
      exact htime now (List.mem_filterMap.mpr ⟨op', by simp [hop'], hnow⟩)
    exact ih (named_step hnamed op) (mem_blobs_of_not_removes hnamed hmem hsince hremoves.1)
      (writtenSince_step hsince (exists_queue_of_mem hmem) htime_op) htime_ops hremoves.2

theorem eq_write_of_accepted {op : StoreOp} {write : Written}
    (h : accepted store q op = some write) : op = .write q write.1 write.2 := by
  cases op with
  | write queueId blob now =>
    simp only [accepted] at h
    split at h
    case isTrue hq =>
      obtain rfl := Option.some.inj h
      rw [hq.1]
    case isFalse => simp at h
  | register | read | delete | expire => simp [accepted] at h

theorem returned_append (ops ops' : List StoreOp) :
    returned q store (ops ++ ops') =
      returned q store ops ++ returned q (Run.final Store.step store ops) ops' := by
  induction ops generalizing store with
  | nil => rfl
  | cons op ops ih =>
    simp only [List.cons_append, returned, Run.final_cons, ih]
    split <;> simp

/-- What a read returned carries its name, and was held at the start or written. -/
theorem of_mem_returned (hnamed : Named store) {ops : List StoreOp} {id : Digest} {blob : Bytes}
    (h : (id, blob) ∈ returned q store ops) : id = blobId blob ∧
      ((∃ entry ∈ store.blobs q, entry.2.1 = blob) ∨ ∃ now, .write q blob now ∈ ops) := by
  induction ops generalizing store with
  | nil => simp [returned] at h
  | cons op ops ih =>
    have hlater (h : (id, blob) ∈ returned q (store.step op).1 ops) : id = blobId blob ∧
        ((∃ entry ∈ store.blobs q, entry.2.1 = blob) ∨ ∃ now, .write q blob now ∈ op :: ops) := by
      obtain ⟨hid, ⟨entry, hentry, rfl⟩ | ⟨now, hnow⟩⟩ := ih (named_step hnamed op) h
      · refine ⟨hid, ?_⟩
        obtain hold | ⟨write, haccepted, rfl⟩ := mem_blobs_step hentry
        · exact .inl ⟨entry, hold, rfl⟩
        · exact .inr ⟨write.2, by simp [eq_write_of_accepted haccepted, Written.entry]⟩
      · exact ⟨hid, .inr ⟨now, by simp [hnow]⟩⟩
    simp only [returned] at h
    split at h
    case isFalse => exact hlater h
    case isTrue =>
      rcases List.mem_append.mp h with hread | h
      · rw [read_eq_head_blobs, Option.mem_toList, Option.map_eq_some_iff] at hread
        obtain ⟨entry, hhead, heq⟩ := hread
        have hmem := List.mem_of_mem_head? hhead
        obtain ⟨rfl, rfl⟩ := Prod.mk.inj heq
        exact ⟨hnamed q entry hmem, .inl ⟨entry, hmem, rfl⟩⟩
      · exact hlater h

end Runs

/-- A queue loses nothing and keeps the order of writes. A read returns the oldest of the
accepted writes, since the queue came into existence, that no delete has named and no expiry
covered; and if a queue is deleted from only by names read from it before, a blob leaves it
only after an expiry covered it or its bytes were returned. The runs are closed under
prefixes, so this is about every moment of a run. -/
theorem nothing_lost (ops : List StoreOp)
    (hmono : (ops.filterMap StoreOp.time).Pairwise (· ≤ ·))
    (hinj : Set.InjOn blobId {blob | ∃ q now, .write q blob now ∈ ops}) :
    (∀ q, (storeAfter ops).read q =
      (retained q Store.new ops).head?.map fun (blob, _) => (blobId blob, blob)) ∧
    ∀ q, (∀ before id after, ops = before ++ .delete q id :: after →
        ∃ blob, (id, blob) ∈ returned q Store.new before) →
      ∀ before blob now after, ops = before ++ .write q blob now :: after →
        ((storeAfter before).write q blob now).2 = .ok (blobId blob) →
        (blobId blob, blob, now) ∉ (storeAfter ops).blobs q →
        (∃ later, .expire later ∈ after ∧ now.toNat + thirtyDays < later.toNat) ∨
          (blobId blob, blob) ∈ returned q Store.new ops := by
  refine ⟨read_eq_head_retained ops, ?_⟩
  rintro q hreader before blob now after rfl haccepted hleft
  by_cases hremoved : after.any (removes q (blob, now))
  · obtain ⟨op, hop, hremoves⟩ := List.any_eq_true.mp hremoved
    cases op with
    | expire later => exact .inl ⟨later, hop, by simpa [removes] using hremoves⟩
    | delete queueId id =>
      obtain ⟨rfl, rfl⟩ : queueId = q ∧ id = blobId blob := by simpa [removes] using hremoves
      obtain ⟨middle, rest, rfl⟩ := List.append_of_mem hop
      have hsplit : before ++ .write queueId blob now ::
            (middle ++ .delete queueId (blobId blob) :: rest) =
          (before ++ .write queueId blob now :: middle) ++
            .delete queueId (blobId blob) :: rest := by simp
      obtain ⟨other, hother⟩ := hreader _ _ _ hsplit
      -- the blob the reader saw under this name is the one that left
      obtain ⟨hid, hheld | ⟨time, htime⟩⟩ := of_mem_returned named_new hother
      · simp at hheld
      · have hsame : blob = other := by
          refine hinj ⟨queueId, now, by simp⟩ ⟨queueId, time, ?_⟩ hid
          rw [hsplit]
          exact List.mem_append_left _ htime
        subst hsame
        right
        rw [hsplit, returned_append]
        exact List.mem_append_left _ hother
    | register | write | read => simp [removes] at hremoves
  · exfalso
    apply hleft
    have hnamed : Named (storeAfter before) :=
      Run.invariant (I := Named) (fun _ op h => named_step h op) named_new before
    have hwrite : accepted (storeAfter before) q (.write q blob now) = some (blob, now) := by
      simp [accepted, haccepted]
    have hmem := mem_blobs_of_accepted hnamed hwrite
    have hsince := writtenSince_of_accepted hwrite
    have htime : ∀ later ∈ after.filterMap StoreOp.time, now ≤ later := by
      rw [List.filterMap_append, List.filterMap_cons, List.pairwise_append] at hmono
      exact (List.pairwise_cons.mp hmono.2.1).1
    have hfinal := mem_blobs_final (named_step hnamed _) hmem hsince htime hremoved
    rwa [storeAfter, Run.final_append]

omit [Blake2b] in
/-- A reader collects the first of two blobs and finds the second. -/
theorem nothing_lost_two_writes :
    let _ := checksum
    let q : QueueId := Octets.be 32 1
    let ops : List StoreOp := [.register q ⟨Octets.be 32 2, Octets.be 32 3⟩ 0, .write q [1] 5,
      .write q [2] 6, .read q, .delete q (blobId [1]), .read q]
    (storeAfter ops).read q = some (blobId [2], [2]) ∧
      (blobId [1], [1]) ∈ returned q Store.new ops := by
  intro _ q ops
  have hwritten {blob : Bytes} (h : ∃ queueId now, StoreOp.write queueId blob now ∈ ops) :
      blob = [1] ∨ blob = [2] := by
    obtain ⟨queueId, now, h⟩ := h
    simp only [ops, List.mem_cons, reduceCtorEq, StoreOp.write.injEq, List.not_mem_nil,
      or_false, false_or] at h
    tauto
  have hne : blobId [1] ≠ blobId [2] := by decide +kernel
  have hinj : Set.InjOn blobId {blob | ∃ queueId now, StoreOp.write queueId blob now ∈ ops} := by
    intro a ha b hb hab
    rcases hwritten ha with rfl | rfl <;> rcases hwritten hb with rfl | rfl
    · rfl
    · exact absurd hab hne
    · exact absurd hab.symm hne
    · rfl
  obtain ⟨hread, hleft⟩ := nothing_lost ops (by decide) hinj
  constructor
  · rw [hread q]
    decide +kernel
  · have hgone : (blobId [1], [1], 5) ∉ (storeAfter ops).blobs q := by decide +kernel
    have hreader : ∀ before id after, ops = before ++ .delete q id :: after →
        ∃ blob, (id, blob) ∈ returned q Store.new before := by
      intro before id after h
      have hop : ops[before.length]? = some (.delete q id) := by simp [h]
      have hbefore : ops.take before.length = before := by simp [h]
      have hlen : before.length < 6 := (List.getElem?_eq_some_iff.mp hop).1
      rw [← hbefore]
      generalize before.length = n at *
      interval_cases n <;> simp only [ops, List.getElem?_cons_zero, List.getElem?_cons_succ,
        Option.some.injEq, reduceCtorEq, StoreOp.delete.injEq, true_and] at hop
      subst hop
      exact ⟨[1], by decide +kernel⟩
    rcases hleft q hreader [ops[0]] [1] 5 _ rfl (by decide +kernel) hgone with
      ⟨later, hlater, -⟩ | h
    · simp at hlater
    · exact h

end Onestein.Relay
