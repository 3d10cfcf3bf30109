import Onestein.Relay.Crossing
import Onestein.Relay.Idle
import Onestein.Relay.Interference
import Onestein.Relay.Limits

/-!
# Collecting what is in a queue

A recipient visits the relay: it reads the oldest blob of its queue and then deletes it by name,
each with a proof over a challenge it has asked for. In between anybody else may do anything that
does not take the key of the recipient. Nothing leaves the queue that was not handed out to the
recipient, and when its challenges are left alone, it gets each blob once and in order.

## Main definitions

* `State.operate` — asks for a challenge and spends it.
* `State.collect` — a visit: a read, and a delete of what was read.
* `Stands` — that a queue holds blobs until some time.
* `distinct` — blobs by the names they are deleted by.

## Main results

* `Stands.step`, `Stands.final` — others can only add to a queue.
* `Stands.collect` — what a visit takes out of it.
* `collected` — what all visits of a recipient hand out.
-/

namespace Onestein.Relay

open Crypto

attribute [local instance] lexOrd

/-- What is around an operation: what others do before the recipient asks for a challenge and
between this and the operation, the times of both, and what the relay draws at them. -/
structure Occasion where
  before : List Event
  between : List Event
  askedMs : UInt64
  nowMs : UInt64
  drawn : Octets 32
  drawnAfter : Octets 32

/-- What is around the read and the delete of a visit. -/
structure Visit where
  read : Occasion
  delete : Occasion

section Visits

variable [Ed25519] [Blake2b]

/-- Asks for a challenge for the right to read and sends a request with a proof over it. -/
def State.operate (relay : State) (keys : QueueKeys) (queueId : QueueId)
    (request : Proof → Request) (occasion : Occasion) : State × Option Response :=
  let relay := Run.final State.step relay occasion.before
  let (relay, asked) := handle relay.store relay.challenges (.challengeRequest queueId .read)
    occasion.askedMs occasion.drawn
  let relay := Run.final State.step relay occasion.between
  match asked with
  | .challenge challenge =>
    match keys.prove .read challenge.toList with
    | .ok proof =>
      let (relay, response) := handle relay.store relay.challenges (request proof) occasion.nowMs
        occasion.drawnAfter
      (relay, some response)
    | .error _ => (relay, none)
  | _ => (relay, none)

/-- A visit: the recipient reads the oldest blob and deletes it by name, if there is one. -/
def State.collect (keys : QueueKeys) (queueId : QueueId) (relay : State) (visit : Visit) :
    State × Option (Digest × Bytes) :=
  match relay.operate keys queueId (.read queueId ·) visit.read with
  | (relay, some (.blob id blob)) =>
    ((relay.operate keys queueId (.delete queueId · id) visit.delete).1, some (id, blob))
  | (relay, _) => (relay, none)

/-! ## What others do -/

omit [Blake2b] in
/-- An event that does not take the key of the recipient: no delete from the queue with a proof that
is good for a challenge that is outstanding then. It is not so early that what it writes is gone at
the time, nor an expiry that is later than this. -/
def Event.Foreign (keys : QueueKeys) (queueId : QueueId) (time : UInt64) (relay : State) :
    Event → Prop
  | .handle request nowMs _ => time ≤ nowMs.saturatingAdd blobLife ∧
      ∀ proof id, request = .delete queueId proof id →
        ∀ challenge, relay.challenges[(queueId, rightByte .read)]? = some challenge →
          keys.registration.check .read challenge.toList proof ≠ .ok ()
  | .expire nowMs => nowMs ≤ time

/-- The relay when the recipient has asked for its challenge. -/
def State.asked (relay : State) (queueId : QueueId) (occasion : Occasion) : State :=
  let relay := Run.final State.step relay occasion.before
  (handle relay.store relay.challenges (.challengeRequest queueId .read) occasion.askedMs
    occasion.drawn).1

/-- All that others do around an operation is foreign. -/
def Occasion.Foreign (keys : QueueKeys) (queueId : QueueId) (time : UInt64) (relay : State)
    (occasion : Occasion) : Prop :=
  Run.Steps State.step (Event.Foreign keys queueId time) relay occasion.before ∧
    Run.Steps State.step (Event.Foreign keys queueId time) (relay.asked queueId occasion)
      occasion.between

omit [Ed25519] [Blake2b] in
/-- Nobody else asks for or spends a challenge while the recipient waits to use its own. -/
def Occasion.Undisturbed (queueId : QueueId) (occasion : Occasion) : Prop :=
  ∀ event ∈ occasion.between, ¬ event.Concerns queueId .read

/-- All that others do around a visit is foreign. -/
def Visit.Foreign (keys : QueueKeys) (queueId : QueueId) (time : UInt64) (relay : State)
    (visit : Visit) : Prop :=
  visit.read.Foreign keys queueId time relay ∧
    visit.delete.Foreign keys queueId time
      (relay.operate keys queueId (.read queueId ·) visit.read).1

/-- Both challenges of a visit are left alone. -/
def Visit.Undisturbed (queueId : QueueId) (visit : Visit) : Prop :=
  visit.read.Undisturbed queueId ∧ visit.delete.Undisturbed queueId

/-- A queue of the recipient holds blobs, and it and they last until the time. -/
structure Stands (keys : QueueKeys) (queueId : QueueId) (time : UInt64) (relay : State)
    (blobs : List Entry) : Prop where
  queue : ∃ lastWriteMs, relay.store.queues[queueId]? =
    some ⟨keys.registration, blobs, lastWriteMs⟩ ∧ time ≤ lastWriteMs.saturatingAdd queueLife
  alive : ∀ entry ∈ blobs, entry.isAlive time

/-- What an entry is answered to a read with. -/
def Entry.content (entry : Entry) : Digest × Bytes := (entry.1, entry.2.1)

section Standing

variable {keys : QueueKeys} {q : QueueId} {time now : UInt64} {relay relay' : State}
  {blobs : List Entry} {event : Event} {proof : Proof} {id : Digest} {fresh : Octets 32}

/-- With a good proof for the challenge that is outstanding an operation is performed. -/
theorem handle_of_authorised {store : Store} {challenges : Challenges} {request : Request}
    {right : Right} (hoperation : request.operation = some (q, right, proof))
    (hauth : Authorised store challenges q right proof) :
    handle store challenges request now fresh = (⟨(perform store request now).1,
      challenges.erase (q, rightByte right)⟩, (perform store request now).2) := by
  obtain ⟨registration, challenge, hregistration, hchallenge, hcheck⟩ := hauth
  rw [handle_operation hoperation, spend_of_check hregistration hchallenge hcheck]

namespace Stands

omit [Blake2b] in
theorem of_queues_eq (h : Stands keys q time relay blobs)
    (hsame : relay'.store.queues[q]? = relay.store.queues[q]?) :
    Stands keys q time relay' blobs :=
  ⟨hsame ▸ h.queue, h.alive⟩

omit [Blake2b] in
theorem registration (h : Stands keys q time relay blobs) :
    relay.store.registration q = some keys.registration := by
  obtain ⟨_, hqueue, -⟩ := h.queue
  simp [Store.registration, hqueue]

omit [Blake2b] in
theorem blobs_eq (h : Stands keys q time relay blobs) : relay.store.blobs q = blobs := by
  obtain ⟨_, hqueue, -⟩ := h.queue
  exact blobs_of_queue hqueue

/-- An expiry that does not come later takes nothing. -/
theorem expire (h : Stands keys q time relay blobs) (hnow : now ≤ time) :
    Stands keys q time (relay.step (.expire now)).1 blobs := by
  obtain ⟨lastWriteMs, hqueue, hlast⟩ := h.queue
  refine h.of_queues_eq ?_
  have halive : (Queue.mk keys.registration blobs lastWriteMs).isAlive now :=
    Queue.isAlive_of_le hnow (by simpa [Queue.isAlive] using hlast)
  have hkept : blobs.filter (Entry.isAlive now) = blobs :=
    List.filter_eq_self.mpr fun entry hentry => Entry.isAlive_of_le hnow (h.alive entry hentry)
  rw [State.step, Store.queues_expire, hqueue, Option.filter_some, if_pos halive, Option.map_some,
    hkept]

/-- A write adds its blob, or is refused and adds none. -/
theorem write (h : Stands keys q time relay blobs) (blob : Bytes) (challenges : Challenges)
    (hnow : time ≤ now.saturatingAdd blobLife) :
    ∃ added, Stands keys q time ⟨(relay.store.write q blob now).1, challenges⟩
      (blobs ++ added) := by
  obtain ⟨refusal, heq⟩ | ⟨queue, hqueue, -, -, heq⟩ := relay.store.write_cases q blob now
  · rw [heq]
    refine ⟨[], ?_⟩
    rw [List.append_nil]
    exact h.of_queues_eq rfl
  · obtain ⟨lastWriteMs, hstands, -⟩ := h.queue
    obtain rfl := Option.some.inj (hqueue.symm.trans hstands)
    rw [heq]
    refine ⟨[(blobId blob, blob, now)], ⟨now, Store.queues_insert.trans (if_pos rfl), ?_⟩, ?_⟩
    · exact UInt64.le_trans hnow (blobLife_le_queueLife now)
    · exact List.forall_mem_append.mpr
        ⟨h.alive, List.forall_mem_singleton.mpr (by simpa [Entry.isAlive] using hnow)⟩

omit [Blake2b] in
/-- A delete takes out what has the name. -/
theorem delete (h : Stands keys q time relay blobs) (id : Digest) (challenges : Challenges) :
    Stands keys q time ⟨(relay.store.delete q id).1, challenges⟩
      (blobs.filter fun entry => entry.1 ≠ id) := by
  obtain ⟨lastWriteMs, hqueue, hlast⟩ := h.queue
  refine ⟨⟨lastWriteMs, ?_, hlast⟩, fun entry hentry => h.alive entry (List.mem_filter.mp hentry).1⟩
  obtain ⟨hnone, -⟩ | ⟨queue, hsome, heq⟩ := relay.store.delete_cases q id
  · simp [hqueue] at hnone
  · obtain rfl := Option.some.inj (hsome.symm.trans hqueue)
    rw [heq]
    exact Store.queues_insert.trans (if_pos rfl)

/-- Others can only add to the queue. -/
theorem step (h : Stands keys q time relay blobs) (hforeign : event.Foreign keys q time relay) :
    ∃ added, Stands keys q time (relay.step event).1 (blobs ++ added) := by
  have hsame (hqueues : (relay.step event).1.store.queues[q]? = relay.store.queues[q]?) :
      ∃ added, Stands keys q time (relay.step event).1 (blobs ++ added) :=
    ⟨[], by simpa using h.of_queues_eq hqueues⟩
  cases event with
  | expire now => exact ⟨[], by simpa using h.expire hforeign⟩
  | handle request now fresh =>
    by_cases hq : q = request.queueId
    · subst hq
      cases hop : request.operation with
      | none =>
        refine hsame ?_
        obtain ⟨registration, heq⟩ | heq | ⟨right, -, -, heq⟩ :=
          handle_other relay.store relay.challenges now fresh hop
        · obtain ⟨_, hqueue, -⟩ := h.queue
          rw [State.step, heq, Store.queues_register, if_neg (by simp [hqueue])]
        · rw [State.step, heq]
        · rw [State.step, heq]
      | some operation =>
        obtain ⟨queueId, right, proof⟩ := operation
        obtain ⟨refusal, -, heq⟩ | ⟨-, -, heq⟩ | ⟨hauth, heq⟩ :=
          handle_operation_cases relay.store relay.challenges now fresh hop
        · exact hsame (by rw [State.step, heq])
        · exact hsame (by rw [State.step, heq])
        · cases request with
          | register | challengeRequest => cases hop
          | write queueId' proof' blob =>
            obtain ⟨added, hadded⟩ := h.write blob ∅ hforeign.1
            refine ⟨added, hadded.of_queues_eq ?_⟩
            rw [State.step, heq, perform_write]
            rfl
          | read queueId' proof' => exact hsame (by rw [State.step, heq, perform_read])
          | delete queueId' proof' id =>
            obtain ⟨rfl, rfl, rfl⟩ : queueId' = queueId ∧ Right.read = right ∧ proof' = proof := by
              simpa [Request.operation] using hop
            obtain ⟨registration, challenge, hregistration, hchallenge, hcheck⟩ := hauth
            obtain rfl := Option.some.inj (h.registration.symm.trans hregistration)
            exact absurd hcheck (hforeign.2 proof' id rfl challenge hchallenge)
    · exact hsame ((framed_handle relay.store relay.challenges request now fresh).queues q hq)

theorem final (h : Stands keys q time relay blobs) {events : List Event}
    (hforeign : Run.Steps State.step (Event.Foreign keys q time) relay events) :
    ∃ added, Stands keys q time (Run.final State.step relay events) (blobs ++ added) := by
  induction events generalizing relay blobs with
  | nil => exact ⟨[], by simpa using h⟩
  | cons event events ih =>
    obtain ⟨added, hadded⟩ := h.step hforeign.1
    obtain ⟨later, hlater⟩ := ih hadded hforeign.2
    exact ⟨added ++ later, by simpa using hlater⟩

/-- While others leave the challenge for reading alone, it stays. -/
theorem challenge_final (h : Stands keys q time relay blobs) {events : List Event}
    (hforeign : Run.Steps State.step (Event.Foreign keys q time) relay events)
    (hquiet : ∀ event ∈ events, ¬ event.Concerns q .read) :
    (Run.final State.step relay events).challenges[(q, rightByte .read)]? =
      relay.challenges[(q, rightByte .read)]? := by
  induction events generalizing relay blobs with
  | nil => rfl
  | cons event events ih =>
    obtain ⟨added, hadded⟩ := h.step hforeign.1
    have hrest := ih hadded hforeign.2 fun event hevent =>
      hquiet event (List.mem_cons_of_mem _ hevent)
    rw [Run.final_cons, hrest, slot_step (by simp [h.registration]),
      if_neg (hquiet event List.mem_cons_self)]

/-! ## What a visit does -/

/-- An operation comes with a proof that is good for the challenge that was drawn. When it comes,
the queue holds what it held and what was added, and the challenge is outstanding if it was left
alone. -/
theorem operate (h : Stands keys q time relay blobs)
    (hwrite : ∀ message, Ed25519.Verifies keys.write message)
    (hread : ∀ message, Ed25519.Verifies keys.read message) {occasion : Occasion}
    (hforeign : occasion.Foreign keys q time relay) (request : Proof → Request) :
    ∃ added ready proof, Stands keys q time ready (blobs ++ added) ∧
      (occasion.Undisturbed q → Authorised ready.store ready.challenges q .read proof) ∧
      relay.operate keys q request occasion =
        ((handle ready.store ready.challenges (request proof) occasion.nowMs
            occasion.drawnAfter).1,
          some (handle ready.store ready.challenges (request proof) occasion.nowMs
            occasion.drawnAfter).2) := by
  obtain ⟨added, hadded⟩ := h.final hforeign.1
  have hasked_eq : relay.asked q occasion =
      ⟨(Run.final State.step relay occasion.before).store,
        (Run.final State.step relay occasion.before).challenges.insert (q, rightByte .read)
          occasion.drawn⟩ := by
    rw [State.asked, handle_challengeRequest hadded.registration]
  have hasked : Stands keys q time (relay.asked q occasion) (blobs ++ added) :=
    hadded.of_queues_eq (by rw [hasked_eq])
  obtain ⟨later, hlater⟩ := hasked.final hforeign.2
  obtain ⟨proof, hproof⟩ := keys.exists_prove .read occasion.drawn
  refine ⟨added ++ later, Run.final State.step (relay.asked q occasion) occasion.between, proof,
    by simpa using hlater, fun hquiet => ?_, ?_⟩
  · refine ⟨keys.registration, occasion.drawn, hlater.registration, ?_,
      QueueKeys.check_prove hwrite hread hproof⟩
    rw [hasked.challenge_final hforeign.2 hquiet, hasked_eq]
    exact challenges_insert.trans (if_pos rfl)
  · rw [State.operate, handle_challengeRequest hadded.registration, hasked_eq]
    simp only [hproof]

/-- A read takes nothing out of the queue. What it hands out is the oldest blob, and with a good
proof it hands it out. -/
theorem handle_read (h : Stands keys q time relay blobs) (proof : Proof) (now : UInt64)
    (fresh : Octets 32) :
    Stands keys q time (handle relay.store relay.challenges (.read q proof) now fresh).1 blobs ∧
    (∀ id blob, (handle relay.store relay.challenges (.read q proof) now fresh).2 = .blob id blob →
      blobs.head?.map Entry.content = some (id, blob)) ∧
    (Authorised relay.store relay.challenges q .read proof →
      (handle relay.store relay.challenges (.read q proof) now fresh).2 =
        .ofRead (blobs.head?.map Entry.content)) := by
  obtain ⟨_, hqueue, -⟩ := h.queue
  have hoperation : (Request.read q proof).operation = some (q, .read, proof) := rfl
  have hperform : perform relay.store (.read q proof) now =
      (relay.store, .ofRead (blobs.head?.map Entry.content)) := by
    rw [perform_read, Store.read, hqueue]
    rfl
  by_cases hauth : Authorised relay.store relay.challenges q .read proof
  · rw [handle_of_authorised hoperation hauth, hperform]
    refine ⟨h.of_queues_eq rfl, fun id blob hblob => ?_, fun _ => rfl⟩
    rcases hhead : blobs.head?.map Entry.content with _ | ⟨id', blob'⟩ <;>
      simp_all [Response.ofRead]
  · obtain ⟨refusal, -, heq⟩ | ⟨-, -, heq⟩ | ⟨hauth', -⟩ :=
      handle_operation_cases relay.store relay.challenges now fresh hoperation
    · rw [heq]
      exact ⟨h.of_queues_eq rfl, by simp, (absurd · hauth)⟩
    · rw [heq]
      exact ⟨h.of_queues_eq rfl, by simp, (absurd · hauth)⟩
    · exact absurd hauth' hauth

/-- A delete takes out what has the name, or nothing; with a good proof it does take it out. -/
theorem handle_delete (h : Stands keys q time relay blobs) (proof : Proof) (id : Digest)
    (now : UInt64) (fresh : Octets 32) :
    ∃ kept, Stands keys q time
        (handle relay.store relay.challenges (.delete q proof id) now fresh).1 kept ∧
      (∀ entry ∈ blobs, entry ∈ kept ∨ entry.1 = id) ∧
      (Authorised relay.store relay.challenges q .read proof →
        kept = blobs.filter fun entry => entry.1 ≠ id) := by
  have hoperation : (Request.delete q proof id).operation = some (q, .read, proof) := rfl
  by_cases hauth : Authorised relay.store relay.challenges q .read proof
  · rw [handle_of_authorised hoperation hauth, perform_delete]
    refine ⟨_, h.delete id _, fun entry hentry => ?_, fun _ => rfl⟩
    by_cases hid : entry.1 = id
    · exact .inr hid
    · exact .inl (List.mem_filter.mpr ⟨hentry, by simpa using hid⟩)
  · refine ⟨blobs, h.of_queues_eq ?_, fun _ hentry => .inl hentry, (absurd · hauth)⟩
    obtain ⟨refusal, -, heq⟩ | ⟨-, -, heq⟩ | ⟨hauth', -⟩ :=
      handle_operation_cases relay.store relay.challenges now fresh hoperation
    · rw [heq]
    · rw [heq]
    · exact absurd hauth' hauth

/-- A visit hands out nothing and takes nothing, or hands out the oldest blob and takes out at most
what has its name. If its challenges are left alone, it hands out nothing only if there is nothing,
and takes out what has the name. -/
theorem collect (h : Stands keys q time relay blobs)
    (hwrite : ∀ message, Ed25519.Verifies keys.write message)
    (hread : ∀ message, Ed25519.Verifies keys.read message) {visit : Visit}
    (hforeign : visit.Foreign keys q time relay) : ∃ more kept,
    Stands keys q time (relay.collect keys q visit).1 kept ∧
    (((relay.collect keys q visit).2 = none ∧ kept = blobs ++ more ∧
        (visit.Undisturbed q → blobs = [])) ∨
      ∃ entry, (blobs ++ more).head? = some entry ∧
        (relay.collect keys q visit).2 = some entry.content ∧
        (∀ other ∈ blobs, other ∈ kept ∨ other.1 = entry.1) ∧
        (visit.Undisturbed q → kept = (blobs ++ more).filter fun other => other.1 ≠ entry.1)) := by
  obtain ⟨added, ready, proof, hready, hauth, hanswer⟩ :=
    h.operate hwrite hread hforeign.1 (.read q ·)
  obtain ⟨hstands, hblob, hhanded⟩ :=
    hready.handle_read proof visit.read.nowMs visit.read.drawnAfter
  generalize handle ready.store ready.challenges (.read q proof) visit.read.nowMs
    visit.read.drawnAfter = answer at *
  obtain ⟨after, response⟩ := answer
  dsimp only at hanswer hstands hblob hhanded
  by_cases hhas : ∃ id blob, response = .blob id blob
  · obtain ⟨id, blob, rfl⟩ := hhas
    obtain ⟨entry, hhead, hcontent⟩ := Option.map_eq_some_iff.mp (hblob id blob rfl)
    obtain ⟨later, ready', proof', hready', hauth', hanswer'⟩ :=
      hstands.operate hwrite hread (hanswer ▸ hforeign.2) (.delete q · id)
    obtain ⟨kept, hkept, hmem, hfull⟩ :=
      hready'.handle_delete proof' id visit.delete.nowMs visit.delete.drawnAfter
    obtain rfl : entry.1 = id := congrArg Prod.fst hcontent
    have hcollect : relay.collect keys q visit = ((handle ready'.store ready'.challenges
        (.delete q proof' entry.1) visit.delete.nowMs visit.delete.drawnAfter).1,
          some entry.content) := by
      rw [State.collect, hanswer, hcontent]
      simp only [hanswer']
    rw [hcollect]
    rw [List.append_assoc] at hmem hfull
    refine ⟨added ++ later, kept, hkept, .inr ⟨entry, ?_, rfl, fun other hother => ?_, ?_⟩⟩
    · rw [← List.append_assoc, List.head?_append, hhead, Option.some_or]
    · exact hmem other (List.mem_append_left _ hother)
    · exact fun hundisturbed => hfull (hauth' hundisturbed.2)
  · have hcollect : relay.collect keys q visit = (after, none) := by
      rw [State.collect, hanswer]
      split
      case h_1 relay id blob heq =>
        obtain ⟨-, hsome⟩ := Prod.mk.inj heq
        exact absurd ⟨id, blob, Option.some.inj hsome⟩ hhas
      case h_2 relay response' _ heq =>
        obtain ⟨rfl, -⟩ := Prod.mk.inj heq
        rfl
    rw [hcollect]
    refine ⟨added, blobs ++ added, hstands, .inl ⟨rfl, rfl, fun hundisturbed => ?_⟩⟩
    cases blobs with
    | nil => rfl
    | cons entry rest =>
      exact absurd ⟨_, _, hhanded (hauth hundisturbed.1)⟩ hhas

end Stands

/-! ## What all visits do -/

/-- The oldest blob of each name. -/
def distinct (blobs : List Entry) : List Entry :=
  blobs.eraseDupsBy fun entry other => entry.1 == other.1

omit [Ed25519] [Blake2b] in
theorem distinct_cons (entry : Entry) (blobs : List Entry) : distinct (entry :: blobs) =
    entry :: distinct (blobs.filter fun other => other.1 ≠ entry.1) := by
  rw [distinct, List.eraseDupsBy_cons, distinct]
  simp

omit [Ed25519] [Blake2b] in
theorem distinct_grows (blobs more : List Entry) :
    distinct blobs <+: distinct (blobs ++ more) := by
  induction hn : blobs.length using Nat.strong_induction_on generalizing blobs more with
  | h n ih =>
    cases blobs with
    | nil => exact List.nil_prefix
    | cons entry rest =>
      rw [List.cons_append, distinct_cons, distinct_cons, List.filter_append,
        List.cons_prefix_cons]
      refine ⟨rfl, ih _ ?_ _ _ rfl⟩
      have hle := List.length_filter_le (fun other : Entry => decide (other.1 ≠ entry.1)) rest
      rw [List.length_cons] at hn
      omega

variable {visits : List Visit}

/-- What is not in the queue after the visits was handed out by one of them. -/
theorem Stands.handed_or_kept (h : Stands keys q time relay blobs)
    (hwrite : ∀ message, Ed25519.Verifies keys.write message)
    (hread : ∀ message, Ed25519.Verifies keys.read message)
    (hforeign : Run.Steps (State.collect keys q) (Visit.Foreign keys q time) relay visits)
    {entry : Entry}
    (hentry : entry ∈ blobs) :
    entry ∈ (Run.final (State.collect keys q) relay visits).store.blobs q ∨
      ∃ blob, some (entry.1, blob) ∈ Run.outputs (State.collect keys q) relay visits := by
  induction visits generalizing relay blobs with
  | nil => exact .inl (h.blobs_eq ▸ hentry)
  | cons visit visits ih =>
    obtain ⟨more, kept, hkept, hvisit⟩ := h.collect hwrite hread hforeign.1
    rw [Run.outputs_cons, Run.final_cons]
    have hcases : entry ∈ kept ∨ ∃ blob, some (entry.1, blob) = (relay.collect keys q visit).2 := by
      obtain ⟨-, rfl, -⟩ | ⟨first, -, hsome, hmem, -⟩ := hvisit
      · exact .inl (List.mem_append_left _ hentry)
      · refine (hmem entry hentry).imp_right fun hname => ⟨first.2.1, ?_⟩
        rw [hsome, hname]
        rfl
    obtain hstays | ⟨blob, hblob⟩ := hcases
    · obtain hkept | ⟨blob, hblob⟩ := ih hkept hforeign.2 hstays
      · exact .inl hkept
      · exact .inr ⟨blob, List.mem_cons_of_mem _ hblob⟩
    · exact .inr ⟨blob, hblob ▸ List.mem_cons_self⟩

/-- Visits whose challenges are left alone hand out each name once, the oldest first, and nothing
only if there is nothing. -/
theorem Stands.handed_in_order (h : Stands keys q time relay blobs)
    (hwrite : ∀ message, Ed25519.Verifies keys.write message)
    (hread : ∀ message, Ed25519.Verifies keys.read message)
    (hforeign : Run.Steps (State.collect keys q) (Visit.Foreign keys q time) relay visits)
    (hundisturbed : ∀ visit ∈ visits, visit.Undisturbed q) :
    ((distinct blobs).map fun entry => some entry.content).take visits.length <+:
      Run.outputs (State.collect keys q) relay visits := by
  induction visits generalizing relay blobs with
  | nil => exact List.nil_prefix
  | cons visit visits ih =>
    obtain ⟨more, kept, hkept, hvisit⟩ := h.collect hwrite hread hforeign.1
    have hquiet := hundisturbed visit List.mem_cons_self
    have hrest := ih hkept hforeign.2 fun visit hvisit =>
      hundisturbed visit (List.mem_cons_of_mem _ hvisit)
    cases blobs with
    | nil => exact List.nil_prefix
    | cons first rest =>
      obtain ⟨-, -, hnone⟩ | ⟨entry, hhead, hsome, -, hfull⟩ := hvisit
      · cases hnone hquiet
      · obtain rfl : first = entry := Option.some.inj hhead
        obtain rfl := hfull hquiet
        rw [Run.outputs_cons, hsome, distinct_cons, List.map_cons, List.length_cons,
          List.take_succ_cons, List.cons_prefix_cons]
        have hsplit : (first :: rest ++ more).filter (fun other => other.1 ≠ first.1) =
            rest.filter (fun other => other.1 ≠ first.1) ++
              more.filter fun other => other.1 ≠ first.1 := by simp
        rw [hsplit] at hrest
        exact ⟨rfl, (((distinct_grows _ _).map _).take _).trans hrest⟩

/-- An undisturbed visit that hands out nothing has found an empty queue. -/
theorem Stands.empty_of_none (h : Stands keys q time relay blobs)
    (hwrite : ∀ message, Ed25519.Verifies keys.write message)
    (hread : ∀ message, Ed25519.Verifies keys.read message)
    (hforeign : Run.Steps (State.collect keys q) (Visit.Foreign keys q time) relay visits)
    {n : Nat} {visit : Visit}
    (hvisit : visits[n]? = some visit) (hundisturbed : visit.Undisturbed q)
    (hnone : (Run.outputs (State.collect keys q) relay visits)[n]? = some none) :
    (Run.stateAt (State.collect keys q) relay visits n).store.blobs q = [] := by
  induction visits generalizing relay blobs n with
  | nil => cases hvisit
  | cons first visits ih =>
    obtain ⟨more, kept, hkept, hcollect⟩ := h.collect hwrite hread hforeign.1
    cases n with
    | zero =>
      obtain rfl : first = visit := Option.some.inj hvisit
      obtain ⟨-, -, hempty⟩ | ⟨entry, -, hsome, -⟩ := hcollect
      · exact h.blobs_eq.trans (hempty hundisturbed)
      · simp [hsome] at hnone
    | succ n =>
      exact ih hkept hforeign.2 hvisit hnone

/-- What a recipient collects, whatever others do who do not take its key: a blob that was in its
queue is still there or was handed out under its name. If nobody meddles with its challenges, the
visits hand out what was there by the order of the writes, each name once and before what was
written meanwhile, and one that hands out nothing has found an empty queue. Whatever time it is,
blobs and queue last as long; signatures verify. -/
theorem collected (keys : QueueKeys) (q : QueueId) (time : UInt64) (relay : State)
    (blobs : List Entry) (visits : List Visit)
    (hwrite : ∀ message, Ed25519.Verifies keys.write message)
    (hread : ∀ message, Ed25519.Verifies keys.read message)
    (hstands : Stands keys q time relay blobs)
    (hforeign : Run.Steps (State.collect keys q) (Visit.Foreign keys q time) relay visits) :
    let handed := Run.outputs (State.collect keys q) relay visits
    (∀ entry ∈ blobs, entry ∈ (Run.final (State.collect keys q) relay visits).store.blobs q ∨
      ∃ blob, some (entry.1, blob) ∈ handed) ∧
    ((∀ visit ∈ visits, visit.Undisturbed q) →
      ((distinct blobs).map fun entry => some entry.content).take visits.length <+: handed ∧
      ∀ n : Nat, handed[n]? = some none →
        (Run.stateAt (State.collect keys q) relay visits n).store.blobs q = []) := by
  refine ⟨fun entry => hstands.handed_or_kept hwrite hread hforeign, fun hundisturbed =>
    ⟨hstands.handed_in_order hwrite hread hforeign hundisturbed, fun n hnone => ?_⟩⟩
  obtain ⟨visit, hvisit, -⟩ := Run.exists_of_outputs hnone
  exact hstands.empty_of_none hwrite hread hforeign hvisit
    (hundisturbed _ (List.mem_of_getElem? hvisit)) hnone

end Standing

end Visits

/-! ## Two visits -/

namespace Sample

attribute [local instance] ed25519 checksum

/-- A queue with two blobs, one of which was written twice. -/
def waiting : List Entry := [(blobId [7], [7], 1), (blobId [8], [8], 2), (blobId [7], [7], 3)]

def waitingRelay : State :=
  ⟨⟨Std.ExtTreeMap.empty.insert queueId ⟨keys.registration, waiting, 3⟩⟩, ∅⟩

def drawn (byte : UInt8) : Octets 32 := .replicate 32 byte

/-- What somebody with the key for writing does. -/
def writing : List Event :=
  [.handle (.challengeRequest queueId .write) 5 (drawn 0x61),
    .handle (.write queueId (Ed25519.sign keys.write
      (proofMessage .write (drawn 0x61).toList)) [9]) 6 (drawn 0x62),
    .expire 7]

/-- Somebody sends an old delete of the recipient once more. -/
def replayed : Event :=
  .handle (.delete queueId (Ed25519.sign keys.read (proofMessage .read (drawn 0x60).toList))
    (blobId [7])) 4 (drawn 0x67)

/-- While the recipient reads and deletes, others write. -/
def visit : Visit :=
  ⟨⟨writing, [.expire 8], 8, 9, drawn 0x63, drawn 0x64⟩,
    ⟨[], writing, 10, 11, drawn 0x65, drawn 0x66⟩⟩

/-- Before the first visit somebody tries the old delete too. -/
def visits : List Visit := [{ visit with read.before := replayed :: writing }, visit]

theorem stands_waiting : Stands keys queueId 100 waitingRelay waiting := by
  refine ⟨⟨3, ?_, by decide⟩, by decide⟩
  rw [waitingRelay, Std.ExtTreeMap.getElem?_insert]
  simp

theorem foreign_of_mem (event : Event) (hevent : event ∈ writing ++ [.expire 8]) (relay : State) :
    event.Foreign keys queueId 100 relay := by
  fin_cases hevent
  · exact ⟨by decide, fun _ _ h => by cases h⟩
  · exact ⟨by decide, fun _ _ h => by cases h⟩
  · exact (by decide : (7 : UInt64) ≤ 100)
  · exact (by decide : (8 : UInt64) ≤ 100)

theorem foreign_writing (relay : State) :
    Run.Steps State.step (Event.Foreign keys queueId 100) relay writing :=
  .of_forall fun event hevent => foreign_of_mem event (List.mem_append_left _ hevent)

/-- No challenge is outstanding, so the old proof is good for none. -/
theorem foreign_replayed : replayed.Foreign keys queueId 100 waitingRelay :=
  ⟨by decide, fun _ _ _ challenge hchallenge => by simp [waitingRelay] at hchallenge⟩

theorem foreign_visit (relay : State) : visit.Foreign keys queueId 100 relay :=
  ⟨⟨foreign_writing _, .of_forall fun event hevent =>
    foreign_of_mem event (List.mem_append_right _ hevent)⟩, trivial, foreign_writing _⟩

theorem foreign_visits :
    Run.Steps (State.collect keys queueId) (Visit.Foreign keys queueId 100) waitingRelay visits :=
  ⟨⟨⟨⟨foreign_replayed, foreign_writing _⟩, (foreign_visit _).1.2⟩, (foreign_visit _).2⟩,
    foreign_visit _, trivial⟩

theorem undisturbed_visits (visit : Visit) (hvisit : visit ∈ visits) :
    visit.Undisturbed queueId := by
  fin_cases hvisit <;> refine ⟨fun event hevent => ?_, fun event hevent => ?_⟩ <;>
    fin_cases hevent <;> simp [Event.Concerns, Request.right]

end Sample

/-- The recipient gets both blobs, each once, and an old delete takes none of them. -/
theorem collected_twice :
    let _ := Sample.ed25519
    let _ := checksum
    Run.outputs (State.collect Sample.keys Sample.queueId) Sample.waitingRelay Sample.visits =
      [some (blobId [7], [7]), some (blobId [8], [8])] := by
  intro _ _
  obtain ⟨-, hordered⟩ := collected Sample.keys Sample.queueId 100 Sample.waitingRelay
    Sample.waiting Sample.visits (Sample.verifies _) (Sample.verifies _) Sample.stands_waiting
    Sample.foreign_visits
  have hdistinct : (distinct Sample.waiting).map (fun entry => some entry.content) =
      [some (blobId [7], [7]), some (blobId [8], [8])] := by decide +kernel
  have hbegins := (hordered Sample.undisturbed_visits).1
  rw [hdistinct] at hbegins
  exact (hbegins.eq_of_length (by rw [Run.length_outputs]; rfl)).symm

end Onestein.Relay
