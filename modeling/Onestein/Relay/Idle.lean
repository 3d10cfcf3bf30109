import Onestein.Relay.Daemon

/-!
# Asks that come to nothing

The daemon drops what has expired before every answer, so that when a relay was last asked makes no
difference to what it answers now. An ask without a request in it, or one that could not be worked
on, therefore leaves no trace.

## Main definitions

* `Ask.isBusy` — a request is worked on.
* `AgreeFrom` — two relays hold the same from a time on.

## Main results

* `Store.expire_expire` — of two expiries the later one counts.
* `idle_unseen` — leaving out the asks that come to nothing changes no other answer.
-/

namespace Onestein.Relay

open Crypto Record

/-- A request is worked on: the generator has not failed, the lock is taken, and the record is a
request. -/
def Ask.isBusy (ask : Ask) : Bool :=
  ask.challenge.isSome && ask.locked && (decodeRequest ask.record).isOk

/-! ## Expiry at two times -/

theorem Entry.isAlive_of_le {entry : Entry} {now later : UInt64} (hle : now ≤ later)
    (h : entry.isAlive later) : entry.isAlive now := by
  obtain ⟨id, bytes, written⟩ := entry
  simp only [Entry.isAlive, decide_eq_true_eq] at h ⊢
  exact UInt64.le_trans hle h

theorem Queue.isAlive_of_le {queue : Queue} {now later : UInt64} (hle : now ≤ later)
    (h : queue.isAlive later) : queue.isAlive now := by
  simp only [Queue.isAlive, decide_eq_true_eq] at h ⊢
  exact UInt64.le_trans hle h

/-- Expiring twice is expiring at the later time. -/
theorem Store.expire_expire (store : Store) {now later : UInt64} (hle : now ≤ later) :
    (store.expire now).expire later = store.expire later := by
  have hqueue (q : QueueId) :
      ((store.expire now).expire later).queues[q]? = (store.expire later).queues[q]? := by
    rw [queues_expire, queues_expire, queues_expire]
    cases store.queues[q]? with
    | none => rfl
    | some queue =>
      have hblobs : (queue.blobs.filter (Entry.isAlive now)).filter (Entry.isAlive later) =
          queue.blobs.filter (Entry.isAlive later) := by
        rw [List.filter_filter]
        refine List.filter_congr fun entry _ => ?_
        cases halive : entry.isAlive later with
        | false => rfl
        | true => simp [Entry.isAlive_of_le hle halive]
      cases halive : queue.isAlive later with
      | true =>
        have hnow := Queue.isAlive_of_le hle halive
        have hlater : (Queue.mk queue.registration (queue.blobs.filter (Entry.isAlive now))
            queue.lastWriteMs).isAlive later := halive
        simp [Option.filter_some, hnow, halive, hlater, hblobs]
      | false =>
        cases hnow : queue.isAlive now with
        | false => simp [Option.filter_some, hnow, halive]
        | true =>
          have hlater : (Queue.mk queue.registration (queue.blobs.filter (Entry.isAlive now))
              queue.lastWriteMs).isAlive later = false := halive
          simp [Option.filter_some, hnow, halive, hlater]
  exact congrArg Store.mk (Std.ExtTreeMap.ext_getElem? hqueue)

variable [Ed25519] [Blake2b]

/-! ## Answers -/

section Answers

variable {shared shared' : State} {ask : Ask} {time : UInt64}

/-- Two relays wait on the same challenges and hold the same from a time on. -/
structure AgreeFrom (time : UInt64) (shared shared' : State) : Prop where
  challenges : shared.challenges = shared'.challenges
  store : ∀ now, time ≤ now → shared.store.expire now = shared'.store.expire now

omit [Ed25519] [Blake2b] in
theorem AgreeFrom.refl (time : UInt64) (shared : State) : AgreeFrom time shared shared :=
  ⟨rfl, fun _ _ => rfl⟩

/-- A request that is worked on finds what has not expired. -/
theorem answer_of_busy (hbusy : ask.isBusy) (hle : time ≤ ask.nowMs)
    (h : AgreeFrom time shared shared') : answer shared ask = answer shared' ask := by
  simp only [Ask.isBusy, Bool.and_eq_true] at hbusy
  obtain ⟨challenge, hchallenge⟩ := Option.isSome_iff_exists.mp hbusy.1.1
  have hlocked := hbusy.1.2
  simp only [answer, hchallenge, hlocked, if_true, h.challenges, h.store ask.nowMs hle]

/-- What comes to nothing leaves the relay as it was, or has it drop what has expired, and is
answered with nothing. -/
theorem answer_of_idle (hidle : ask.isBusy = false) :
    (answer shared ask).2 = reply .empty ∧
      ((answer shared ask).1 = shared ∨
        (answer shared ask).1 = { shared with store := shared.store.expire ask.nowMs }) := by
  unfold answer
  cases hchallenge : ask.challenge with
  | none => exact ⟨rfl, .inl rfl⟩
  | some challenge =>
    dsimp only
    split
    case isFalse => exact ⟨rfl, .inl rfl⟩
    case isTrue hlocked =>
      cases hrequest : decodeRequest ask.record with
      | error e => exact ⟨rfl, .inr rfl⟩
      | ok request =>
        simp [Ask.isBusy, hchallenge, hlocked, hrequest, Except.isOk, Except.toBool] at hidle

theorem agreeFrom_of_idle (hidle : ask.isBusy = false) (hle : time ≤ ask.nowMs)
    (h : AgreeFrom time shared shared') :
    AgreeFrom ask.nowMs (answer shared ask).1 shared' := by
  have hlater (now : UInt64) (hnow : ask.nowMs ≤ now) :
      shared.store.expire now = shared'.store.expire now :=
    h.store now (UInt64.le_trans hle hnow)
  obtain hsame | hexpired := (answer_of_idle hidle).2
  · rw [hsame]
    exact ⟨h.challenges, hlater⟩
  · rw [hexpired]
    refine ⟨h.challenges, fun now hnow => ?_⟩
    rw [← hlater now hnow]
    exact Store.expire_expire _ hnow

end Answers

/-- On a clock that never goes back, leaving out of a run the asks that come to nothing changes no
other answer, and at the end neither the challenges nor what is held and has not expired; and they
are all answered with nothing. -/
theorem idle_unseen (asks : List Ask) (hmono : (asks.map Ask.nowMs).Pairwise (· ≤ ·)) :
    let busy := asks.filter Ask.isBusy
    (asks.zip (Run.outputs answer State.new asks)).filter (fun said => said.1.isBusy) =
        busy.zip (Run.outputs answer State.new busy) ∧
      (∀ said ∈ asks.zip (Run.outputs answer State.new asks), said.1.isBusy = false →
        said.2 = reply .empty) ∧
      (Run.final answer State.new asks).challenges =
        (Run.final answer State.new busy).challenges ∧
      ∀ now, (∀ ask ∈ asks, ask.nowMs ≤ now) →
        (Run.final answer State.new asks).store.expire now =
          (Run.final answer State.new busy).store.expire now := by
  intro busy
  have hstart : AgreeFrom 0 State.new State.new := .refl 0 State.new
  have hkeep (time : UInt64) (shared shared' : State) (ask : Ask) (hbusy : ask.isBusy)
      (hle : time ≤ ask.nowMs) (h : AgreeFrom time shared shared') :
      AgreeFrom ask.nowMs (answer shared ask).1 (answer shared' ask).1 ∧
        (answer shared ask).2 = (answer shared' ask).2 := by
    rw [answer_of_busy hbusy hle h]
    exact ⟨.refl _ _, rfl⟩
  obtain ⟨⟨time, htime, hfinal⟩, hsaid⟩ := Run.filter_related_at hkeep
    (fun _ _ _ _ => agreeFrom_of_idle) hstart asks hmono fun ask _ => UInt64.zero_le
  refine ⟨hsaid, ?_, hfinal.challenges, fun now hnow => hfinal.store now ?_⟩
  · rintro ⟨ask, said⟩ hmem hidle
    obtain ⟨shared, rfl⟩ := Run.of_mem_zip_outputs hmem
    exact (answer_of_idle hidle).1
  · obtain rfl | ⟨ask, hmem, rfl⟩ := htime
    · exact UInt64.zero_le
    · exact hnow ask hmem

namespace Sample

attribute [local instance] ed25519

/-- A request at a time, with a challenge at hand. -/
def ask (request : Request) (nowMs : UInt64) : Ask :=
  ⟨(encodeRequest request).toOption.getD [], nowMs, some (.replicate 32 0x79), true⟩

/-- A proof for the only challenge that is handed out. -/
def proof (right : Right) (seed : Octets 32) : Proof :=
  Ed25519.sign seed (proofMessage right (List.replicate 32 0x79))

/-- When a blob that was written at two has expired. -/
def late : UInt64 := blobLife + 3

/-- A blob is put in and asked for too late, and in between somebody asks with a record that is cut
off. -/
def oneIdle : List Ask :=
  [ask (.register queueId keys.registration.writePublic keys.registration.readPublic) 0,
    ask (.challengeRequest queueId .write) 1, ask (.write queueId (proof .write keys.write) [7]) 2,
    ⟨[relayVersion, 0], late, some (.replicate 32 0x44), true⟩,
    ask (.challengeRequest queueId .read) late, ask (.read queueId (proof .read keys.read)) late]

end Sample

omit [Ed25519] [Blake2b] in
/-- The ask that comes to nothing has the blob dropped, and the others are answered as without
it. -/
theorem idle_unseen_idle :
    let _ := Sample.ed25519
    let _ := checksum
    let busy := Sample.oneIdle.filter Ask.isBusy
    busy.length = 5 ∧ (Run.outputs answer State.new busy)[2]? = some (reply .ok) ∧
      (Sample.oneIdle.zip (Run.outputs answer State.new Sample.oneIdle)).filter
        (fun said => said.1.isBusy) = busy.zip (Run.outputs answer State.new busy) := by
  intro _ _ busy
  refine ⟨by decide +kernel, by decide +kernel, ?_⟩
  exact (idle_unseen Sample.oneIdle (by decide +kernel)).1

end Onestein.Relay
