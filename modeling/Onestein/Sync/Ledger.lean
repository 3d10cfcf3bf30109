import Onestein.Lib.Run
import Onestein.Sync.Backoff
import Onestein.Sync.Opportunity

/-!
# What the flags of an entry mean, over any run of calls

A device is used by calls: opportunities to send, in any mode and at any time, and between them what
the peer says about the messages that are shared. The three flags of an entry say what has happened
since, and outside eager mode nothing that a peer says makes a message go out before its time.

## Main definitions

* `Call` and `Call.step` — the calls of a run.
* `Call.onEntry` — what a call does to one entry, and what the entry contributes.
* `told` — whether an entry goes out by a call, as its message, an answer or an offer.

## Main results

* `getElem?_sharedAt` — every entry of a run has a run of its own.
* `flags_since` — each flag is what its description says.
* `waits_out` and `waits_add_up` — the tellings of a message keep the distances of its backoff.
-/

namespace Onestein.Sync

/-- What the layer above calls: an opportunity to send, what the peer said about the entry at an
index, or that the message at an index is gone. -/
inductive Call where
  | plan (mode : Mode) (nowMs transportLatencyMs : UInt64) (offeredByPeer : List MessageId)
  | peerAcked (index : Nat)
  | peerOffered (index : Nat)
  | peerRequested (index : Nat)
  | forget (index : Nat)
  deriving DecidableEq

namespace Call

/-- A call, with the records it sends. -/
def step (shared : List Shared) : Call → List Shared × List SyncRecord
  | plan mode nowMs transportLatencyMs offeredByPeer =>
    Sync.plan mode nowMs transportLatencyMs shared offeredByPeer
  | peerAcked index =>
    (shared.modify index fun entry => { entry with state := entry.state.onPeerAcked }, [])
  | peerOffered index =>
    (shared.modify index fun entry => { entry with state := entry.state.onPeerOffered }, [])
  | peerRequested index =>
    (shared.modify index fun entry => { entry with state := entry.state.onPeerRequested }, [])
  | forget index => (shared.modify index fun entry => { entry with message := none }, [])

/-- What a call does to the entry at an index, and what the entry contributes. -/
def onEntry (i : Nat) (entry : Shared) : Call → Shared × Option Contribution
  | plan mode nowMs transportLatencyMs _ =>
    (entry.after mode nowMs transportLatencyMs, entry.contribution mode nowMs)
  | peerAcked index =>
    (if index = i then { entry with state := entry.state.onPeerAcked } else entry, none)
  | peerOffered index =>
    (if index = i then { entry with state := entry.state.onPeerOffered } else entry, none)
  | peerRequested index =>
    (if index = i then { entry with state := entry.state.onPeerRequested } else entry, none)
  | forget index => (if index = i then { entry with message := none } else entry, none)

/-- The call is an opportunity to send. -/
def isPlan : Call → Bool
  | plan .. => true
  | _ => false

end Call

/-- Messages that were never offered or sent to the peer. -/
def fresh (messages : List (MessageId × Option SignedMessage)) : List Shared :=
  messages.map fun (id, message) => ⟨id, .new, message⟩

/-- What is shared before the call at `n` of a run. -/
def sharedAt (messages : List (MessageId × Option SignedMessage)) (calls : List Call) (n : Nat) :
    List Shared :=
  Run.stateAt Call.step (fresh messages) calls n

/-- By the call at `n` the entry at an index goes out, as its message, an answer that it is gone, or
an offer. -/
def told (messages : List (MessageId × Option SignedMessage)) (calls : List Call) (i n : Nat) :
    Bool :=
  match calls[n]?, (sharedAt messages calls n)[i]? with
  | some (.plan mode nowMs _ _), some entry => (entry.contribution mode nowMs).isSome
  | _, _ => false

/-- How often the entry at an index goes out before the call at `n`. -/
def tellings (messages : List (MessageId × Option SignedMessage)) (calls : List Call) (i n : Nat) :
    Nat :=
  (List.range n).countP (told messages calls i)

/-! ## The run of one entry -/

section Entry

variable {i n : Nat} {entry : Shared} {call : Call} {calls : List Call}

/-- A call acts on every entry for itself. -/
theorem getElem?_step (shared : List Shared) (call : Call) (i : Nat) :
    (Call.step shared call).1[i]? = shared[i]?.map fun entry => (call.onEntry i entry).1 := by
  cases call with
  | plan mode nowMs transportLatencyMs offeredByPeer =>
    rw [Call.step, plan_fst, List.getElem?_map]
    rfl
  | peerAcked | peerOffered | peerRequested | forget =>
    rw [Call.step, List.getElem?_modify]
    cases shared[i]? with
    | none => rfl
    | some entry => simp only [Call.onEntry, Option.map_some]; split <;> rfl

/-- In a run every entry has a run of its own. -/
theorem getElem?_stateAt (shared : List Shared) (calls : List Call) (i n : Nat) :
    (Run.stateAt Call.step shared calls n)[i]? =
      shared[i]?.map fun entry => Run.stateAt (Call.onEntry i) entry calls n := by
  induction n with
  | zero => simp
  | succ n ih =>
    cases hcall : calls[n]? with
    | none => simp only [Run.stateAt_succ_of_none hcall, ih]
    | some call =>
      simp only [Run.stateAt_succ hcall, getElem?_step, ih, Option.map_map]
      rfl

/-- The entry of a message before the call at `n`. -/
def entryAt (calls : List Call) (i : Nat) (id : MessageId) (message : Option SignedMessage)
    (n : Nat) : Shared :=
  Run.stateAt (Call.onEntry i) ⟨id, .new, message⟩ calls n

theorem entryAt_succ {id : MessageId} {message : Option SignedMessage}
    (hcall : calls[n]? = some call) : entryAt calls i id message (n + 1) =
      (call.onEntry i (entryAt calls i id message n)).1 :=
  Run.stateAt_succ hcall

theorem entryAt_succ_of_none {id : MessageId} {message : Option SignedMessage}
    (hcall : calls[n]? = none) :
    entryAt calls i id message (n + 1) = entryAt calls i id message n :=
  Run.stateAt_succ_of_none hcall

variable {messages : List (MessageId × Option SignedMessage)} {id : MessageId}
  {message : Option SignedMessage}

theorem getElem?_sharedAt (hi : messages[i]? = some (id, message)) :
    (sharedAt messages calls n)[i]? = some (entryAt calls i id message n) := by
  simp [sharedAt, getElem?_stateAt, fresh, hi, entryAt]

/-- An entry goes out by a call if it contributes to it. -/
theorem told_eq (hi : messages[i]? = some (id, message)) (hcall : calls[n]? = some call) :
    told messages calls i n = (call.onEntry i (entryAt calls i id message n)).2.isSome := by
  rw [told, getElem?_sharedAt hi, hcall]
  cases call <;> rfl

theorem told_of_none (hcall : calls[n]? = none) : told messages calls i n = false := by
  rw [told, hcall]

/-- Entries go out at opportunities to send only. -/
theorem exists_plan_of_told (htold : told messages calls i n) :
    ∃ mode nowMs latencyMs offeredByPeer,
      calls[n]? = some (.plan mode nowMs latencyMs offeredByPeer) := by
  unfold told at htold
  split at htold
  · exact ⟨_, _, _, _, by assumption⟩
  · cases htold

theorem exists_message_of_told (htold : told messages calls i n) :
    ∃ message, messages[i]? = some message := by
  cases hi : messages[i]? with
  | some message => exact ⟨message, rfl⟩
  | none =>
    have hnone : (sharedAt messages calls n)[i]? = none := by
      rw [sharedAt, getElem?_stateAt, fresh, List.getElem?_map, hi]
      rfl
    rw [told, hnone] at htold
    split at htold <;> simp_all

/-! ## Flags -/

theorem ackPending_onEntry : (call.onEntry i entry).1.state.ackPending ↔
    call = .peerOffered i ∨ entry.state.ackPending ∧ ¬ call.isPlan := by
  cases call with
  | plan => simp [Call.onEntry, Call.isPlan]
  | peerAcked index | peerOffered index | peerRequested index | forget index =>
    by_cases hindex : index = i <;>
      simp [Call.onEntry, Call.isPlan, hindex, PeerMessageState.onPeerAcked,
        PeerMessageState.onPeerOffered, PeerMessageState.onPeerRequested]

theorem seen_onEntry : (call.onEntry i entry).1.state.seen ↔
    (call = .peerAcked i ∨ call = .peerOffered i) ∨ entry.state.seen ∧ ¬ False := by
  cases call with
  | plan mode nowMs transportLatencyMs =>
    simp only [Call.onEntry, after_eq, reduceCtorEq, or_self, false_or, not_false_eq_true, and_true]
    split <;> rfl
  | peerAcked index | peerOffered index | peerRequested index | forget index =>
    by_cases hindex : index = i <;>
      simp [Call.onEntry, hindex, PeerMessageState.onPeerAcked, PeerMessageState.onPeerOffered,
        PeerMessageState.onPeerRequested]

theorem requested_onEntry : (call.onEntry i entry).1.state.requested ↔
    call = .peerRequested i ∨ entry.state.requested ∧ ¬ (call.onEntry i entry).2.isSome := by
  cases call with
  | plan mode nowMs transportLatencyMs offeredByPeer =>
    simp only [Call.onEntry, after_eq, reduceCtorEq, false_or]
    split_ifs with hsome <;> simp [hsome, PeerMessageState.onSent]
  | peerAcked index | peerOffered index | peerRequested index | forget index =>
    by_cases hindex : index = i <;>
      simp [Call.onEntry, hindex, PeerMessageState.onPeerAcked,
        PeerMessageState.onPeerOffered, PeerMessageState.onPeerRequested]

variable (hseen : ¬ entry.state.seen) (howed : ¬ entry.state.ackPending)
  (hrequested : ¬ entry.state.requested)

include hseen in
theorem seen_since (n : Nat) : (Run.stateAt (Call.onEntry i) entry calls n).state.seen ↔
    Run.Since (Call.onEntry i) (fun _ call => call = .peerAcked i ∨ call = .peerOffered i)
      (fun _ _ => False) entry calls n :=
  Run.flag_iff_since (F := fun entry : Shared => entry.state.seen) (fun _ _ => seen_onEntry) hseen n

include howed in
theorem ackPending_since (n : Nat) : (Run.stateAt (Call.onEntry i) entry calls n).state.ackPending ↔
    Run.Since (Call.onEntry i) (fun _ call => call = .peerOffered i) (fun _ call => call.isPlan)
      entry calls n :=
  Run.flag_iff_since (F := fun entry : Shared => entry.state.ackPending)
    (fun _ _ => ackPending_onEntry) howed n

include hrequested in
theorem requested_since (n : Nat) : (Run.stateAt (Call.onEntry i) entry calls n).state.requested ↔
    Run.Since (Call.onEntry i) (fun _ call => call = .peerRequested i)
      (fun entry call => (call.onEntry i entry).2.isSome) entry calls n :=
  Run.flag_iff_since (F := fun entry : Shared => entry.state.requested)
    (fun _ _ => requested_onEntry) hrequested n

end Entry

/-- Each flag of a message that is shared says what has happened since. It was seen if the peer ever
acknowledged or offered it; an acknowledgement is owed if the peer offered it and there was no
opportunity since; it is requested if the peer asked for it and it has not gone out since. So in no
mode it goes out to a peer that is known to hold it and has not asked for it since. -/
theorem flags_since (messages : List (MessageId × Option SignedMessage)) (calls : List Call)
    (i n : Nat) (entry : Shared) (hentry : (sharedAt messages calls n)[i]? = some entry) :
    (entry.state.seen ↔
      ∃ m < n, calls[m]? = some (.peerAcked i) ∨ calls[m]? = some (.peerOffered i)) ∧
    (entry.state.ackPending ↔
      ∃ m < n, calls[m]? = some (.peerOffered i) ∧
        ∀ l call, m < l → l < n → calls[l]? = some call → ¬ call.isPlan) ∧
    (entry.state.requested ↔
      ∃ m < n, calls[m]? = some (.peerRequested i) ∧
        ∀ l, m < l → l < n → told messages calls i l = false) ∧
    ∀ mode nowMs, (entry.contribution mode nowMs).isSome →
      entry.state.requested ∨
        ∀ m < n, calls[m]? ≠ some (.peerAcked i) ∧ calls[m]? ≠ some (.peerOffered i) := by
  obtain ⟨⟨id, message⟩, hi⟩ : ∃ message, messages[i]? = some message := by
    rw [sharedAt, getElem?_stateAt, fresh, List.getElem?_map, Option.map_map] at hentry
    obtain ⟨message, hi, -⟩ := Option.map_eq_some_iff.mp hentry
    exact ⟨message, hi⟩
  obtain rfl : entryAt calls i id message n = entry :=
    Option.some.inj ((getElem?_sharedAt hi).symm.trans hentry)
  have hseen : (entryAt calls i id message n).state.seen ↔
      ∃ m < n, calls[m]? = some (.peerAcked i) ∨ calls[m]? = some (.peerOffered i) := by
    refine (seen_since (by simp [PeerMessageState.new]) n).trans ?_
    constructor
    · rintro ⟨m, call, hm, hcall, rfl | rfl, -⟩
      · exact ⟨m, hm, .inl hcall⟩
      · exact ⟨m, hm, .inr hcall⟩
    · rintro ⟨m, hm, hcall | hcall⟩
      · exact ⟨m, _, hm, hcall, .inl rfl, by simp⟩
      · exact ⟨m, _, hm, hcall, .inr rfl, by simp⟩
  refine ⟨hseen, ?_, ?_, fun mode nowMs hsome => ?_⟩
  · refine (ackPending_since (by simp [PeerMessageState.new]) n).trans ?_
    constructor
    · rintro ⟨m, _, hm, hcall, rfl, hkeep⟩
      exact ⟨m, hm, hcall, hkeep⟩
    · rintro ⟨m, hm, hcall, hkeep⟩
      exact ⟨m, _, hm, hcall, rfl, hkeep⟩
  · refine (requested_since (by simp [PeerMessageState.new]) n).trans ?_
    constructor
    · rintro ⟨m, _, hm, hcall, rfl, hkeep⟩
      refine ⟨m, hm, hcall, fun l hml hln => ?_⟩
      cases hl : calls[l]? with
      | none => exact told_of_none hl
      | some call =>
        rw [told_eq hi hl]
        exact Bool.eq_false_iff.mpr (hkeep l call hml hln hl)
    · rintro ⟨m, hm, hcall, hkeep⟩
      refine ⟨m, _, hm, hcall, rfl, fun l call hml hln hl htells => ?_⟩
      have htold := (told_eq hi hl).trans htells
      simp [hkeep l hml hln] at htold
  · by_contra hnot
    rw [not_or] at hnot
    have hheld : (entryAt calls i id message n).state.seen := by
      rw [hseen]
      by_contra hno
      refine hnot.2 fun m hm => ⟨fun hcall => hno ⟨m, hm, .inl hcall⟩, fun hcall => ?_⟩
      exact hno ⟨m, hm, .inr hcall⟩
    have hnone : (entryAt calls i id message n).contribution mode nowMs = none :=
      contribution_eq_none.mpr fun _ => ⟨hnot.1, hheld⟩
    simp [hnone] at hsome

namespace Sample

/-- A message that is gone by now. -/
def requested : MessageId := ⟨.replicate 32 7⟩

/-- The peer asks for the message after the first of three opportunities, over a transport of a
hundred milliseconds. -/
def opportunities : List Call :=
  [.plan .interactive 1000 100 [], .peerRequested 0, .plan .batch 1050 100 [],
    .plan .batch 1100 100 []]

end Sample

theorem flags_since_requested :
    let messages := [(Sample.requested, none)]
    (sharedAt messages Sample.opportunities 3)[0]? =
      some ⟨Sample.requested, ⟨false, false, true, 1, 1100, 100⟩, none⟩ ∧
    ∃ m < 3, Sample.opportunities[m]? = some (.peerRequested 0) ∧
      ∀ l, m < l → l < 3 → told messages Sample.opportunities 0 l = false :=
  ⟨by decide, (flags_since _ _ 0 3 ⟨Sample.requested, ⟨false, false, true, 1, 1100, 100⟩, none⟩
    (by decide)).2.2.1.mp (by decide)⟩

/-! ## Waiting -/

section Waiting

open PeerMessageState

variable {i n : Nat} {entry : Shared} {call : Call} {calls : List Call}

/-- A call by which an entry does not go out leaves its backoff alone. One by which it does is an
opportunity to send, not before its time unless it is eager, and starts the backoff again. -/
theorem onEntry_cases (i : Nat) (entry : Shared) (call : Call) :
    ((call.onEntry i entry).2 = none ∧
      (call.onEntry i entry).1.state.sendCount = entry.state.sendCount ∧
      (call.onEntry i entry).1.state.nextSendTime = entry.state.nextSendTime) ∨
    ∃ mode nowMs latencyMs offeredByPeer, call = .plan mode nowMs latencyMs offeredByPeer ∧
      (call.onEntry i entry).2.isSome ∧
      (mode ≠ .eager → entry.state.nextSendTime ≤ nowMs) ∧
      (call.onEntry i entry).1.state.sendCount =
        (entry.state.onSent nowMs latencyMs).sendCount ∧
      (call.onEntry i entry).1.state.nextSendTime =
        (entry.state.onSent nowMs latencyMs).nextSendTime := by
  cases call with
  | peerAcked index | peerOffered index | peerRequested index | forget index =>
    refine .inl ⟨rfl, ?_⟩
    by_cases hindex : index = i <;>
      simp [Call.onEntry, hindex, onPeerAcked, onPeerOffered, onPeerRequested]
  | plan mode nowMs latencyMs offeredByPeer =>
    simp only [Call.onEntry, after_eq]
    cases hsome : entry.contribution mode nowMs with
    | none => exact .inl ⟨rfl, rfl, rfl⟩
    | some contribution =>
      refine .inr ⟨mode, nowMs, latencyMs, offeredByPeer, rfl, rfl, fun hmode => ?_, rfl, rfl⟩
      by_contra hearly
      rw [contribution_of_early hmode (UInt64.not_le.mp hearly)] at hsome
      cases hsome

theorem delay_mono (k : Nat) {latency latency' : Nat} (h : latency ≤ latency') :
    delay k latency ≤ delay k latency' :=
  max_le_max le_rfl (Nat.mul_le_mul_right _ h)

variable {messages : List (MessageId × Option SignedMessage)} {id : MessageId}
  {message : Option SignedMessage}

theorem tellings_succ (n : Nat) : tellings messages calls i (n + 1) =
    tellings messages calls i n + (told messages calls i n).toNat := by
  cases h : told messages calls i n <;> simp [tellings, List.range_succ, h]

/-- The tellings of an entry are counted, as far as the counter goes. -/
theorem toNat_sendCount_entryAt (hi : messages[i]? = some (id, message)) (n : Nat) :
    (entryAt calls i id message n).state.sendCount.toNat =
      min (tellings messages calls i n) (2 ^ 32 - 1) := by
  induction n with
  | zero => rfl
  | succ n ih =>
    rw [tellings_succ]
    cases hcall : calls[n]? with
    | none => rw [entryAt_succ_of_none hcall, told_of_none hcall]; exact ih
    | some call =>
      rw [entryAt_succ hcall, told_eq hi hcall]
      obtain ⟨hnone, hcount, -⟩ | ⟨mode, nowMs, latencyMs, _, -, hsome, -, hcount, -⟩ :=
        onEntry_cases i (entryAt calls i id message n) call
      · rw [hnone, hcount]
        exact ih
      · rw [hsome, hcount, onSent, UInt32.toNat_saturatingAdd, ih, UInt32.toNat_one]
        simp only [Bool.toNat_true]
        omega

/-- A telling starts the wait for the next one, by the latency and the tellings so far. -/
theorem toNat_nextSendTime_told (hi : messages[i]? = some (id, message))
    {mode : Mode} {nowMs latencyMs : UInt64} {offeredByPeer : List MessageId}
    (hcall : calls[n]? = some (.plan mode nowMs latencyMs offeredByPeer))
    (htold : told messages calls i n) :
    (entryAt calls i id message (n + 1)).state.nextSendTime.toNat = min (2 ^ 64 - 1)
      (nowMs.toNat + delay (tellings messages calls i n + 1) latencyMs.toNat) ∧
    (mode ≠ .eager → (entryAt calls i id message n).state.nextSendTime ≤ nowMs) := by
  rw [told_eq hi hcall] at htold
  rw [entryAt_succ hcall]
  obtain ⟨hnone, -⟩ | ⟨mode', nowMs', latencyMs', _, hsame, -, hready, -, htime⟩ :=
    onEntry_cases i (entryAt calls i id message n) (.plan mode nowMs latencyMs offeredByPeer)
  · simp [hnone] at htold
  · obtain ⟨rfl, rfl, rfl, -⟩ : mode = mode' ∧ nowMs = nowMs' ∧ latencyMs = latencyMs' ∧ _ := by
      simpa using hsame
    rw [htime]
    exact ⟨toNat_nextSendTime_onSent (toNat_sendCount_entryAt hi n), hready⟩

section NoEager

variable (hpatient : ∀ nowMs latencyMs offeredByPeer,
  .plan .eager nowMs latencyMs offeredByPeer ∉ calls)

include hpatient

/-- Where no opportunity is eager, the time of the next telling never goes back. -/
theorem nextSendTime_le_succ (hi : messages[i]? = some (id, message)) (n : Nat) :
    (entryAt calls i id message n).state.nextSendTime ≤
      (entryAt calls i id message (n + 1)).state.nextSendTime := by
  cases hcall : calls[n]? with
  | none =>
    rw [entryAt_succ_of_none hcall]
    exact UInt64.le_refl _
  | some call =>
    obtain ⟨-, -, htime⟩ | ⟨mode, nowMs, latencyMs, offeredByPeer, rfl, hsome, -⟩ :=
      onEntry_cases i (entryAt calls i id message n) call
    · rw [entryAt_succ hcall, htime]
      exact UInt64.le_refl _
    · have hmode : mode ≠ .eager := by
        rintro rfl
        exact hpatient _ _ _ (List.mem_of_getElem? hcall)
      obtain ⟨hnext, hready⟩ :=
        toNat_nextSendTime_told hi hcall ((told_eq hi hcall).trans hsome)
      have hle := UInt64.le_iff_toNat_le.mp (hready hmode)
      have hlt := nowMs.toNat_lt
      rw [UInt64.le_iff_toNat_le, hnext]
      omega

theorem nextSendTime_mono (hi : messages[i]? = some (id, message)) {m n : Nat} (hmn : m ≤ n) :
    (entryAt calls i id message m).state.nextSendTime ≤
      (entryAt calls i id message n).state.nextSendTime := by
  induction n, hmn using Nat.le_induction with
  | base => exact UInt64.le_refl _
  | succ n hmn ih => exact UInt64.le_trans ih (nextSendTime_le_succ hpatient hi n)

/-- Where no opportunity is eager and all come at or after `start` over transports of at least this
latency, the tellings so far put the next one off by the sum of their waits. -/
theorem sum_delay_le_nextSendTime (hi : messages[i]? = some (id, message)) {start latency : Nat}
    (hlater : ∀ mode nowMs latencyMs offeredByPeer,
      .plan mode nowMs latencyMs offeredByPeer ∈ calls →
        start ≤ nowMs.toNat ∧ latency ≤ latencyMs.toNat) (n : Nat) :
    tellings messages calls i n = 0 ∨
      min (2 ^ 64 - 1)
        (start + ∑ k ∈ Finset.range (tellings messages calls i n), delay (k + 1) latency) ≤
        (entryAt calls i id message n).state.nextSendTime.toNat := by
  induction n with
  | zero => exact .inl rfl
  | succ n ih =>
    have hmono := UInt64.le_iff_toNat_le.mp (nextSendTime_le_succ hpatient hi n)
    rw [tellings_succ]
    cases htold : told messages calls i n with
    | false => exact ih.imp_right fun hle => hle.trans hmono
    | true =>
      obtain ⟨mode, nowMs, latencyMs, offeredByPeer, hcall⟩ := exists_plan_of_told htold
      obtain ⟨hnext, hready⟩ := toNat_nextSendTime_told hi hcall htold
      have hmode : mode ≠ .eager := by
        rintro rfl
        exact hpatient _ _ _ (List.mem_of_getElem? hcall)
      obtain ⟨hstart, hlatency⟩ := hlater _ _ _ _ (List.mem_of_getElem? hcall)
      have hle := UInt64.le_iff_toNat_le.mp (hready hmode)
      have hwait := delay_mono (tellings messages calls i n + 1) hlatency
      have hlt := nowMs.toNat_lt
      right
      rw [hnext, Bool.toNat_true, Finset.sum_range_succ]
      rcases ih with hzero | hsum
      · rw [hzero] at hwait ⊢
        simp only [Finset.range_zero, Finset.sum_empty]
        omega
      · omega

end NoEager

/-- Outside eager mode the tellings of a message are few: if all opportunities come at or after a
time over transports of at least this latency, then by the time of a telling the waits of all the
tellings before it have passed one after the other. -/
theorem waits_add_up (messages : List (MessageId × Option SignedMessage)) (calls : List Call)
    (hpatient : ∀ nowMs latencyMs offeredByPeer, .plan .eager nowMs latencyMs offeredByPeer ∉ calls)
    (start latency : Nat) (hlater : ∀ mode nowMs latencyMs offeredByPeer,
      .plan mode nowMs latencyMs offeredByPeer ∈ calls →
        start ≤ nowMs.toNat ∧ latency ≤ latencyMs.toNat)
    (i n : Nat) (hn : told messages calls i n) :
    ∃ mode nowMs latencyMs offeredByPeer,
      calls[n]? = some (.plan mode nowMs latencyMs offeredByPeer) ∧
      min (2 ^ 64 - 1)
        (start + ∑ k ∈ Finset.range (tellings messages calls i n), delay (k + 1) latency) ≤
        nowMs.toNat := by
  obtain ⟨mode, nowMs, latencyMs, offeredByPeer, hcall⟩ := exists_plan_of_told hn
  refine ⟨mode, nowMs, latencyMs, offeredByPeer, hcall, ?_⟩
  obtain ⟨⟨id, message⟩, hi⟩ := exists_message_of_told hn
  have hmode : mode ≠ .eager := by
    rintro rfl
    exact hpatient _ _ _ (List.mem_of_getElem? hcall)
  obtain ⟨-, hready⟩ := toNat_nextSendTime_told hi hcall hn
  have hnow := UInt64.le_iff_toNat_le.mp (hready hmode)
  obtain ⟨hstart, -⟩ := hlater _ _ _ _ (List.mem_of_getElem? hcall)
  rcases sum_delay_le_nextSendTime hpatient hi hlater n with hnever | hsum
  · rw [hnever, Finset.sum_range_zero, Nat.add_zero]
    exact (min_le_right _ _).trans hstart
  · exact hsum.trans hnow

theorem waits_add_up_sample :
    let messages := [(Sample.requested, none)]
    told messages Sample.opportunities 0 3 ∧
    ∃ mode nowMs latencyMs offeredByPeer,
      Sample.opportunities[3]? = some (.plan mode nowMs latencyMs offeredByPeer) ∧
      min (2 ^ 64 - 1)
        (1000 + ∑ k ∈ Finset.range (tellings messages Sample.opportunities 0 3),
          delay (k + 1) 100) ≤ nowMs.toNat :=
  ⟨by decide, waits_add_up _ _ (by simp [Sample.opportunities]) 1000 100
    (fun mode nowMs latencyMs offeredByPeer h => by
      obtain ⟨-, rfl, rfl, -⟩ | ⟨-, rfl, rfl, -⟩ | ⟨-, rfl, rfl, -⟩ := by
        simpa [Sample.opportunities] using h
      all_goals decide) 0 3 (by decide)⟩

end Waiting

end Onestein.Sync
