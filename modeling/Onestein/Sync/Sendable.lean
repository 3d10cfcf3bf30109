import Onestein.Sync.Session

/-!
# Whether what is planned can be sent

`plan` puts every identifier of one kind into one record, and a record carries 48 KiB. Up to 1536
identifiers of each kind, everything that is planned is written and read back; with one more, the
states have moved for a record that nobody can write.

## Main definitions

* `Sendable` — records that can be written, and are read back.
* `Accounted` — an entry whose state moved for what is sent.
* `Fits` — no kind has too many identifiers.

## Main results

* `sendable_iff` — what can be written is read back.
* `plan_sendable` — what is planned can be sent exactly if it fits.
-/

namespace Onestein.Sync

/-- Every record can be written, and all of them together are read back. -/
def Sendable (records : List SyncRecord) : Prop :=
  ∃ encoded, records.mapM encodeRecord = .ok encoded ∧
    decodeRecords encoded.flatten = .ok records

theorem sendable_iff {records : List SyncRecord} :
    Sendable records ↔ ∀ record ∈ records, record.Encodable := by
  simp only [← exists_encodeRecord, ← Except.exists_mapM_eq_ok]
  constructor
  · intro ⟨encoded, hencoded, _⟩
    exact ⟨encoded, hencoded⟩
  · intro ⟨encoded, hencoded⟩
    exact ⟨encoded, hencoded, decodeRecords_encode hencoded⟩

/-- A record that sends, offers or answers for an entry. -/
def SyncRecord.Tells (entry : Shared) : SyncRecord → Prop
  | .message signed => entry.message = some signed
  | .offer ids => entry.id ∈ ids
  | .unavailable ids => entry.id ∈ ids
  | _ => False

/-- The state of an entry moved only for records that can be written: an acknowledgement is no
longer owed because it goes out, a request is answered and the backoff advances because the
peer is told. -/
structure Accounted (records : List SyncRecord) (before after : Shared) : Prop where
  acknowledged : before.state.ackPending ≠ after.state.ackPending →
    ∃ ids b, .ack ids ∈ records ∧ before.id ∈ ids ∧ encodeRecord (.ack ids) = .ok b
  told : before.state.requested ≠ after.state.requested ∨
      before.state.sendCount ≠ after.state.sendCount ∨
      before.state.nextSendTime ≠ after.state.nextSendTime ∨
      before.state.maxLatency ≠ after.state.maxLatency →
    ∃ record ∈ records, record.Tells before ∧ ∃ b, encodeRecord record = .ok b

/-- No identifier record gets more identifiers than a record carries. -/
structure Fits (mode : Mode) (nowMs : UInt64) (shared : List Shared)
    (offeredByPeer : List MessageId) : Prop where
  acks : shared.countP (·.state.ackPending) ≤ maxIdentifiers
  requests : offeredByPeer.length ≤ maxIdentifiers
  unavailable : shared.countP (Shared.gone mode nowMs) ≤ maxIdentifiers
  offers : shared.countP (Shared.offered mode nowMs) ≤ maxIdentifiers

variable {mode : Mode} {nowMs transportLatencyMs : UInt64} {shared : List Shared}
  {offeredByPeer : List MessageId}

theorem encodable_unlessEmpty {make : List MessageId → SyncRecord} {ids : List MessageId}
    (hmake : (make ids).Encodable ↔ IsPayload ids) :
    (∀ record ∈ unlessEmpty make ids, record.Encodable) ↔ ids.length ≤ maxIdentifiers := by
  by_cases hempty : ids = []
  · simp [unlessEmpty, hempty]
  · simp [unlessEmpty, hempty, hmake, IsPayload]

/-- What a plan sends fits its frames exactly if no kind has too many identifiers. -/
theorem encodable_plan (hbodies : ∀ entry ∈ shared, ∀ signed, entry.message = some signed →
      signed.message.body.length ≤ maxMessageBodyLen) :
    (∀ record ∈ (plan mode nowMs transportLatencyMs shared offeredByPeer).2, record.Encodable) ↔
      Fits mode nowMs shared offeredByPeer := by
  have hack (ids : List MessageId) : (∀ record ∈ unlessEmpty .ack ids, record.Encodable) ↔
      ids.length ≤ maxIdentifiers := encodable_unlessEmpty Iff.rfl
  have hrequest (ids : List MessageId) : (∀ record ∈ unlessEmpty .request ids, record.Encodable) ↔
      ids.length ≤ maxIdentifiers := encodable_unlessEmpty Iff.rfl
  have hgone (ids : List MessageId) : (∀ record ∈ unlessEmpty .unavailable ids, record.Encodable) ↔
      ids.length ≤ maxIdentifiers := encodable_unlessEmpty Iff.rfl
  have hoffer (ids : List MessageId) : (∀ record ∈ unlessEmpty .offer ids, record.Encodable) ↔
      ids.length ≤ maxIdentifiers := encodable_unlessEmpty Iff.rfl
  have hmessages : ∀ record ∈ (shared.filterMap (Shared.sent mode nowMs)).map SyncRecord.message,
      record.Encodable := by
    intro record hrecord
    obtain ⟨signed, hsigned, rfl⟩ := List.mem_map.mp hrecord
    obtain ⟨entry, hentry, hsent⟩ := List.mem_filterMap.mp hsigned
    exact hbodies entry hentry signed (message_of_sent hsent)
  rw [plan_eq]
  simp only [List.forall_mem_append, hack, hrequest, hgone, hoffer, length_named]
  constructor
  · intro ⟨hacks, hrequests, hunavailable, _, hoffers⟩
    exact ⟨hacks, hrequests, hunavailable, hoffers⟩
  · intro h
    exact ⟨h.acks, h.requests, h.unavailable, hmessages, h.offers⟩

theorem mem_unlessEmpty {make : List MessageId → SyncRecord} {ids : List MessageId} {id : MessageId}
    (h : id ∈ ids) : make ids ∈ unlessEmpty make ids := by
  have hne : ids ≠ [] := List.ne_nil_of_mem h
  simp [unlessEmpty, hne]

/-- An entry whose state moved is in a record of the plan. -/
theorem accounted_after {entry : Shared} (hentry : entry ∈ shared)
    (hsendable : ∀ record ∈ (plan mode nowMs transportLatencyMs shared offeredByPeer).2,
      ∃ b, encodeRecord record = .ok b) :
    Accounted (plan mode nowMs transportLatencyMs shared offeredByPeer).2 entry
      (entry.after mode nowMs transportLatencyMs) := by
  have hmem := @mem_plan mode nowMs transportLatencyMs shared offeredByPeer
  refine ⟨?_, ?_⟩
  · intro hne
    have howed : entry.state.ackPending := by simpa using hne
    have hid : entry.id ∈ named (·.state.ackPending) shared := mem_named hentry howed
    have hrecord := hmem.mpr (.inl (mem_unlessEmpty hid))
    obtain ⟨b, hb⟩ := hsendable _ hrecord
    exact ⟨_, b, hrecord, hid, hb⟩
  · intro hmoved
    by_cases hacts : entry.acts mode nowMs
    · rcases acts_cases hacts with ⟨signed, hsent⟩ | hgone | hoffered
      · have hrecord := hmem.mpr (.inr (.inr (.inr (.inl ⟨signed, ⟨entry, hentry, hsent⟩, rfl⟩))))
        exact ⟨_, hrecord, message_of_sent hsent, hsendable _ hrecord⟩
      · have hid := mem_named hentry hgone
        have hrecord := hmem.mpr (.inr (.inr (.inl (mem_unlessEmpty hid))))
        exact ⟨_, hrecord, hid, hsendable _ hrecord⟩
      · have hid := mem_named hentry hoffered
        have hrecord := hmem.mpr (.inr (.inr (.inr (.inr (mem_unlessEmpty hid)))))
        exact ⟨_, hrecord, hid, hsendable _ hrecord⟩
    · simp [Shared.after, hacts, PeerMessageState.onAcknowledged] at hmoved

/-- What is planned can be sent, and no state moved for anything else, exactly if no identifier
record gets more than 1536 identifiers. -/
theorem plan_sendable (mode : Mode) (nowMs transportLatencyMs : UInt64) (shared : List Shared)
    (offeredByPeer : List MessageId)
    (hbodies : ∀ entry ∈ shared, ∀ signed, entry.message = some signed →
      signed.message.body.length ≤ maxMessageBodyLen) :
    (Sendable (plan mode nowMs transportLatencyMs shared offeredByPeer).2 ∧
      List.Forall₂ (Accounted (plan mode nowMs transportLatencyMs shared offeredByPeer).2) shared
        (plan mode nowMs transportLatencyMs shared offeredByPeer).1) ↔
      Fits mode nowMs shared offeredByPeer := by
  rw [← encodable_plan hbodies, sendable_iff]
  constructor
  · intro ⟨hencodable, _⟩
    exact hencodable
  · intro hencodable
    refine ⟨hencodable, ?_⟩
    have hafter : (plan mode nowMs transportLatencyMs shared offeredByPeer).1 =
        shared.map (Shared.after mode nowMs transportLatencyMs) := by rw [plan_eq]
    rw [hafter, List.forall₂_map_right_iff, List.forall₂_same]
    intro entry hentry
    exact accounted_after hentry fun record hrecord =>
      exists_encodeRecord.mpr (hencodable record hrecord)

/-- A short message that the peer has not seen. -/
def unseen : Shared where
  id := ⟨.replicate 32 1⟩
  state := .new
  message := some ⟨⟨⟨.replicate 32 2⟩, 1600000000000, ⟨.replicate 32 3⟩, .replicate 32 4,
    Bytes.utf8 "hello"⟩, .replicate 64 5⟩

theorem plan_sendable_unseen : Sendable (plan .batch 0 60000 [unseen] [unseen.id]).2 := by
  have hbodies : ∀ entry ∈ [unseen], ∀ signed, entry.message = some signed →
      signed.message.body.length ≤ maxMessageBodyLen := by
    simp [unseen, maxMessageBodyLen]
    decide
  refine ((plan_sendable .batch 0 60000 [unseen] [unseen.id] hbodies).mpr ⟨?_, ?_, ?_, ?_⟩).1 <;>
    decide

/-- Messages the peer offered, which this device has not acknowledged and holds no longer. -/
def owed (n : Nat) : List Shared :=
  (List.range n).map fun i => ⟨⟨Octets.be 32 i⟩, PeerMessageState.new.onPeerOffered, none⟩

theorem ackPending_owed {n : Nat} : ∀ entry ∈ owed n, entry.state.ackPending := by
  intro entry hentry
  obtain ⟨i, -, rfl⟩ := List.mem_map.mp hentry
  rfl

theorem countP_owed (n : Nat) : (owed n).countP (·.state.ackPending) = n := by
  rw [List.countP_eq_length.mpr ackPending_owed, owed, List.length_map, List.length_range]

/-- With 1537 acknowledgements owed none of them can be sent, and none is owed any more. -/
theorem plan_owed_not_sendable :
    (∀ entry ∈ owed 1537, ∀ signed, entry.message = some signed →
      signed.message.body.length ≤ maxMessageBodyLen) ∧
    (∀ entry ∈ owed 1537, entry.state.ackPending) ∧
    ¬ Sendable (plan .interactive 0 60000 (owed 1537) []).2 ∧
    ∀ entry ∈ (plan .interactive 0 60000 (owed 1537) []).1, ¬ entry.state.ackPending := by
  have hbodies : ∀ entry ∈ owed 1537, ∀ signed, entry.message = some signed →
      signed.message.body.length ≤ maxMessageBodyLen := by
    intro entry hentry signed hsigned
    obtain ⟨i, -, rfl⟩ := List.mem_map.mp hentry
    cases hsigned
  refine ⟨hbodies, ackPending_owed, ?_, ?_⟩
  · rw [sendable_iff, encodable_plan hbodies]
    intro hfits
    have hacks := hfits.acks
    rw [countP_owed] at hacks
    exact absurd hacks (by decide)
  · intro entry hentry
    simp [ackPending_plan entry hentry]

end Onestein.Sync
