import Onestein.Record.Codec
import Onestein.Sync.Message

/-!
# The five records

## Main definitions

* `encodeRecord`, `decodeRecords` — the records of a sync session on the wire.
* `SyncRecord.Encodable` — a record that can be written.
* `SyncRecord.Known` — a record of one of the five types.

## Main results

* `exists_encodeRecord` — which records can be written.
* `decodeRecords_encode` — records that were written are read back.
* `exact_sync_records` — and what was read is what would be written.
-/

namespace Onestein.Sync

open Crypto Record

@[match_pattern] abbrev typeAck : UInt8 := 0
@[match_pattern] abbrev typeMessage : UInt8 := 1
@[match_pattern] abbrev typeOffer : UInt8 := 2
@[match_pattern] abbrev typeRequest : UInt8 := 3
@[match_pattern] abbrev typeUnavailable : UInt8 := 4

/-- One record of a sync session. -/
inductive SyncRecord where
  | ack (ids : List MessageId)
  | message (signed : SignedMessage)
  | offer (ids : List MessageId)
  | request (ids : List MessageId)
  | unavailable (ids : List MessageId)
  | unknown (recordType : UInt8)
  deriving DecidableEq

/-- Flattens an identifier list, refusing an empty one. -/
def identifiers (ids : List MessageId) : Except Error Bytes :=
  if ids.isEmpty then .error .malformed else .ok (ids.map (·.bytes.toList)).flatten

/-- The type byte and the payload of a record. -/
def SyncRecord.typed : SyncRecord → Except Error (UInt8 × Bytes)
  | .ack ids => do .ok (typeAck, ← identifiers ids)
  | .offer ids => do .ok (typeOffer, ← identifiers ids)
  | .request ids => do .ok (typeRequest, ← identifiers ids)
  | .unavailable ids => do .ok (typeUnavailable, ← identifiers ids)
  | .message signed => do .ok (typeMessage, ← signed.message.encode signed.signature)
  -- Nothing here knows what an unknown record meant.
  | .unknown _ => .error .malformed

/-- Writes one record. -/
def encodeRecord (record : SyncRecord) : Except Error Bytes := do
  let (recordType, payload) ← record.typed
  (encode syncVersion recordType payload).mapError fun _ => .malformed

def parseIdentifiers (payload : Bytes) : Except Error (List MessageId) :=
  if payload.isEmpty ∨ payload.length % hashLen ≠ 0 then .error .malformed
  else (payload.chunks hashLen).mapM fun chunk =>
    ((Octets.ofBytes? chunk).map MessageId.mk).okOr .malformed

/-- What one record that was read says. -/
def decodeRecord (framed : Except Record.Error Record) : Except Error SyncRecord := do
  let record ← framed.mapError fun _ => .malformed
  match record.recordType with
  | typeAck => do .ok (.ack (← parseIdentifiers record.payload))
  | typeMessage => do .ok (.message (← decodeMessage record.payload))
  | typeOffer => do .ok (.offer (← parseIdentifiers record.payload))
  | typeRequest => do .ok (.request (← parseIdentifiers record.payload))
  | typeUnavailable => do .ok (.unavailable (← parseIdentifiers record.payload))
  | recordType => .ok (.unknown recordType)

/-- Reads the records of one message. -/
def decodeRecords (input : Bytes) : Except Error (List SyncRecord) :=
  (Reader.new input syncVersion).items.mapM decodeRecord

/-! ## What can be written -/

/-- The most identifiers a record can carry. -/
def maxIdentifiers : Nat := maxPayloadLen / hashLen

/-- A list of identifiers that makes a record. -/
def IsPayload (ids : List MessageId) : Prop := ids ≠ [] ∧ ids.length ≤ maxIdentifiers

/-- A record that fits its frame. -/
def SyncRecord.Encodable : SyncRecord → Prop
  | .ack ids => IsPayload ids
  | .offer ids => IsPayload ids
  | .request ids => IsPayload ids
  | .unavailable ids => IsPayload ids
  | .message signed => signed.message.body.length ≤ maxMessageBodyLen
  | .unknown _ => False

variable {ids : List MessageId} {record : SyncRecord} {payload b : Bytes}

theorem identifiers_eq_ok :
    identifiers ids = .ok payload ↔ ids ≠ [] ∧ (ids.map (·.bytes.toList)).flatten = payload := by
  rw [identifiers, Except.ite_error_eq_ok, Except.ok.injEq, List.isEmpty_iff]

theorem length_identifiers (h : identifiers ids = .ok payload) :
    payload.length = hashLen * ids.length := by
  obtain ⟨-, rfl⟩ := identifiers_eq_ok.mp h
  simp [List.length_flatten, Function.comp_def, mul_comm]

theorem encodeRecord_eq_ok :
    encodeRecord record = .ok b ↔ ∃ recordType payload, record.typed = .ok (recordType, payload) ∧
      payload.length ≤ maxPayloadLen ∧ Record.wire ⟨syncVersion, recordType, payload⟩ = b := by
  simp [encodeRecord, Except.bind_eq_ok, Except.mapError_eq_ok, encode_eq_ok]

/-- A list of identifiers fits a record exactly up to 1536 of them. -/
theorem exists_identifiers :
    (∃ payload, identifiers ids = .ok payload ∧ payload.length ≤ maxPayloadLen) ↔
      IsPayload ids := by
  constructor
  · rintro ⟨payload, hids, hlen⟩
    refine ⟨(identifiers_eq_ok.mp hids).1, ?_⟩
    rw [length_identifiers hids] at hlen
    unfold maxIdentifiers maxPayloadLen hashLen at *
    omega
  · rintro ⟨hne, hlen⟩
    have hids := identifiers_eq_ok.mpr ⟨hne, rfl⟩
    refine ⟨_, hids, ?_⟩
    rw [length_identifiers hids]
    unfold maxIdentifiers maxPayloadLen hashLen at *
    omega

theorem exists_encodeRecord_of_identifiers {recordType : UInt8}
    (htyped : record.typed = do .ok (recordType, ← identifiers ids)) :
    (∃ b, encodeRecord record = .ok b) ↔ IsPayload ids := by
  rw [← exists_identifiers]
  simp only [encodeRecord_eq_ok, htyped, Except.bind_eq_ok]
  constructor
  · rintro ⟨b, recordType', payload, ⟨payload', hids, hok⟩, hlen, -⟩
    obtain ⟨rfl, rfl⟩ := Prod.mk.inj (Except.ok.inj hok)
    exact ⟨payload', hids, hlen⟩
  · rintro ⟨payload, hids, hlen⟩
    exact ⟨_, recordType, payload, ⟨payload, hids, rfl⟩, hlen, rfl⟩

/-- A message record fits whatever body a message may have. -/
theorem exists_encodeRecord_message {signed : SignedMessage} :
    (∃ b, encodeRecord (.message signed) = .ok b) ↔
      signed.message.body.length ≤ maxMessageBodyLen := by
  simp only [encodeRecord_eq_ok, SyncRecord.typed, Except.bind_eq_ok, Message.encode_eq_ok]
  constructor
  · rintro ⟨-, -, payload, ⟨-, ⟨hbody, -⟩, -⟩, -⟩
    exact hbody
  · intro hbody
    refine ⟨_, typeMessage, _, ⟨_, ⟨hbody, rfl⟩, rfl⟩, ?_, rfl⟩
    simp only [List.length_append, Vector.length_toList, Bytes.length_be]
    unfold maxMessageBodyLen at hbody
    unfold maxPayloadLen hashLen signatureLen
    omega

/-- What can be written is exactly what fits its frame. -/
theorem exists_encodeRecord : (∃ b, encodeRecord record = .ok b) ↔ record.Encodable := by
  cases record with
  | ack ids => exact exists_encodeRecord_of_identifiers rfl
  | offer ids => exact exists_encodeRecord_of_identifiers rfl
  | request ids => exact exists_encodeRecord_of_identifiers rfl
  | unavailable ids => exact exists_encodeRecord_of_identifiers rfl
  | message signed => exact exists_encodeRecord_message
  | unknown recordType => simp [encodeRecord_eq_ok, SyncRecord.typed, SyncRecord.Encodable]

/-! ## What was written is read back -/

theorem parseIdentifiers_identifiers (h : identifiers ids = .ok payload) :
    parseIdentifiers payload = .ok ids := by
  obtain ⟨hne, rfl⟩ := identifiers_eq_ok.mp h
  have hlen := length_identifiers h
  have hpieces : ∀ piece ∈ ids.map (·.bytes.toList), piece.length = hashLen := by
    intro piece hmem
    obtain ⟨id, -, rfl⟩ := List.mem_map.mp hmem
    simp
  have hpos : 0 < ids.length := List.length_pos_iff.mpr hne
  have hempty : ¬ ((ids.map (·.bytes.toList)).flatten.isEmpty ∨
      (ids.map (·.bytes.toList)).flatten.length % hashLen ≠ 0) := by
    rw [hlen, List.isEmpty_iff, ← List.length_eq_zero_iff, hlen]
    unfold hashLen
    omega
  rw [parseIdentifiers, if_neg hempty, Bytes.chunks_flatten (by decide) hpieces, Except.mapM_eq_ok,
    List.forall₂_map_left_iff, List.forall₂_same]
  intro id _
  simp

theorem decodeRecord_typed {version recordType : UInt8}
    (h : record.typed = .ok (recordType, payload)) :
    decodeRecord (.ok ⟨version, recordType, payload⟩) = .ok record := by
  have hids {ids : List MessageId} {recordType' : UInt8} (make : List MessageId → SyncRecord)
      (h : (do .ok (recordType', ← identifiers ids)) =
        (.ok (recordType, payload) : Except Error (UInt8 × Bytes))) :
      recordType = recordType' ∧ (do .ok (make (← parseIdentifiers payload))) =
        (.ok (make ids) : Except Error SyncRecord) := by
    obtain ⟨payload', hpayload, hok⟩ := Except.bind_eq_ok.mp h
    obtain ⟨rfl, rfl⟩ := Prod.mk.inj (Except.ok.inj hok)
    simp [parseIdentifiers_identifiers hpayload]
  cases record with
  | ack ids =>
    obtain ⟨rfl, hread⟩ := hids .ack h
    exact hread
  | offer ids =>
    obtain ⟨rfl, hread⟩ := hids .offer h
    exact hread
  | request ids =>
    obtain ⟨rfl, hread⟩ := hids .request h
    exact hread
  | unavailable ids =>
    obtain ⟨rfl, hread⟩ := hids .unavailable h
    exact hread
  | message signed =>
    obtain ⟨payload', hpayload, hok⟩ := Except.bind_eq_ok.mp h
    obtain ⟨rfl, rfl⟩ := Prod.mk.inj (Except.ok.inj hok)
    have hread := decodeMessage_encode hpayload
    exact congrArg (· >>= fun signed => Except.ok (SyncRecord.message signed)) hread
  | unknown recordType => cases h

/-! ## What was read is what would be written -/

theorem identifiers_of_parseIdentifiers (h : parseIdentifiers payload = .ok ids) :
    identifiers ids = .ok payload := by
  unfold parseIdentifiers at h
  obtain ⟨hlen, hids⟩ := Except.ite_error_eq_ok.mp h
  rw [not_or, List.isEmpty_iff] at hlen
  have hchunks : List.Forall₂ (fun chunk (id : MessageId) => chunk = id.bytes.toList)
      (payload.chunks hashLen) ids := by
    refine (Except.mapM_eq_ok.mp hids).imp fun chunk id hchunk => ?_
    obtain ⟨bytes, hbytes, rfl⟩ := Option.map_eq_some_iff.mp (Option.okOr_eq_ok.mp hchunk)
    exact (Octets.ofBytes?_eq_some.mp hbytes).symm
  have hmap : payload.chunks hashLen = ids.map (·.bytes.toList) := by
    rw [← List.forall₂_eq_eq_eq, List.forall₂_map_right_iff]
    exact hchunks
  have hflatten : (ids.map (·.bytes.toList)).flatten = payload := by
    rw [← hmap, Bytes.flatten_chunks (by decide)]
  refine identifiers_eq_ok.mpr ⟨?_, hflatten⟩
  rintro rfl
  exact hlen.1 hflatten.symm

/-- A record of one of the five types. -/
def SyncRecord.Known (record : SyncRecord) : Prop := ∀ recordType, record ≠ .unknown recordType

theorem typed_of_decodeRecord {framed : Record} (h : decodeRecord (.ok framed) = .ok record)
    (hknown : record.Known) : record.typed = .ok (framed.recordType, framed.payload) := by
  have hids {make : List MessageId → SyncRecord}
      (h : (do .ok (make (← parseIdentifiers framed.payload))) =
        (.ok record : Except Error SyncRecord)) :
      ∃ ids, identifiers ids = .ok framed.payload ∧ make ids = record := by
    obtain ⟨ids, hparse, hok⟩ := Except.bind_eq_ok.mp h
    exact ⟨ids, identifiers_of_parseIdentifiers hparse, Except.ok.inj hok⟩
  obtain ⟨_, hframed, h⟩ := Except.bind_eq_ok.mp h
  obtain rfl := Except.ok.inj hframed
  split at h
  case h_1 htype =>
    obtain ⟨ids, hpayload, rfl⟩ := hids h
    simp [SyncRecord.typed, hpayload, htype]
  case h_2 htype =>
    obtain ⟨signed, hread, hok⟩ := Except.bind_eq_ok.mp h
    obtain rfl := Except.ok.inj hok
    simp [SyncRecord.typed, encode_of_decodeMessage hread, htype]
  case h_3 htype =>
    obtain ⟨ids, hpayload, rfl⟩ := hids h
    simp [SyncRecord.typed, hpayload, htype]
  case h_4 htype =>
    obtain ⟨ids, hpayload, rfl⟩ := hids h
    simp [SyncRecord.typed, hpayload, htype]
  case h_5 htype =>
    obtain ⟨ids, hpayload, rfl⟩ := hids h
    simp [SyncRecord.typed, hpayload, htype]
  case h_6 => exact absurd (Except.ok.inj h).symm (hknown _)

/-! ## Whole messages -/

/-- The writer and the reader of sync records fit each other. -/
theorem codec : Codec syncVersion SyncRecord.Known encodeRecord decodeRecord :=
  .of_typed encodeRecord_eq_ok decodeRecord_typed typed_of_decodeRecord fun h => by cases h

/-- Records that were written are read back. -/
theorem decodeRecords_encode {records : List SyncRecord} {encoded : List Bytes}
    (h : records.mapM encodeRecord = .ok encoded) :
    decodeRecords encoded.flatten = .ok records :=
  codec.mapM_items_flatten h

/-- The sync wire format is exact. What can be written is what fits its frame, and a list of such
records is read back from what is written; and bytes that are read as known records are what would
be written for these. -/
theorem exact_sync_records :
    (∀ record : SyncRecord, (∃ b, encodeRecord record = .ok b) ↔ record.Encodable) ∧
    (∀ records : List SyncRecord, (∀ record ∈ records, ∃ b, encodeRecord record = .ok b) →
      ∃ encoded, records.mapM encodeRecord = .ok encoded ∧
        decodeRecords encoded.flatten = .ok records) ∧
    ∀ (b : Bytes) (records : List SyncRecord), decodeRecords b = .ok records →
      (∀ record ∈ records, ∀ recordType, record ≠ .unknown recordType) →
      ∃ encoded, records.mapM encodeRecord = .ok encoded ∧ encoded.flatten = b := by
  refine ⟨fun record => exists_encodeRecord, fun records hall => ?_, fun b records h hknown => ?_⟩
  · obtain ⟨encoded, hencoded⟩ := Except.exists_mapM_eq_ok.mpr hall
    exact ⟨encoded, hencoded, decodeRecords_encode hencoded⟩
  · exact codec.exists_encoded h hknown

end Onestein.Sync
