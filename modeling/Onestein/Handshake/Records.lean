import Onestein.Handshake.RootKey
import Onestein.Record.Codec

/-!
# The six records

Which type byte means what, and how long each payload has to be.

## Main definitions

* `encodeRecord`, `decodeRecords` — the records of a handshake on the wire.
* `requiredLen` — the length a type byte asks for.

## Main results

* `exists_decodeRecords` — one malformed record makes the whole message unreadable.
* `exact_handshake_records` — the wire format is exact.
-/

namespace Onestein.Handshake

open Crypto Record

@[match_pattern] abbrev typeEphemeralKeys : UInt8 := 0
@[match_pattern] abbrev typeDeviceCertificate : UInt8 := 1
@[match_pattern] abbrev typeCertificateId : UInt8 := 2
@[match_pattern] abbrev typeCertificateRequest : UInt8 := 3
@[match_pattern] abbrev typeEncapsulations : UInt8 := 4
@[match_pattern] abbrev typeConfirmation : UInt8 := 5

/-- One record of a handshake. -/
inductive HandshakeRecord where
  | ephemeralKeys (x25519 : Octets x25519Len) (kem : Octets kemEncapsulationKeyLen)
  | deviceCertificate (bytes : Bytes)
  | certificateId (id : Octets hashLen)
  | certificateRequest
  | encapsulations (toEphemeral toStatic : Octets kemCiphertextLen)
  | confirmation (mac : Octets hashLen)
  | unknown (recordType : UInt8)
  deriving DecidableEq

/-- The type byte and the payload of a record. -/
def HandshakeRecord.typed : HandshakeRecord → Except Error (UInt8 × Bytes)
  | .ephemeralKeys x25519 kem => .ok (typeEphemeralKeys, x25519.toList ++ kem.toList)
  | .deviceCertificate bytes => .ok (typeDeviceCertificate, bytes)
  | .certificateId id => .ok (typeCertificateId, id.toList)
  | .certificateRequest => .ok (typeCertificateRequest, [])
  | .encapsulations toEphemeral toStatic =>
    .ok (typeEncapsulations, toEphemeral.toList ++ toStatic.toList)
  | .confirmation mac => .ok (typeConfirmation, mac.toList)
  -- Nothing here knows what an unknown record meant.
  | .unknown recordType => .error (.wrongLength 0 recordType.toNat)

/-- Writes one record. -/
def encodeRecord (record : HandshakeRecord) : Except Error Bytes := do
  let (recordType, payload) ← record.typed
  (encode handshakeVersion recordType payload).mapError .record

/-- The `n` bytes of a payload at an offset. -/
def field (n : Nat) (payload : Bytes) (offset expected : Nat) : Except Error (Octets n) :=
  (Octets.slice? n payload offset).okOr (.wrongLength expected payload.length)

def exactly (payload : Bytes) (expected : Nat) : Except Error Unit :=
  if payload.length = expected then .ok () else .error (.wrongLength expected payload.length)

/-- What one record that was read says. -/
def decodeRecord (framed : Except Record.Error Record) : Except Error HandshakeRecord := do
  let record ← framed.mapError .record
  let payload := record.payload
  match record.recordType with
  | typeEphemeralKeys => do
    let expected := x25519Len + kemEncapsulationKeyLen
    exactly payload expected
    .ok (.ephemeralKeys (← field x25519Len payload 0 expected)
      (← field kemEncapsulationKeyLen payload x25519Len expected))
  | typeDeviceCertificate => .ok (.deviceCertificate payload)
  | typeCertificateId => do
    exactly payload hashLen
    .ok (.certificateId (← field hashLen payload 0 hashLen))
  | typeCertificateRequest => do
    exactly payload 0
    .ok .certificateRequest
  | typeEncapsulations => do
    let expected := 2 * kemCiphertextLen
    exactly payload expected
    .ok (.encapsulations (← field kemCiphertextLen payload 0 expected)
      (← field kemCiphertextLen payload kemCiphertextLen expected))
  | typeConfirmation => do
    exactly payload hashLen
    .ok (.confirmation (← field hashLen payload 0 hashLen))
  | recordType => .ok (.unknown recordType)

/-- Reads the records of one handshake message. -/
def decodeRecords (input : Bytes) : Except Error (List HandshakeRecord) :=
  (Reader.new input handshakeVersion).items.mapM decodeRecord

variable {record : HandshakeRecord} {framed : Record} {payload b : Bytes}

/-! ## Payloads of one and of two arrays -/

section Fields

variable {α : Type} {n m offset expected : Nat} {value : α}

theorem exactly_eq_ok {u : Unit} :
    exactly payload expected = .ok u ↔ payload.length = expected := by
  simp [exactly]

theorem field_eq_ok {v : Octets n} :
    field n payload offset expected = .ok v ↔ Octets.slice? n payload offset = some v := by
  simp [field]

theorem array_eq_ok {make : Octets n → α} :
    (do
      exactly payload n
      .ok (make (← field n payload 0 n)) : Except Error α) = .ok value ↔
      ∃ v : Octets n, v.toList = payload ∧ make v = value := by
  simp only [Except.bind_eq_ok, exactly_eq_ok, field_eq_ok, Except.ok.injEq, exists_const,
    ← Octets.slice?_whole]
  grind

theorem two_arrays_eq_ok {make : Octets n → Octets m → α} (hexpected : expected = n + m) :
    (do
      exactly payload expected
      .ok (make (← field n payload 0 expected) (← field m payload n expected)) :
        Except Error α) = .ok value ↔
      ∃ (v : Octets n) (w : Octets m), v.toList ++ w.toList = payload ∧ make v w = value := by
  simp only [Except.bind_eq_ok, exactly_eq_ok, field_eq_ok, Except.ok.injEq, exists_const,
    ← Octets.slice?_slice?_whole]
  grind

theorem exists_array {make : Octets n → α} :
    (∃ value, (do
      exactly payload n
      .ok (make (← field n payload 0 n)) : Except Error α) = .ok value) ↔ payload.length = n := by
  simp only [array_eq_ok]
  constructor
  · rintro ⟨-, v, rfl, -⟩
    simp
  · intro hlen
    obtain ⟨v, hv⟩ := Octets.exists_toList hlen
    exact ⟨make v, v, hv, rfl⟩

theorem exists_two_arrays {make : Octets n → Octets m → α} (hexpected : expected = n + m) :
    (∃ value, (do
      exactly payload expected
      .ok (make (← field n payload 0 expected) (← field m payload n expected)) :
        Except Error α) = .ok value) ↔ payload.length = expected := by
  simp only [two_arrays_eq_ok hexpected]
  constructor
  · rintro ⟨-, v, w, rfl, -⟩
    simp [hexpected]
  · intro hlen
    obtain ⟨v, hv⟩ := Octets.exists_toList (n := n) (b := payload.take n) (by simp; omega)
    obtain ⟨w, hw⟩ := Octets.exists_toList (n := m) (b := payload.drop n) (by simp; omega)
    exact ⟨make v w, v, w, by rw [hv, hw, List.take_append_drop], rfl⟩

end Fields

theorem encodeRecord_eq_ok :
    encodeRecord record = .ok b ↔ ∃ recordType payload, record.typed = .ok (recordType, payload) ∧
      payload.length ≤ maxPayloadLen ∧
      Record.wire ⟨handshakeVersion, recordType, payload⟩ = b := by
  simp [encodeRecord, Except.bind_eq_ok, Except.mapError_eq_ok, encode_eq_ok]

/-! ## What can be written -/

/-- A record that fits its frame. Only a certificate is of any length. -/
def HandshakeRecord.Encodable : HandshakeRecord → Prop
  | .deviceCertificate bytes => bytes.length ≤ maxPayloadLen
  | .unknown _ => False
  | _ => True

/-- What can be written is exactly what fits its frame. -/
theorem exists_encodeRecord : (∃ b, encodeRecord record = .ok b) ↔ record.Encodable := by
  simp only [encodeRecord_eq_ok]
  cases record <;>
    simp [HandshakeRecord.typed, HandshakeRecord.Encodable, maxPayloadLen, hashLen, x25519Len,
      kemEncapsulationKeyLen, kemCiphertextLen]

/-! ## What was written is read back -/

theorem decodeRecord_typed {version recordType : UInt8}
    (h : record.typed = .ok (recordType, payload)) :
    decodeRecord (.ok ⟨version, recordType, payload⟩) = .ok record := by
  cases record with
  | ephemeralKeys x25519 kem =>
    obtain ⟨rfl, rfl⟩ := Prod.mk.inj (Except.ok.inj h)
    exact (two_arrays_eq_ok rfl).mpr ⟨x25519, kem, rfl, rfl⟩
  | deviceCertificate bytes =>
    obtain ⟨rfl, rfl⟩ := Prod.mk.inj (Except.ok.inj h)
    rfl
  | certificateId id =>
    obtain ⟨rfl, rfl⟩ := Prod.mk.inj (Except.ok.inj h)
    exact array_eq_ok.mpr ⟨id, rfl, rfl⟩
  | certificateRequest =>
    obtain ⟨rfl, rfl⟩ := Prod.mk.inj (Except.ok.inj h)
    rfl
  | encapsulations toEphemeral toStatic =>
    obtain ⟨rfl, rfl⟩ := Prod.mk.inj (Except.ok.inj h)
    exact (two_arrays_eq_ok rfl).mpr ⟨toEphemeral, toStatic, rfl, rfl⟩
  | confirmation mac =>
    obtain ⟨rfl, rfl⟩ := Prod.mk.inj (Except.ok.inj h)
    exact array_eq_ok.mpr ⟨mac, rfl, rfl⟩
  | unknown recordType => cases h

/-! ## What was read is what would be written -/

/-- A record of one of the six types. -/
def HandshakeRecord.Known (record : HandshakeRecord) : Prop :=
  ∀ recordType, record ≠ .unknown recordType

theorem typed_of_decodeRecord (h : decodeRecord (.ok framed) = .ok record)
    (hknown : record.Known) : record.typed = .ok (framed.recordType, framed.payload) := by
  obtain ⟨_, hframed, h⟩ := Except.bind_eq_ok.mp h
  obtain rfl := Except.ok.inj hframed
  dsimp only at h
  split at h
  case h_1 htype =>
    obtain ⟨x25519, kem, hpayload, rfl⟩ := (two_arrays_eq_ok rfl).mp h
    simp [HandshakeRecord.typed, hpayload, htype]
  case h_2 htype =>
    obtain rfl := Except.ok.inj h
    simp [HandshakeRecord.typed, htype]
  case h_3 htype =>
    obtain ⟨id, hpayload, rfl⟩ := array_eq_ok.mp h
    simp [HandshakeRecord.typed, hpayload, htype]
  case h_4 htype =>
    obtain ⟨_, hlen, hok⟩ := Except.bind_eq_ok.mp h
    obtain rfl := Except.ok.inj hok
    simp [HandshakeRecord.typed, List.length_eq_zero_iff.mp (exactly_eq_ok.mp hlen), htype]
  case h_5 htype =>
    obtain ⟨toEphemeral, toStatic, hpayload, rfl⟩ := (two_arrays_eq_ok (Nat.two_mul _)).mp h
    simp [HandshakeRecord.typed, hpayload, htype]
  case h_6 htype =>
    obtain ⟨mac, hpayload, rfl⟩ := array_eq_ok.mp h
    simp [HandshakeRecord.typed, hpayload, htype]
  case h_7 => exact absurd (Except.ok.inj h).symm (hknown _)

/-! ## Malformed records -/

/-- The length a payload of a type has to have; a certificate and what is not known have any. -/
def requiredLen : UInt8 → Option Nat
  | typeEphemeralKeys => some (x25519Len + kemEncapsulationKeyLen)
  | typeCertificateId => some hashLen
  | typeCertificateRequest => some 0
  | typeEncapsulations => some (2 * kemCiphertextLen)
  | typeConfirmation => some hashLen
  | _ => none

/-- A record that can be read: framed, and of the length its type asks for. -/
def WellFormed (framed : Except Record.Error Record) : Prop :=
  ∃ record, framed = .ok record ∧ ∀ n ∈ requiredLen record.recordType, record.payload.length = n

theorem wellFormed_of_some {expected : Nat} (h : requiredLen framed.recordType = some expected) :
    WellFormed (.ok framed) ↔ framed.payload.length = expected := by
  simp [WellFormed, h]

theorem wellFormed_of_none (h : requiredLen framed.recordType = none) :
    WellFormed (.ok framed) := by
  simp [WellFormed, h]

theorem exists_decodeRecord_ok :
    (∃ record, decodeRecord (.ok framed) = .ok record) ↔ WellFormed (.ok framed) := by
  obtain ⟨version, recordType, payload⟩ := framed
  unfold decodeRecord
  simp only [Except.mapError, Except.ok_bind]
  split
  · rw [wellFormed_of_some rfl]
    exact exists_two_arrays rfl
  · exact iff_of_true ⟨_, rfl⟩ (wellFormed_of_none rfl)
  · rw [wellFormed_of_some rfl]
    exact exists_array
  · rw [wellFormed_of_some rfl]
    simp [Except.bind_eq_ok, exactly_eq_ok]
  · rw [wellFormed_of_some rfl]
    exact exists_two_arrays (Nat.two_mul _)
  · rw [wellFormed_of_some rfl]
    exact exists_array
  · refine iff_of_true ⟨_, rfl⟩ (wellFormed_of_none ?_)
    unfold requiredLen
    split <;> simp_all

theorem exists_decodeRecord {framed : Except Record.Error Record} :
    (∃ record, decodeRecord framed = .ok record) ↔ WellFormed framed := by
  cases framed with
  | error e => simp [decodeRecord, WellFormed, Except.bind_eq_ok, Except.mapError_eq_ok]
  | ok framed => exact exists_decodeRecord_ok

/-- One malformed record makes the whole message unreadable. -/
theorem exists_decodeRecords {input : Bytes} :
    (∃ records, decodeRecords input = .ok records) ↔
      ∀ framed ∈ (Reader.new input handshakeVersion).items, WellFormed framed := by
  simp only [decodeRecords, Reader.exists_mapM_items, exists_decodeRecord]

/-! ## Whole messages -/

/-- The writer and the reader of handshake records fit each other. -/
theorem codec : Codec handshakeVersion HandshakeRecord.Known encodeRecord decodeRecord :=
  .of_typed encodeRecord_eq_ok decodeRecord_typed typed_of_decodeRecord fun h => by cases h

/-- The handshake wire format is exact. Records whose certificates fit are read back from what is
written; bytes that are read as known records are what would be written for these; and one record
that is malformed makes the whole message unreadable. -/
theorem exact_handshake_records :
    (∀ records : List HandshakeRecord, (∀ record ∈ records, ∀ recordType,
        record ≠ .unknown recordType) →
      (∀ certificate, .deviceCertificate certificate ∈ records →
        certificate.length ≤ 48 * 1024) →
      ∃ encoded, records.mapM encodeRecord = .ok encoded ∧
        decodeRecords encoded.flatten = .ok records) ∧
    (∀ (b : Bytes) (records : List HandshakeRecord), decodeRecords b = .ok records →
      (∀ record ∈ records, ∀ recordType, record ≠ .unknown recordType) →
      ∃ encoded, records.mapM encodeRecord = .ok encoded ∧ encoded.flatten = b) ∧
    ∀ b : Bytes, (∃ records, decodeRecords b = .ok records) ↔
      ∀ framed ∈ (Reader.new b handshakeVersion).items, WellFormed framed := by
  refine ⟨fun records hknown hfit => ?_, fun b records h hknown => codec.exists_encoded h hknown,
    fun b => exists_decodeRecords⟩
  have hall : ∀ record ∈ records, ∃ b, encodeRecord record = .ok b := by
    intro record hmem
    apply exists_encodeRecord.mpr
    cases record with
    | deviceCertificate certificate => exact hfit certificate hmem
    | unknown recordType => exact hknown _ hmem recordType rfl
    | _ => trivial
  obtain ⟨encoded, hencoded⟩ := Except.exists_mapM_eq_ok.mpr hall
  exact ⟨encoded, hencoded, codec.mapM_items_flatten hencoded⟩

end Onestein.Handshake
