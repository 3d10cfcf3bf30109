import Onestein.Record.Exact
import Onestein.Relay.Api

/-!
# Requests and responses on the wire

One record each: a type byte and a payload of fixed fields, with a blob at the end where there is
one.

## Main definitions

* `encodeRequest`, `decodeRequest` — requests on the wire.
* `encodeResponse`, `decodeResponse` — responses on the wire.

## Main results

* `single_eq_ok` — one record and nothing else.
* `decodeRequest_eq_ok`, `decodeResponse_eq_ok` — what is read is exactly what is written.
* `exact_wire` — the two together.
-/

namespace Onestein.Relay

open Crypto Record

@[match_pattern] abbrev typeRegister : UInt8 := 0
@[match_pattern] abbrev typeChallengeRequest : UInt8 := 1
@[match_pattern] abbrev typeChallenge : UInt8 := 2
@[match_pattern] abbrev typeWrite : UInt8 := 3
@[match_pattern] abbrev typeRead : UInt8 := 4
@[match_pattern] abbrev typeBlob : UInt8 := 5
@[match_pattern] abbrev typeDelete : UInt8 := 6
@[match_pattern] abbrev typeOk : UInt8 := 7
@[match_pattern] abbrev typeEmpty : UInt8 := 8
@[match_pattern] abbrev typeRefused : UInt8 := 9

/-- Why a record could not be read: framing, version, or a payload that is not what its type
requires. -/
inductive WireError where
  | malformed
  deriving DecidableEq

/-- The type byte and the payload of a request. -/
def Request.typed : Request → UInt8 × Bytes
  | .register queueId writePublic readPublic =>
    (typeRegister, queueId.toList ++ (writePublic.toList ++ readPublic.toList))
  | .challengeRequest queueId right =>
    (typeChallengeRequest, queueId.toList ++ [rightByte right])
  | .write queueId proof blob => (typeWrite, queueId.toList ++ (proof.toList ++ blob))
  | .read queueId proof => (typeRead, queueId.toList ++ proof.toList)
  | .delete queueId proof blobId =>
    (typeDelete, queueId.toList ++ (proof.toList ++ blobId.toList))

/-- Writes a request. -/
def encodeRequest (request : Request) : Except WireError Bytes :=
  let (recordType, payload) := request.typed
  (encode relayVersion recordType payload).mapError fun _ => .malformed

/-- One record, or nothing. -/
def single (bytes : Bytes) : Except WireError (UInt8 × Bytes) := do
  let (record, reader) := (Reader.new bytes relayVersion).next
  let record ← record.okOr .malformed
  let record ← record.mapError fun _ => .malformed
  -- A second record is refused rather than half read.
  if reader.next.1.isSome then .error .malformed
  else .ok (record.recordType, record.payload)

/-- The `n` bytes of a payload at an offset. -/
def field (n : Nat) (payload : Bytes) (offset : Nat) : Except WireError (Octets n) :=
  (Octets.slice? n payload offset).okOr .malformed

def exactly (payload : Bytes) (length : Nat) : Except WireError Unit :=
  if payload.length = length then .ok () else .error .malformed

/-- The right a byte of a payload names. -/
def rightOfByte : Option UInt8 → Except WireError Right
  | some 0 => .ok .write
  | some 1 => .ok .read
  | _ => .error .malformed

/-- The request a payload holds. -/
def Request.ofPayload (recordType : UInt8) (payload : Bytes) : Except WireError Request :=
  match recordType with
  | typeRegister => do
    exactly payload (queueIdLen + 64)
    .ok (.register (← field queueIdLen payload 0) (← field 32 payload queueIdLen)
      (← field 32 payload (queueIdLen + 32)))
  | typeChallengeRequest => do
    exactly payload (queueIdLen + 1)
    let right ← rightOfByte payload[queueIdLen]?
    .ok (.challengeRequest (← field queueIdLen payload 0) right)
  | typeWrite => do
    let blob ← (payload.slice? (queueIdLen + proofLen) payload.length).okOr .malformed
    .ok (.write (← field queueIdLen payload 0) (← field proofLen payload queueIdLen) blob)
  | typeRead => do
    exactly payload (queueIdLen + proofLen)
    .ok (.read (← field queueIdLen payload 0) (← field proofLen payload queueIdLen))
  | typeDelete => do
    exactly payload (queueIdLen + proofLen + hashLen)
    .ok (.delete (← field queueIdLen payload 0) (← field proofLen payload queueIdLen)
      (← field hashLen payload (queueIdLen + proofLen)))
  | _ => .error .malformed

/-- Reads a request. -/
def decodeRequest (bytes : Bytes) : Except WireError Request := do
  let (recordType, payload) ← single bytes
  Request.ofPayload recordType payload

/-- A refusal as its byte. -/
def Refusal.byte : Refusal → UInt8
  | .unknownQueue => 0
  | .badProof => 1
  | .tooLarge => 2
  | .queueFull => 3
  | .unknownChallenge => 4

/-- The type byte and the payload of a response. -/
def Response.typed : Response → UInt8 × Bytes
  | .challenge bytes => (typeChallenge, bytes.toList)
  | .blob blobId bytes => (typeBlob, blobId.toList ++ bytes)
  | .ok => (typeOk, [])
  | .empty => (typeEmpty, [])
  | .refused refusal => (typeRefused, [refusal.byte])

/-- Writes a response. -/
def encodeResponse (response : Response) : Except WireError Bytes :=
  let (recordType, payload) := response.typed
  (encode relayVersion recordType payload).mapError fun _ => .malformed

/-- The refusal a byte of a payload names. -/
def refusalOfByte : Option UInt8 → Except WireError Refusal
  | some 0 => .ok .unknownQueue
  | some 1 => .ok .badProof
  | some 2 => .ok .tooLarge
  | some 3 => .ok .queueFull
  | some 4 => .ok .unknownChallenge
  | _ => .error .malformed

/-- The response a payload holds. -/
def Response.ofPayload (recordType : UInt8) (payload : Bytes) : Except WireError Response :=
  match recordType with
  | typeChallenge => do
    exactly payload 32
    .ok (.challenge (← field 32 payload 0))
  | typeBlob => do
    let blob ← (payload.slice? hashLen payload.length).okOr .malformed
    .ok (.blob (← field hashLen payload 0) blob)
  | typeOk => do
    exactly payload 0
    .ok .ok
  | typeEmpty => do
    exactly payload 0
    .ok .empty
  | typeRefused => do
    exactly payload 1
    .ok (.refused (← refusalOfByte payload.head?))
  | _ => .error .malformed

/-- Reads a response. -/
def decodeResponse (bytes : Bytes) : Except WireError Response := do
  let (recordType, payload) ← single bytes
  Response.ofPayload recordType payload

/-! ## One record and nothing else -/

variable {recordType : UInt8} {payload b : Bytes} {request : Request} {response : Response}

theorem single_eq_ok_items : single b = .ok (recordType, payload) ↔
    ∃ record : Record, (Reader.new b relayVersion).items = [.ok record] ∧
      record.recordType = recordType ∧ record.payload = payload := by
  unfold single
  rcases hnext : (Reader.new b relayVersion).next with ⟨_ | item, after⟩
  · simp [Reader.items_of_none hnext, Except.bind_eq_ok]
  · cases item with
    | error e =>
      simp [Reader.items_of_some hnext, Except.bind_eq_ok, Except.mapError_eq_ok]
    | ok record =>
      by_cases hend : after.next.1 = none
      · simp [Reader.items_of_some hnext, Reader.items_eq_nil, Except.mapError, hend]
      · simp [Reader.items_of_some hnext, Reader.items_eq_nil, Except.mapError, hend,
          Option.isSome_iff_ne_none]

/-- One record and nothing else. -/
theorem single_eq_ok : single b = .ok (recordType, payload) ↔
    payload.length ≤ maxPayloadLen ∧ Record.wire ⟨relayVersion, recordType, payload⟩ = b := by
  rw [single_eq_ok_items]
  constructor
  · rintro ⟨⟨version, _, _⟩, hitems, rfl, rfl⟩
    obtain ⟨rfl, hlen, hwire⟩ := Reader.items_eq_singleton.mp hitems
    exact ⟨hlen, hwire⟩
  · rintro ⟨hlen, hwire⟩
    exact ⟨⟨relayVersion, recordType, payload⟩,
      Reader.items_eq_singleton.mpr ⟨rfl, hlen, hwire⟩, rfl, rfl⟩

/-! ## The shapes of payloads -/

section Fields

variable {α : Type} {n m k length : Nat} {value : α}

theorem exactly_eq_ok {u : Unit} : exactly payload length = .ok u ↔ payload.length = length := by
  simp [exactly]

theorem field_eq_ok {offset : Nat} {v : Octets n} :
    field n payload offset = .ok v ↔ Octets.slice? n payload offset = some v := by
  simp [field]

theorem array_eq_ok {make : Octets n → α} :
    (do
      exactly payload n
      .ok (make (← field n payload 0)) : Except WireError α) = .ok value ↔
      ∃ v : Octets n, v.toList = payload ∧ make v = value := by
  simp only [Except.bind_eq_ok, exactly_eq_ok, field_eq_ok, Except.ok.injEq, exists_const,
    ← Octets.slice?_whole]
  grind

theorem array_rest_eq_ok {make : Octets n → Bytes → α} :
    (do
      let rest ← (payload.slice? n payload.length).okOr .malformed
      .ok (make (← field n payload 0) rest) : Except WireError α) = .ok value ↔
      ∃ (v : Octets n) (rest : Bytes), v.toList ++ rest = payload ∧ make v rest = value := by
  simp only [Except.bind_eq_ok, Option.okOr_eq_ok, field_eq_ok, Except.ok.injEq,
    ← Octets.slice?_rest]
  grind

theorem two_arrays_eq_ok {make : Octets n → Octets m → α} :
    (do
      exactly payload (n + m)
      .ok (make (← field n payload 0) (← field m payload n)) : Except WireError α) = .ok value ↔
      ∃ (v : Octets n) (w : Octets m), v.toList ++ w.toList = payload ∧ make v w = value := by
  simp only [Except.bind_eq_ok, exactly_eq_ok, field_eq_ok, Except.ok.injEq, exists_const,
    ← Octets.slice?_slice?_whole]
  grind

theorem two_arrays_rest_eq_ok {make : Octets n → Octets m → Bytes → α} :
    (do
      let rest ← (payload.slice? (n + m) payload.length).okOr .malformed
      .ok (make (← field n payload 0) (← field m payload n) rest) : Except WireError α) =
        .ok value ↔
      ∃ (v : Octets n) (w : Octets m) (rest : Bytes),
        v.toList ++ (w.toList ++ rest) = payload ∧ make v w rest = value := by
  simp only [Except.bind_eq_ok, Option.okOr_eq_ok, field_eq_ok, Except.ok.injEq,
    ← Octets.slice?_slice?_rest]
  grind

theorem three_arrays_eq_ok {make : Octets n → Octets m → Octets k → α}
    (hlength : length = n + m + k) :
    (do
      exactly payload length
      .ok (make (← field n payload 0) (← field m payload n) (← field k payload (n + m))) :
        Except WireError α) = .ok value ↔
      ∃ (u : Octets n) (v : Octets m) (w : Octets k),
        u.toList ++ (v.toList ++ w.toList) = payload ∧ make u v w = value := by
  simp only [Except.bind_eq_ok, exactly_eq_ok, field_eq_ok, Except.ok.injEq, exists_const,
    ← Octets.slice?_slice?_slice?_whole]
  grind

theorem rightOfByte_eq_ok {byte : Option UInt8} {right : Right} :
    rightOfByte byte = .ok right ↔ byte = some (rightByte right) := by
  unfold rightOfByte
  split
  · cases right <;> simp [rightByte]
  · cases right <;> simp [rightByte]
  · cases right <;> simp_all [rightByte]

theorem refusalOfByte_eq_ok {byte : Option UInt8} {refusal : Refusal} :
    refusalOfByte byte = .ok refusal ↔ byte = some refusal.byte := by
  unfold refusalOfByte
  split
  · cases refusal <;> simp [Refusal.byte]
  · cases refusal <;> simp [Refusal.byte]
  · cases refusal <;> simp [Refusal.byte]
  · cases refusal <;> simp [Refusal.byte]
  · cases refusal <;> simp [Refusal.byte]
  · cases refusal <;> simp_all [Refusal.byte]

theorem array_right_eq_ok {make : Octets n → Right → α} :
    (do
      exactly payload (n + 1)
      let right ← rightOfByte payload[n]?
      .ok (make (← field n payload 0) right) : Except WireError α) = .ok value ↔
      ∃ (v : Octets n) (right : Right),
        v.toList ++ [rightByte right] = payload ∧ make v right = value := by
  simp only [Except.bind_eq_ok, exactly_eq_ok, field_eq_ok, rightOfByte_eq_ok, Except.ok.injEq,
    exists_const]
  constructor
  · rintro ⟨hlen, right, hright, v, hv, hmake⟩
    obtain ⟨rest, rfl⟩ := Octets.exists_append_of_slice? hv
    obtain ⟨byte, rfl⟩ := List.length_eq_one_iff.mp (by simpa using hlen : rest.length = 1)
    obtain rfl : byte = rightByte right := by simpa using hright
    exact ⟨v, right, rfl, hmake⟩
  · rintro ⟨v, right, rfl, hmake⟩
    exact ⟨by simp, right, by simp, v, by simp, hmake⟩

end Fields

/-! ## What is read is what is written -/

theorem Request.ofPayload_typed :
    Request.ofPayload request.typed.1 request.typed.2 = .ok request := by
  cases request with
  | register queueId writePublic readPublic =>
    exact (three_arrays_eq_ok rfl).mpr ⟨queueId, writePublic, readPublic, rfl, rfl⟩
  | challengeRequest queueId right => exact array_right_eq_ok.mpr ⟨queueId, right, rfl, rfl⟩
  | write queueId proof blob => exact two_arrays_rest_eq_ok.mpr ⟨queueId, proof, blob, rfl, rfl⟩
  | read queueId proof => exact two_arrays_eq_ok.mpr ⟨queueId, proof, rfl, rfl⟩
  | delete queueId proof blobId =>
    exact (three_arrays_eq_ok rfl).mpr ⟨queueId, proof, blobId, rfl, rfl⟩

theorem Request.typed_of_ofPayload (h : Request.ofPayload recordType payload = .ok request) :
    request.typed = (recordType, payload) := by
  unfold ofPayload at h
  split at h
  case h_1 =>
    have hlength : queueIdLen + 64 = queueIdLen + 32 + 32 := rfl
    obtain ⟨queueId, writePublic, readPublic, hpayload, rfl⟩ :=
      (three_arrays_eq_ok hlength).mp h
    simp [typed, hpayload]
  case h_2 =>
    obtain ⟨queueId, right, hpayload, rfl⟩ := array_right_eq_ok.mp h
    simp [typed, hpayload]
  case h_3 =>
    obtain ⟨queueId, proof, blob, hpayload, rfl⟩ := two_arrays_rest_eq_ok.mp h
    simp [typed, hpayload]
  case h_4 =>
    obtain ⟨queueId, proof, hpayload, rfl⟩ := two_arrays_eq_ok.mp h
    simp [typed, hpayload]
  case h_5 =>
    obtain ⟨queueId, proof, blobId, hpayload, rfl⟩ := (three_arrays_eq_ok rfl).mp h
    simp [typed, hpayload]
  case h_6 => cases h

theorem Response.ofPayload_typed :
    Response.ofPayload response.typed.1 response.typed.2 = .ok response := by
  cases response with
  | challenge bytes => exact array_eq_ok.mpr ⟨bytes, rfl, rfl⟩
  | blob blobId bytes => exact array_rest_eq_ok.mpr ⟨blobId, bytes, rfl, rfl⟩
  | ok => rfl
  | empty => rfl
  | refused refusal => cases refusal <;> rfl

theorem Response.typed_of_ofPayload (h : Response.ofPayload recordType payload = .ok response) :
    response.typed = (recordType, payload) := by
  unfold ofPayload at h
  split at h
  case h_1 =>
    obtain ⟨bytes, hpayload, rfl⟩ := array_eq_ok.mp h
    simp [typed, hpayload]
  case h_2 =>
    obtain ⟨blobId, bytes, hpayload, rfl⟩ := array_rest_eq_ok.mp h
    simp [typed, hpayload]
  case h_3 =>
    obtain ⟨_, hlen, hok⟩ := Except.bind_eq_ok.mp h
    obtain rfl := Except.ok.inj hok
    simp [typed, List.length_eq_zero_iff.mp (exactly_eq_ok.mp hlen)]
  case h_4 =>
    obtain ⟨_, hlen, hok⟩ := Except.bind_eq_ok.mp h
    obtain rfl := Except.ok.inj hok
    simp [typed, List.length_eq_zero_iff.mp (exactly_eq_ok.mp hlen)]
  case h_5 =>
    obtain ⟨_, hlen, h⟩ := Except.bind_eq_ok.mp h
    obtain ⟨refusal, hrefusal, hok⟩ := Except.bind_eq_ok.mp h
    obtain rfl := Except.ok.inj hok
    obtain ⟨byte, rfl⟩ := List.length_eq_one_iff.mp (exactly_eq_ok.mp hlen)
    simp [typed, Option.some.inj (refusalOfByte_eq_ok.mp hrefusal)]
  case h_6 => cases h

theorem encodeRequest_eq_ok : encodeRequest request = .ok b ↔
    request.typed.2.length ≤ maxPayloadLen ∧
      Record.wire ⟨relayVersion, request.typed.1, request.typed.2⟩ = b := by
  rw [encodeRequest, Except.mapError_eq_ok, encode_eq_ok]

theorem encodeResponse_eq_ok : encodeResponse response = .ok b ↔
    response.typed.2.length ≤ maxPayloadLen ∧
      Record.wire ⟨relayVersion, response.typed.1, response.typed.2⟩ = b := by
  rw [encodeResponse, Except.mapError_eq_ok, encode_eq_ok]

/-- Where a payload holds exactly what it was made from, one record holds exactly that. -/
theorem single_bind_eq_ok {α : Type} {ofPayload : UInt8 → Bytes → Except WireError α} {value : α}
    {typed : UInt8 × Bytes} (hread : ofPayload typed.1 typed.2 = .ok value)
    (htyped : ∀ {recordType payload}, ofPayload recordType payload = .ok value →
      typed = (recordType, payload)) :
    (do
      let (recordType, payload) ← single b
      ofPayload recordType payload : Except WireError α) = .ok value ↔
      typed.2.length ≤ maxPayloadLen ∧ Record.wire ⟨relayVersion, typed.1, typed.2⟩ = b := by
  rw [Except.bind_eq_ok]
  constructor
  · rintro ⟨⟨recordType, payload⟩, hsingle, hvalue⟩
    rw [htyped hvalue]
    exact single_eq_ok.mp hsingle
  · intro hwire
    exact ⟨typed, single_eq_ok.mpr hwire, hread⟩

/-- What is read as a request is exactly what is written for it. -/
theorem decodeRequest_eq_ok :
    decodeRequest b = .ok request ↔ encodeRequest request = .ok b := by
  rw [encodeRequest_eq_ok]
  exact single_bind_eq_ok Request.ofPayload_typed Request.typed_of_ofPayload

/-- What is read as a response is exactly what is written for it. -/
theorem decodeResponse_eq_ok :
    decodeResponse b = .ok response ↔ encodeResponse response = .ok b := by
  rw [encodeResponse_eq_ok]
  exact single_bind_eq_ok Response.ofPayload_typed Response.typed_of_ofPayload

theorem exists_encodeRequest :
    (∃ b, encodeRequest request = .ok b) ↔ request.typed.2.length ≤ maxPayloadLen := by
  simp [encodeRequest_eq_ok]

theorem exists_encodeResponse :
    (∃ b, encodeResponse response = .ok b) ↔ response.typed.2.length ≤ maxPayloadLen := by
  simp [encodeResponse_eq_ok]

/-- The relay's wire format is exact: what fits a record is written and read back, and what is read
is what would be written. -/
theorem exact_wire :
    (∀ request : Request,
      ((∃ b, encodeRequest request = .ok b) ↔ request.typed.2.length ≤ 48 * 1024) ∧
      ∀ b, encodeRequest request = .ok b → decodeRequest b = .ok request) ∧
    (∀ (b : Bytes) (request : Request), decodeRequest b = .ok request →
      encodeRequest request = .ok b) ∧
    (∀ response : Response,
      ((∃ b, encodeResponse response = .ok b) ↔ response.typed.2.length ≤ 48 * 1024) ∧
      ∀ b, encodeResponse response = .ok b → decodeResponse b = .ok response) ∧
    ∀ (b : Bytes) (response : Response), decodeResponse b = .ok response →
      encodeResponse response = .ok b :=
  ⟨fun _ => ⟨exists_encodeRequest, fun _ => decodeRequest_eq_ok.mpr⟩,
    fun _ _ => decodeRequest_eq_ok.mp,
    fun _ => ⟨exists_encodeResponse, fun _ => decodeResponse_eq_ok.mpr⟩,
    fun _ _ => decodeResponse_eq_ok.mp⟩

end Onestein.Relay
