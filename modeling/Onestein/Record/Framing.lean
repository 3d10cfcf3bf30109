import Onestein.Lib.Bytes
import Onestein.Lib.Fallible

/-!
# Record framing

The framing shared by the handshake and the sync layer: a version, a type and a length before
every payload. A reader takes one record after the other and stops at the first it refuses.

## Main definitions

* `encode` — the bytes of one record.
* `Reader.next`, `Reader.items` — reading, one record and all of them.

## Main results

* `Reader.next_cases` — everything a reader can do next.
* `Reader.items_wires` — a reader hands out the records that were written.
-/

set_option linter.dupNamespace false

namespace Onestein.Record

/-- Bytes of header before every payload. -/
def headerLen : Nat := 4

/-- The longest payload a record may carry. -/
def maxPayloadLen : Nat := 48 * 1024

structure Record where
  version : UInt8
  recordType : UInt8
  payload : Bytes
  deriving DecidableEq

/-- Why a record could not be written or read. -/
inductive Error where
  | payloadTooLong (given : Nat)
  | truncated (expected given : Nat)
  | unknownVersion (expected given : UInt8)
  deriving DecidableEq

/-- A record as it lies on the wire. -/
def Record.wire (record : Record) : Bytes :=
  record.version :: record.recordType ::
    (Bytes.be 2 record.payload.length ++ record.payload)

/-- Writes one record. -/
def encode (version recordType : UInt8) (payload : Bytes) : Except Error Bytes :=
  if payload.length < 2 ^ 16 ∧ payload.length ≤ maxPayloadLen then
    .ok (Record.wire ⟨version, recordType, payload⟩)
  else .error (.payloadTooLong payload.length)

/-- Reads a sequence of records from one stream. -/
structure Reader where
  input : Bytes
  pos : Nat
  version : UInt8
  stopped : Bool

namespace Reader

/-- A reader over `input`, speaking one layer version. -/
def new (input : Bytes) (version : UInt8) : Reader := ⟨input, 0, version, false⟩

/-- Bytes not yet consumed. -/
def remaining (reader : Reader) : Nat := reader.input.length - reader.pos

/-- The next record or refusal, and the reader afterwards. -/
def next (reader : Reader) : Option (Except Error Record) × Reader :=
  if reader.stopped then (none, reader)
  else if reader.remaining = 0 then (none, reader)
  else
    -- Every refusal stops the reader: what follows it is at an offset that is guessed.
    let stopped := { reader with stopped := true }
    if reader.remaining < headerLen then
      (some (.error (.truncated headerLen reader.remaining)), stopped)
    else
      let header := reader.input.drop reader.pos
      let version := header.getD 0 0
      if version ≠ reader.version then
        (some (.error (.unknownVersion reader.version version)), stopped)
      else
        let length := Bytes.val [header.getD 2 0, header.getD 3 0]
        if maxPayloadLen < length then (some (.error (.payloadTooLong length)), stopped)
        else
          let available := reader.remaining - headerLen
          if available < length then (some (.error (.truncated length available)), stopped)
          else
            let start := reader.pos + headerLen
            if reader.input.length < start + length then (none, stopped)
            else
              (some (.ok ⟨version, header.getD 1 0, (reader.input.drop start).take length⟩),
                { reader with pos := start + length })

end Reader

variable {reader : Reader} {record : Record}

@[simp] theorem Record.length_wire (record : Record) :
    record.wire.length = headerLen + record.payload.length := by
  simp [wire, headerLen]
  omega

theorem encode_eq_ok {version recordType : UInt8} {payload b : Bytes} :
    encode version recordType payload = .ok b ↔
      payload.length ≤ maxPayloadLen ∧ Record.wire ⟨version, recordType, payload⟩ = b := by
  rw [encode, Except.ite_eq_ok, Except.ok.injEq]
  refine and_congr_left fun _ => ?_
  unfold maxPayloadLen
  omega

/-- A header and enough bytes behind it are a record. -/
theorem exists_wire {ahead : Bytes} (hheader : headerLen ≤ ahead.length)
    (hlen : Bytes.val [ahead.getD 2 0, ahead.getD 3 0] ≤ ahead.length - headerLen) :
    ∃ record : Record, record.version = ahead.getD 0 0 ∧
      record.payload.length = Bytes.val [ahead.getD 2 0, ahead.getD 3 0] ∧
      record.wire <+: ahead := by
  obtain ⟨version, recordType, high, low, rest, rfl⟩ :
      ∃ version recordType high low rest, ahead = version :: recordType :: high :: low :: rest := by
    rcases ahead with _ | ⟨a, _ | ⟨b, _ | ⟨c, _ | ⟨d, rest⟩⟩⟩⟩
    · simp [headerLen] at hheader
    · simp [headerLen] at hheader
    · simp [headerLen] at hheader
    · simp [headerLen] at hheader
    · exact ⟨a, b, c, d, rest, rfl⟩
  simp only [List.getD_cons_zero, List.getD_cons_succ] at hlen ⊢
  generalize hn : Bytes.val [high, low] = n at hlen ⊢
  have htake : (rest.take n).length = n := by
    rw [List.length_take]
    simp only [List.length_cons, headerLen] at hlen
    omega
  have hbe : Bytes.be 2 n = [high, low] := hn ▸ Bytes.be_val [high, low]
  refine ⟨⟨version, recordType, rest.take n⟩, rfl, htake, rest.drop n, ?_⟩
  rw [Record.wire, htake, hbe]
  simp

namespace Reader

/-- A record that lies ahead is handed out. -/
theorem next_of_wire (hgo : reader.stopped = false) (hversion : record.version = reader.version)
    (hlen : record.payload.length ≤ maxPayloadLen)
    (hahead : record.wire <+: reader.input.drop reader.pos) :
    reader.next = (some (.ok record), { reader with pos := reader.pos + record.wire.length }) := by
  obtain ⟨rest, hrest⟩ := hahead
  have hfits : record.payload.length < 256 ^ 2 := by
    unfold maxPayloadLen at hlen
    omega
  obtain ⟨high, low, hlength, hval⟩ := Bytes.exists_be_two hfits
  have hheader : reader.input.drop reader.pos =
      record.version :: record.recordType :: high :: low :: (record.payload ++ rest) := by
    rw [← hrest, Record.wire, hlength]
    simp
  have hinput := congrArg List.length hheader
  have hpayload : reader.input.drop (reader.pos + headerLen) = record.payload ++ rest := by
    rw [← List.drop_drop, hheader]
    rfl
  simp only [List.length_drop, List.length_cons, List.length_append] at hinput
  have hremaining : reader.remaining = record.payload.length + rest.length + headerLen := by
    rw [remaining, headerLen]
    omega
  have hfit :
      reader.input.length = reader.pos + headerLen + record.payload.length + rest.length := by
    rw [headerLen]
    omega
  unfold next
  dsimp only
  rw [hheader, hpayload, hremaining]
  simp only [List.getD_cons_zero, List.getD_cons_succ, hval]
  rw [if_neg (by simp [hgo]), if_neg (by simp [headerLen]), if_neg (by omega),
    if_neg (by simp [hversion]), if_neg (by omega), if_neg (by omega), if_neg (by omega),
    List.take_left, Record.length_wire, Nat.add_assoc]

/-- A reader that is not done refuses what lies ahead, or hands out the record that does. -/
theorem next_cases (reader : Reader) :
    ((reader.stopped ∨ reader.remaining = 0) ∧ reader.next = (none, reader)) ∨
    (reader.stopped = false ∧ reader.remaining ≠ 0 ∧
      ∃ e, reader.next = (some (.error e), { reader with stopped := true })) ∨
    (reader.stopped = false ∧ ∃ record : Record, record.version = reader.version ∧
      record.payload.length ≤ maxPayloadLen ∧ record.wire <+: reader.input.drop reader.pos ∧
      reader.next =
        (some (.ok record), { reader with pos := reader.pos + record.wire.length })) := by
  by_cases hstopped : reader.stopped
  · exact .inl ⟨.inl hstopped, by simp [next, hstopped]⟩
  by_cases hdone : reader.remaining = 0
  · exact .inl ⟨.inr hdone, by simp [next, hdone]⟩
  have hgo : reader.stopped = false := by simpa using hstopped
  by_cases hahead : ∃ record : Record, record.version = reader.version ∧
      record.payload.length ≤ maxPayloadLen ∧ record.wire <+: reader.input.drop reader.pos
  · obtain ⟨record, hversion, hlen, hwire⟩ := hahead
    exact .inr (.inr ⟨hgo, record, hversion, hlen, hwire, next_of_wire hgo hversion hlen hwire⟩)
  refine .inr (.inl ⟨hgo, hdone, ?_⟩)
  unfold next
  dsimp only
  rw [if_neg hstopped, if_neg hdone]
  split_ifs with hheader hversion hlong hshort hend
  · exact ⟨_, rfl⟩
  · exact ⟨_, rfl⟩
  · exact ⟨_, rfl⟩
  · exact ⟨_, rfl⟩
  · unfold remaining at *
    omega
  · obtain ⟨record, hfirst, hpayload, hwire⟩ : ∃ record : Record,
        record.version = (reader.input.drop reader.pos).getD 0 0 ∧ _ :=
      exists_wire (by simpa [remaining] using hheader)
        (by simpa [remaining] using hshort)
    exact absurd ⟨record, hfirst.trans (by simpa using hversion), by omega, hwire⟩ hahead

/-- A bound on what is still handed out. -/
def fuel (reader : Reader) : Nat := if reader.stopped then 0 else reader.remaining + 1

theorem fuel_next {item : Except Error Record} {after : Reader}
    (h : reader.next = (some item, after)) : after.fuel < reader.fuel := by
  obtain ⟨-, hnext⟩ | ⟨hgo, -, e, hnext⟩ | ⟨hgo, record, -, -, hwire, hnext⟩ := reader.next_cases
  · rw [hnext] at h
    cases h
  · rw [hnext] at h
    cases h
    simp [fuel, hgo]
  · rw [hnext] at h
    cases h
    have hle := hwire.length_le
    rw [List.length_drop, Record.length_wire, headerLen] at hle
    simp only [fuel, hgo, remaining, Record.length_wire, headerLen, Bool.false_eq_true, if_false]
    omega

/-- Everything the reader hands out, in order. -/
def items (reader : Reader) : List (Except Error Record) :=
  match _h : reader.next with
  | (none, _) => []
  | (some item, after) => item :: items after
termination_by reader.fuel
decreasing_by exact fuel_next _h

theorem items_of_none {after : Reader} (h : reader.next = (none, after)) : reader.items = [] := by
  rw [items]
  split
  · rfl
  · simp_all

theorem items_of_some {item : Except Error Record} {after : Reader}
    (h : reader.next = (some item, after)) : reader.items = item :: after.items := by
  rw [items]
  split
  · simp_all
  · simp_all

/-- A reader hands out the records that were written, and then ends. -/
theorem items_wires {records : List Record} (hgo : reader.stopped = false)
    (hrecords : ∀ record ∈ records, record.version = reader.version ∧
      record.payload.length ≤ maxPayloadLen)
    (hinput : reader.input.drop reader.pos = (records.map Record.wire).flatten) :
    reader.items = records.map .ok := by
  induction records generalizing reader with
  | nil =>
    have hdone : reader.remaining = 0 := by
      rw [remaining, ← List.length_drop, hinput]
      rfl
    have hnext : reader.next = (none, reader) := by simp [next, hdone]
    exact items_of_none hnext
  | cons record records ih =>
    obtain ⟨hversion, hlen⟩ := hrecords record List.mem_cons_self
    have hnext := next_of_wire hgo hversion hlen ⟨_, hinput.symm⟩
    rw [items_of_some hnext, List.map_cons]
    congr 1
    refine ih hgo (fun other hmem => hrecords other (List.mem_cons_of_mem _ hmem)) ?_
    rw [← List.drop_drop, hinput]
    exact List.drop_left

end Reader

end Onestein.Record
