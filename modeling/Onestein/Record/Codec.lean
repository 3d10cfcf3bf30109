import Onestein.Record.Exact

/-!
# Codecs over the framing

A layer gives type bytes and payloads a meaning, one record at a time. What holds of one record
then holds of a whole message.

## Main definitions

* `Codec` — a writer and a reader of single records that fit each other.

## Main results

* `Codec.of_typed` — a codec from the type byte and the payload of a value.
* `Codec.mapM_items_flatten` — what was written, one record after the other, is read back.
* `Codec.exists_encoded` — what was read is what would be written.
* `Reader.exists_mapM_items` — a message is read exactly if each of its records is.
-/

namespace Onestein.Record

variable {α ε ε' : Type} {version : UInt8} {known : α → Prop} {write : α → Except ε' Bytes}
  {read : Except Error Record → Except ε α}

namespace Reader

/-- A message is read exactly if each of its records is. -/
theorem exists_mapM_items {input : Bytes} :
    (∃ values, (Reader.new input version).items.mapM read = .ok values) ↔
      ∀ item ∈ (Reader.new input version).items, ∃ value, read item = .ok value :=
  Except.exists_mapM_eq_ok

end Reader

/-- A writer and a reader of single records that fit each other. There may be records that are read
and that nobody writes. -/
structure Codec (version : UInt8) (known : α → Prop) (write : α → Except ε' Bytes)
    (read : Except Error Record → Except ε α) : Prop where
  written : ∀ {value b}, write value = .ok b → ∃ record : Record, record.version = version ∧
    record.payload.length ≤ maxPayloadLen ∧ record.wire = b ∧ read (.ok record) = .ok value
  writable : ∀ {record value}, read (.ok record) = .ok value → record.version = version →
    record.payload.length ≤ maxPayloadLen → known value → write value = .ok record.wire
  refused : ∀ {e value}, read (.error e) ≠ .ok value

namespace Codec

/-- A codec from the type byte and the payload of a value. -/
theorem of_typed {typed : α → Except ε' (UInt8 × Bytes)}
    (hwrite : ∀ {value b}, write value = .ok b ↔ ∃ recordType payload,
      typed value = .ok (recordType, payload) ∧ payload.length ≤ maxPayloadLen ∧
      Record.wire ⟨version, recordType, payload⟩ = b)
    (hread : ∀ {value recordType payload}, typed value = .ok (recordType, payload) →
      read (.ok ⟨version, recordType, payload⟩) = .ok value)
    (htyped : ∀ {record value}, read (.ok record) = .ok value → known value →
      typed value = .ok (record.recordType, record.payload))
    (hrefused : ∀ {e value}, read (.error e) ≠ .ok value) : Codec version known write read where
  written h := by
    obtain ⟨recordType, payload, hvalue, hlen, hwire⟩ := hwrite.mp h
    exact ⟨⟨version, recordType, payload⟩, rfl, hlen, hwire, hread hvalue⟩
  writable := by
    rintro ⟨version, recordType, payload⟩ value h rfl hlen hknown
    exact hwrite.mpr ⟨recordType, payload, htyped h hknown, hlen, rfl⟩
  refused := hrefused

/-- What was written, one record after the other, is read back. -/
theorem mapM_items_flatten (codec : Codec version known write read) {values : List α}
    {encoded : List Bytes} (h : values.mapM write = .ok encoded) :
    (Reader.new encoded.flatten version).items.mapM read = .ok values := by
  rw [Except.mapM_eq_ok] at h
  obtain ⟨records, hencoded, hframed, hread⟩ : ∃ records : List Record,
      encoded = records.map Record.wire ∧
      (∀ record ∈ records, record.version = version ∧ record.payload.length ≤ maxPayloadLen) ∧
      List.Forall₂ (fun record value => read (.ok record) = .ok value) records values := by
    induction h with
    | nil => exact ⟨[], rfl, by simp, .nil⟩
    | cons hwrite _ ih =>
      obtain ⟨records, rfl, hframed, hread⟩ := ih
      obtain ⟨record, hversion, hlen, rfl, hvalue⟩ := codec.written hwrite
      exact ⟨record :: records, rfl, List.forall_mem_cons.mpr ⟨⟨hversion, hlen⟩, hframed⟩,
        .cons hvalue hread⟩
  subst hencoded
  rw [Reader.items_wires rfl hframed rfl, Except.mapM_eq_ok, List.forall₂_map_left_iff]
  exact hread

theorem forall_writable (codec : Codec version known write read) {records : List Record}
    {values : List α}
    (h : List.Forall₂ (fun record value => read (.ok record) = .ok value) records values)
    (hframed : ∀ record ∈ records, record.version = version ∧
      record.payload.length ≤ maxPayloadLen)
    (hknown : ∀ value ∈ values, known value) :
    List.Forall₂ (fun value record => write value = .ok record.wire) values records := by
  induction h with
  | nil => exact .nil
  | cons hvalue _ ih =>
    obtain ⟨⟨hversion, hlen⟩, hframed⟩ := List.forall_mem_cons.mp hframed
    obtain ⟨hfirst, hknown⟩ := List.forall_mem_cons.mp hknown
    exact .cons (codec.writable hvalue hversion hlen hfirst) (ih hframed hknown)

/-- What was read, if all of it is known, is what would be written. -/
theorem exists_encoded (codec : Codec version known write read) {input : Bytes} {values : List α}
    (h : (Reader.new input version).items.mapM read = .ok values)
    (hknown : ∀ value ∈ values, known value) :
    ∃ encoded, values.mapM write = .ok encoded ∧ encoded.flatten = input := by
  obtain ⟨records, hrecords⟩ : ∃ records : List Record,
      (Reader.new input version).items = records.map .ok := by
    have hok : (Reader.new input version).items ∈ Set.range (List.map Except.ok) := by
      rw [Set.range_list_map]
      intro item hmem
      obtain ⟨value, hvalue⟩ := Reader.exists_mapM_items.mp ⟨values, h⟩ item hmem
      cases item with
      | error e => exact absurd hvalue codec.refused
      | ok record => exact ⟨record, rfl⟩
    obtain ⟨records, hrecords⟩ := hok
    exact ⟨records, hrecords.symm⟩
  obtain ⟨hframed, hinput⟩ := Reader.items_eq_map_ok.mp hrecords
  rw [hrecords, Except.mapM_eq_ok, List.forall₂_map_left_iff] at h
  refine ⟨records.map Record.wire, ?_, hinput⟩
  rw [Except.mapM_eq_ok, List.forall₂_map_right_iff]
  exact codec.forall_writable h hframed hknown

end Codec

end Onestein.Record
