import Onestein.Record.Framing

/-!
# Record framing is exact

A reader never skips or drops bytes: the records it hands out are the bytes it has consumed, it
refuses at most once, and without a refusal it ends where the input does.

## Main definitions

* `Reader.drained` — the reader after everything was handed out.
* `Reader.Reads` — a whole run of a reader: its records, its refusals and the reader left over.

## Main results

* `Reader.exists_reads` — every reader has a run.
* `Reader.items_written`, `Reader.Reads.consumed_new` — what a run hands out and uses up.
* `exact_framing` — framing in both directions.
-/

namespace Onestein.Record

namespace Reader

variable {reader after last : Reader} {record : Record} {records : List Record}
  {refusals : List Error}

theorem next_stopped :
    next { reader with stopped := true } = (none, { reader with stopped := true }) := by
  simp [next]

/-- The reader after everything was handed out. -/
def drained (reader : Reader) : Reader :=
  match _h : reader.next with
  | (none, last) => last
  | (some _, after) => drained after
termination_by reader.fuel
decreasing_by exact fuel_next _h

theorem drained_of_none (h : reader.next = (none, last)) : reader.drained = last := by
  rw [drained]
  split
  · simp_all
  · simp_all

theorem drained_of_some {item : Except Error Record} (h : reader.next = (some item, after)) :
    reader.drained = after.drained := by
  rw [drained]
  split
  · simp_all
  · simp_all

/-- A whole run of a reader. A refusal ends it, as the end of the input does. -/
inductive Reads : Reader → List Record → List Error → Reader → Prop
  | done {reader : Reader} (h : reader.next = (none, reader)) (hend : reader.remaining = 0) :
      Reads reader [] [] reader
  | refused {reader : Reader} {e : Error}
      (h : reader.next = (some (.error e), { reader with stopped := true })) :
      Reads reader [] [e] { reader with stopped := true }
  | record {reader last : Reader} {record : Record} {records : List Record}
      {refusals : List Error} (hversion : record.version = reader.version)
      (hlen : record.payload.length ≤ maxPayloadLen)
      (hwire : record.wire <+: reader.input.drop reader.pos)
      (h : reader.next =
        (some (.ok record), { reader with pos := reader.pos + record.wire.length }))
      (hrest : Reads { reader with pos := reader.pos + record.wire.length } records refusals last) :
      Reads reader (record :: records) refusals last

theorem exists_reads (reader : Reader) (hgo : reader.stopped = false) :
    ∃ records refusals last, reader.Reads records refusals last := by
  induction hn : reader.fuel using Nat.strong_induction_on generalizing reader with
  | _ n ih =>
    obtain ⟨hdone, hnext⟩ | ⟨-, -, e, hnext⟩ | ⟨-, record, hversion, hlen, hwire, hnext⟩ :=
      reader.next_cases
    · exact ⟨[], [], reader, .done hnext (by simpa [hgo] using hdone)⟩
    · exact ⟨[], [e], _, .refused hnext⟩
    · obtain ⟨records, refusals, last, hrest⟩ := ih _ (hn ▸ fuel_next hnext)
        { reader with pos := reader.pos + record.wire.length } hgo rfl
      exact ⟨record :: records, refusals, last, .record hversion hlen hwire hnext hrest⟩

namespace Reads

theorem refusals_le (h : reader.Reads records refusals last) : refusals.length ≤ 1 := by
  induction h with
  | done h hend => simp
  | refused h => simp
  | record hversion hlen hwire h hrest ih => exact ih

/-- What is handed out: records first, then at most a refusal. -/
theorem items_eq (h : reader.Reads records refusals last) :
    reader.items = records.map .ok ++ refusals.map .error := by
  induction h with
  | done h hend => simp [items_of_none h]
  | refused h => simp [items_of_some h, items_of_none next_stopped]
  | record hversion hlen hwire h hrest ih =>
    rw [items_of_some h, ih, List.map_cons, List.cons_append]

/-- A refusal shows in what is handed out. -/
theorem refusals_eq_nil (h : reader.Reads records refusals last) {read : List Record}
    (hitems : reader.items = read.map .ok) : refusals = [] := by
  cases refusals with
  | nil => rfl
  | cons e refusals =>
    have hmem : .error e ∈ reader.items := by simp [h.items_eq]
    simp [hitems] at hmem

theorem drained_eq (h : reader.Reads records refusals last) : reader.drained = last := by
  induction h with
  | done h hend => exact drained_of_none h
  | refused h => rw [drained_of_some h, drained_of_none next_stopped]
  | record hversion hlen hwire h hrest ih => rw [drained_of_some h, ih]

/-- A reader that has ended hands out nothing more, however often it is asked. -/
theorem next_last (h : reader.Reads records refusals last) : last.next = (none, last) := by
  induction h with
  | done h hend => exact h
  | refused h => exact next_stopped
  | record hversion hlen hwire h hrest ih => exact ih

theorem writable (h : reader.Reads records refusals last) :
    ∀ record ∈ records, encode record.version record.recordType record.payload =
      .ok record.wire := by
  induction h with
  | done h hend => simp
  | refused h => simp
  | record hversion hlen hwire h hrest ih =>
    intro other hother
    rcases List.mem_cons.mp hother with rfl | hmem
    · exact encode_eq_ok.mpr ⟨hlen, rfl⟩
    · exact ih other hmem

/-- The records of a run are framed as the reader expects. -/
theorem framed (h : reader.Reads records refusals last) :
    ∀ record ∈ records,
      record.version = reader.version ∧ record.payload.length ≤ maxPayloadLen := by
  induction h with
  | done h hend => simp
  | refused h => simp
  | record hversion hlen hwire h hrest ih => exact List.forall_mem_cons.mpr ⟨⟨hversion, hlen⟩, ih⟩

theorem encoded (h : reader.Reads records refusals last) :
    records.mapM (fun record => encode record.version record.recordType record.payload) =
      .ok (records.map Record.wire) := by
  apply Except.mapM_eq_ok.mpr
  rw [List.forall₂_map_right_iff, List.forall₂_same]
  exact h.writable

/-- The records are the bytes between the two positions. -/
theorem consumed (h : reader.Reads records refusals last) :
    (records.map Record.wire).flatten <+: reader.input.drop reader.pos ∧
      last.input = reader.input ∧
      last.pos = reader.pos + (records.map Record.wire).flatten.length := by
  induction h with
  | done h hend => simp
  | refused h => simp
  | @record reader last record records refusals hversion hlen hwire h hrest ih =>
    obtain ⟨rest, hrest⟩ := hwire
    obtain ⟨htail, hinput, hpos⟩ := ih
    have hdrop : reader.input.drop (reader.pos + record.wire.length) = rest := by
      rw [← List.drop_drop, ← hrest, List.drop_left]
    refine ⟨?_, hinput, ?_⟩
    · rw [List.map_cons, List.flatten_cons, ← hrest]
      exact (List.prefix_append_right_inj _).mpr (hdrop ▸ htail)
    · simp [hpos, Nat.add_assoc]

/-- Without a refusal nothing is left. -/
theorem remaining_last (h : reader.Reads records refusals last) (hnone : refusals = []) :
    last.remaining = 0 := by
  induction h with
  | done h hend => exact hend
  | refused h => cases hnone
  | record hversion hlen hwire h hrest ih => exact ih hnone

/-- From the start of an input, the records are what was used up of it. -/
theorem consumed_new {input : Bytes} {version : UInt8}
    (h : (Reader.new input version).Reads records refusals last) :
    last.pos ≤ input.length ∧ (records.map Record.wire).flatten = input.take last.pos ∧
      (refusals = [] → last.pos = input.length) := by
  obtain ⟨hahead, hinput, hpos⟩ := h.consumed
  have hpos' : last.pos = (records.map Record.wire).flatten.length := by
    rw [hpos]
    exact Nat.zero_add _
  have hinput' : last.input = input := hinput
  have hahead' : (records.map Record.wire).flatten <+: input := hahead
  have hle := hahead'.length_le
  refine ⟨?_, ?_, fun hnone => ?_⟩
  · rw [hpos']
    exact hle
  · rw [hpos']
    exact List.prefix_iff_eq_take.mp hahead'
  · have hend := h.remaining_last hnone
    rw [Reader.remaining, hinput'] at hend
    omega

end Reads

/-- What is handed out without a refusal is what the input was written from. -/
theorem items_eq_map_ok {records : List Record} {input : Bytes} {version : UInt8} :
    (Reader.new input version).items = records.map .ok ↔
      (∀ record ∈ records, record.version = version ∧ record.payload.length ≤ maxPayloadLen) ∧
      (records.map Record.wire).flatten = input := by
  constructor
  · intro hitems
    obtain ⟨read, refusals, last, hreads⟩ := exists_reads (Reader.new input version) rfl
    have hnone := hreads.refusals_eq_nil hitems
    have hread : read = records := by
      rw [hreads.items_eq, hnone, List.map_nil, List.append_nil] at hitems
      exact List.map_injective_iff.mpr (fun _ _ => Except.ok.inj) hitems
    subst hread
    obtain ⟨-, htake, hend⟩ := hreads.consumed_new
    exact ⟨hreads.framed, by rw [htake, hend hnone, List.take_length]⟩
  · rintro ⟨hframed, rfl⟩
    exact items_wires rfl hframed rfl

theorem items_eq_singleton {input : Bytes} {version : UInt8} :
    (Reader.new input version).items = [.ok record] ↔
      record.version = version ∧ record.payload.length ≤ maxPayloadLen ∧ record.wire = input := by
  have hitems := @items_eq_map_ok [record] input version
  simpa [and_assoc] using hitems

theorem items_eq_nil : reader.items = [] ↔ reader.next.1 = none := by
  rcases hnext : reader.next with ⟨_ | item, after⟩
  · simp [items_of_none hnext]
  · simp [items_of_some hnext]

/-- What was written is handed out, and nothing of it is left. -/
theorem items_written {records : List Record} {version : UInt8}
    (hall : ∀ record ∈ records,
      record.version = version ∧ record.payload.length ≤ maxPayloadLen) :
    (Reader.new (records.map Record.wire).flatten version).items = records.map .ok ∧
      (Reader.new (records.map Record.wire).flatten version).drained.remaining = 0 := by
  have hitems : (Reader.new (records.map Record.wire).flatten version).items =
      records.map .ok := Reader.items_wires rfl hall rfl
  obtain ⟨read, refusals, last, hreads⟩ :=
    Reader.exists_reads (Reader.new (records.map Record.wire).flatten version) rfl
  refine ⟨hitems, ?_⟩
  rw [hreads.drained_eq]
  exact hreads.remaining_last (hreads.refusals_eq_nil hitems)

end Reader

/-- What was written is handed out and used up; and of any input, what is handed out encodes to
what is used up, at most one refusal follows, after it nothing, and without one the whole input
is used up. -/
theorem exact_framing (version : UInt8) :
    (∀ entries : List (UInt8 × Bytes), (∀ entry ∈ entries, entry.2.length ≤ maxPayloadLen) →
      ∃ encoded, entries.mapM (fun entry => encode version entry.1 entry.2) = .ok encoded ∧
        (Reader.new encoded.flatten version).items =
          entries.map (fun entry => .ok ⟨version, entry.1, entry.2⟩) ∧
        (Reader.new encoded.flatten version).drained.remaining = 0) ∧
    ∀ input : Bytes, ∃ (records : List Record) (refusals : List Error) (encoded : List Bytes),
      (Reader.new input version).items = records.map .ok ++ refusals.map .error ∧
      refusals.length ≤ 1 ∧
      records.mapM (fun record => encode record.version record.recordType record.payload) =
        .ok encoded ∧
      (Reader.new input version).drained.pos ≤ input.length ∧
      encoded.flatten = input.take (Reader.new input version).drained.pos ∧
      (refusals = [] → (Reader.new input version).drained.pos = input.length) ∧
      (Reader.new input version).drained.next = (none, (Reader.new input version).drained) := by
  refine ⟨fun entries hentries => ?_, fun input => ?_⟩
  · let records := entries.map fun entry => (⟨version, entry.1, entry.2⟩ : Record)
    have hall : ∀ record ∈ records,
        record.version = version ∧ record.payload.length ≤ maxPayloadLen := by
      intro record hrecord
      obtain ⟨entry, hentry, rfl⟩ := List.mem_map.mp hrecord
      exact ⟨rfl, hentries entry hentry⟩
    obtain ⟨hitems, hend⟩ := Reader.items_written hall
    refine ⟨records.map Record.wire, ?_, ?_, hend⟩
    · apply Except.mapM_eq_ok.mpr
      rw [List.map_map, List.forall₂_map_right_iff, List.forall₂_same]
      intro entry hentry
      exact encode_eq_ok.mpr ⟨hentries entry hentry, rfl⟩
    · rw [hitems, List.map_map]
      rfl
  · obtain ⟨records, refusals, last, hreads⟩ :=
      Reader.exists_reads (Reader.new input version) rfl
    obtain ⟨hle, htake, hend⟩ := hreads.consumed_new
    rw [hreads.drained_eq]
    exact ⟨records, refusals, records.map Record.wire, hreads.items_eq, hreads.refusals_le,
      hreads.encoded, hle, htake, hend, hreads.next_last⟩

end Onestein.Record
