import Onestein.Record.Codec

/-!
# Cutting a stream of records

A stream may be read before all of it is there. What the front of it hands out, the whole stream
hands out first, and a reader of the rest goes on where the front ended.

## Main definitions

* `refusal` — why the record that lies ahead is refused, from the bytes alone.
* `Error.isTruncated` — a refusal for want of bytes.

## Main results

* `Reader.items_congr` — a reader hands out what the bytes ahead of it say.
* `Codec.items_front` — the front of what was written reads as the beginning of the values.
* `cut_stream` — a stream is its front and the rest.
-/

namespace Onestein.Record

/-- A refusal for want of bytes. -/
def Error.isTruncated : Error → Bool
  | .truncated .. => true
  | _ => false

/-- Why the record that `ahead` starts with is refused, if it is. -/
def refusal (version : UInt8) (ahead : Bytes) : Option Error :=
  if ahead.length < headerLen then some (.truncated headerLen ahead.length)
  else if ahead.getD 0 0 ≠ version then some (.unknownVersion version (ahead.getD 0 0))
  else
    let length := Bytes.val [ahead.getD 2 0, ahead.getD 3 0]
    if maxPayloadLen < length then some (.payloadTooLong length)
    else if ahead.length - headerLen < length then
      some (.truncated length (ahead.length - headerLen))
    else none

/-- A refusal that is not for want of bytes stands when bytes are added. -/
theorem refusal_append {version : UInt8} {ahead : Bytes} {e : Error}
    (h : refusal version ahead = some e) (he : ¬ e.isTruncated) (more : Bytes) :
    refusal version (ahead ++ more) = some e := by
  by_cases hheader : ahead.length < headerLen
  · obtain rfl : .truncated headerLen ahead.length = e := by simpa [refusal, hheader] using h
    exact absurd rfl he
  have hlen : 4 ≤ ahead.length := Nat.le_of_not_lt hheader
  have hsame {n : Nat} (hn : n < 4) : (ahead ++ more).getD n 0 = ahead.getD n 0 :=
    List.getD_append _ _ _ _ (by omega)
  rw [refusal, if_neg hheader] at h
  rw [refusal, if_neg (by simp [headerLen]; omega), hsame (by omega), hsame (by omega),
    hsame (by omega)]
  dsimp only at h ⊢
  split_ifs at h ⊢ with hversion hlong hshort hshort'
  · exact h
  · exact h
  · obtain rfl := Option.some.inj h
    exact absurd rfl he
  · obtain rfl := Option.some.inj h
    exact absurd rfl he

/-- What is not refused is a record. -/
theorem exists_wire_of_refusal {version : UInt8} {ahead : Bytes}
    (h : refusal version ahead = none) : ∃ record : Record, record.version = version ∧
      record.payload.length ≤ maxPayloadLen ∧ record.wire <+: ahead := by
  unfold refusal at h
  dsimp only at h
  split_ifs at h with hheader hversion hlong hshort
  have hfull : headerLen ≤ ahead.length := Nat.le_of_not_lt hheader
  obtain ⟨record, hfirst, hpayload, hwire⟩ := exists_wire hfull (Nat.le_of_not_lt hshort)
  exact ⟨record, hfirst.trans (not_not.mp hversion), by omega, hwire⟩

namespace Reader

variable {reader reader' last : Reader} {record : Record} {records : List Record}
  {refusals : List Error}

/-- The bytes not yet consumed. -/
def ahead (reader : Reader) : Bytes := reader.input.drop reader.pos

theorem length_ahead (reader : Reader) : reader.ahead.length = reader.remaining := by
  simp [ahead, remaining]

/-- What a reader says next about a stream that is not used up shows on the bytes ahead. -/
theorem next_of_refusal (hgo : reader.stopped = false) (hdone : reader.remaining ≠ 0) {e : Error}
    (h : refusal reader.version reader.ahead = some e) :
    reader.next = (some (.error e), { reader with stopped := true }) := by
  rw [refusal, length_ahead] at h
  unfold next
  rw [if_neg (by simp [hgo]), if_neg hdone]
  dsimp only [ahead] at h ⊢
  split_ifs at h ⊢ <;> simp_all

/-- A reader is done, or refuses what lies ahead, or hands out the record that does. -/
theorem next_ahead (reader : Reader) (hgo : reader.stopped = false) :
    (reader.ahead = [] ∧ reader.next = (none, reader)) ∨
    (reader.ahead ≠ [] ∧ ∃ e, refusal reader.version reader.ahead = some e ∧
      reader.next = (some (.error e), { reader with stopped := true })) ∨
    ∃ record : Record, record.version = reader.version ∧
      record.payload.length ≤ maxPayloadLen ∧ record.wire <+: reader.ahead := by
  by_cases hdone : reader.ahead = []
  · have hremaining : reader.remaining = 0 := by rw [← length_ahead, hdone, List.length_nil]
    exact .inl ⟨hdone, by simp [next, hremaining]⟩
  have hremaining : reader.remaining ≠ 0 := by
    rwa [← length_ahead, Ne, List.length_eq_zero_iff]
  cases hrefused : refusal reader.version reader.ahead with
  | some e => exact .inr (.inl ⟨hdone, e, rfl, next_of_refusal hgo hremaining hrefused⟩)
  | none => exact .inr (.inr (exists_wire_of_refusal hrefused))

/-- A reader hands out what the bytes ahead of it say, wherever they lie. -/
theorem items_congr (hgo : reader.stopped = false) (hgo' : reader'.stopped = false)
    (hversion : reader.version = reader'.version) (hahead : reader.ahead = reader'.ahead) :
    reader.items = reader'.items := by
  induction hn : reader.fuel using Nat.strong_induction_on generalizing reader reader' with
  | _ n ih =>
    obtain ⟨hdone, hnext⟩ | ⟨hne, e, hrefused, hnext⟩ | ⟨record, hrecord, hlen, hwire⟩ :=
      next_ahead reader hgo
    · have hdone' : reader'.remaining = 0 := by rw [← length_ahead, ← hahead, hdone]; rfl
      have hnext' : reader'.next = (none, reader') := by simp [next, hdone']
      rw [items_of_none hnext, items_of_none hnext']
    · have hremaining : reader'.remaining ≠ 0 := by
        rwa [← length_ahead, ← hahead, Ne, List.length_eq_zero_iff]
      have hnext' := next_of_refusal hgo' hremaining (hversion ▸ hahead ▸ hrefused)
      rw [items_of_some hnext, items_of_some hnext', items_of_none next_stopped,
        items_of_none next_stopped]
    · have hnext := next_of_wire hgo hrecord hlen hwire
      have hwire' : record.wire <+: reader'.ahead := hahead ▸ hwire
      have hnext' := next_of_wire hgo' (hrecord.trans hversion) hlen hwire'
      rw [items_of_some hnext, items_of_some hnext']
      congr 1
      refine ih _ (hn ▸ fuel_next hnext) hgo hgo' hversion ?_ rfl
      have hdrop := congrArg (List.drop record.wire.length) hahead
      simpa [ahead, List.drop_drop] using hdrop

theorem items_of_refusal {version : UInt8} {input : Bytes} {e : Error} (hne : input ≠ [])
    (h : refusal version input = some e) : (new input version).items = [.error e] := by
  have hremaining : (new input version).remaining ≠ 0 := by
    rwa [← length_ahead, Ne, List.length_eq_zero_iff]
  have hnext : (new input version).next =
      (some (.error e), { new input version with stopped := true }) :=
    next_of_refusal rfl hremaining h
  rw [items_of_some hnext, items_of_none next_stopped]

/-- A reader of the same stream with more bytes behind. -/
def longer (reader : Reader) (more : Bytes) : Reader :=
  { reader with input := reader.input ++ more }

theorem ahead_longer (hle : reader.pos ≤ reader.input.length) (more : Bytes) :
    (reader.longer more).ahead = reader.ahead ++ more := by
  rw [ahead, ahead, longer, List.drop_append_of_le_length hle]

namespace Reads

/-- With more bytes behind a reader hands out the same records, and then what the bytes at which
it ended say with the others. A refusal was for these bytes. -/
theorem longer (h : reader.Reads records refusals last) (hgo : reader.stopped = false)
    (hle : reader.pos ≤ reader.input.length) (more : Bytes) :
    (reader.longer more).items =
        records.map .ok ++ (new (last.ahead ++ more) reader.version).items ∧
      ∀ e ∈ refusals, refusal reader.version last.ahead = some e := by
  induction h with
  | done h hend =>
    refine ⟨?_, by simp⟩
    exact items_congr hgo rfl rfl (ahead_longer hle more)
  | @refused reader e h =>
    have hrefused : refusal reader.version reader.ahead = some e := by
      obtain ⟨-, hnext⟩ | ⟨-, e', hrefused, hnext⟩ | ⟨record, hversion, hlen, hwire⟩ :=
        next_ahead reader hgo
      · simp [hnext] at h
      · rw [hnext] at h
        simp at h
        rw [hrefused, h]
      · rw [next_of_wire hgo hversion hlen hwire] at h
        simp at h
    refine ⟨items_congr hgo rfl rfl (ahead_longer hle more), fun e' he' => ?_⟩
    obtain rfl := List.mem_singleton.mp he'
    exact hrefused
  | @record reader last record records refusals hversion hlen hwire h hrest ih =>
    have hwire' : record.wire <+: (reader.longer more).ahead := by
      rw [ahead_longer hle]
      exact hwire.trans (List.prefix_append _ _)
    have hfit := hwire.length_le
    rw [List.length_drop] at hfit
    obtain ⟨hitems, hrefused⟩ := ih hgo (by dsimp only; omega)
    refine ⟨?_, hrefused⟩
    have hnext : (reader.longer more).next = (some (.ok record),
        { reader.longer more with pos := reader.pos + record.wire.length }) :=
      next_of_wire hgo hversion hlen hwire'
    rw [items_of_some hnext, List.map_cons, List.cons_append]
    exact congrArg _ hitems

end Reads

end Reader

namespace Codec

variable {α ε ε' : Type} {version : UInt8} {known : α → Prop} {write : α → Except ε' Bytes}
  {read : Except Error Record → Except ε α} {values : List α} {encoded : List Bytes} {front : Bytes}

/-- What was written is the records that are read back. -/
theorem exists_records (codec : Codec version known write read)
    (h : values.mapM write = .ok encoded) :
    ∃ records : List Record, encoded = records.map Record.wire ∧
      (∀ record ∈ records, record.version = version ∧ record.payload.length ≤ maxPayloadLen) ∧
      (records.map .ok).map read = values.map .ok := by
  rw [Except.mapM_eq_ok] at h
  induction h with
  | nil => exact ⟨[], rfl, by simp, rfl⟩
  | cons hwrite _ ih =>
    obtain ⟨records, rfl, hframed, hread⟩ := ih
    obtain ⟨record, hversion, hlen, rfl, hvalue⟩ := codec.written hwrite
    refine ⟨record :: records, rfl, List.forall_mem_cons.mpr ⟨⟨hversion, hlen⟩, hframed⟩, ?_⟩
    simp only [List.map_cons, hvalue, hread]

/-- The front of what was written reads as the values in it, and ends with a refusal unless it ends
between two of them. -/
theorem items_front (codec : Codec version known write read)
    (h : values.mapM write = .ok encoded) (hfront : front <+: encoded.flatten) :
    ∃ (n : Nat) (refusals : List Error), n ≤ values.length ∧ refusals.length ≤ 1 ∧
      (Reader.new front version).items.map read =
        (values.take n).map .ok ++ refusals.map (fun e => read (.error e)) ∧
      (refusals = [] ↔ front = (encoded.take n).flatten) := by
  obtain ⟨sent, rfl, hframed, hread⟩ := codec.exists_records h
  obtain ⟨records, refusals, last, hreads⟩ := Reader.exists_reads (Reader.new front version) rfl
  obtain ⟨back, hback⟩ := hfront
  -- what the front hands out, the whole stream hands out first
  have hwhole : (Reader.new (front ++ back) version).items = sent.map .ok := by
    rw [hback]
    exact Reader.items_wires rfl hframed rfl
  have hbegin := (hreads.longer rfl (Nat.zero_le _) back).1.symm.trans hwhole
  obtain ⟨first, ⟨more, rfl⟩, hmap⟩ := List.prefix_map_iff.mp ⟨_, hbegin⟩
  obtain rfl := (List.map_inj_right fun _ _ => Except.ok.inj).mp hmap
  have hlength := congrArg List.length hread
  simp only [List.length_map, List.length_append] at hlength
  have hfirst : (records.map .ok).map read = (values.take records.length).map .ok := by
    have htake := congrArg (List.take records.length) hread
    rwa [List.map_append, List.map_append, List.take_left' (by simp), ← List.map_take] at htake
  have hencoded : ((records ++ more).map Record.wire).take records.length =
      records.map Record.wire := by
    rw [List.map_append, List.take_left' (by simp)]
  refine ⟨records.length, refusals, by omega, hreads.refusals_le, ?_, ?_⟩
  · rw [hreads.items_eq, List.map_append, hfirst, List.map_map]
    rfl
  · rw [hencoded]
    constructor
    · rintro rfl
      have hitems := hreads.items_eq
      rw [List.map_nil, List.append_nil] at hitems
      exact (Reader.items_eq_map_ok.mp hitems).2.symm
    · intro hfront
      exact hreads.refusals_eq_nil (Reader.items_wires rfl
        (fun record hmem => hframed record (List.mem_append_left more hmem)) hfront)

/-- So it is read as a whole only where it ends between two of them. -/
theorem mapM_front (codec : Codec version known write read)
    (h : values.mapM write = .ok encoded) (hfront : front <+: encoded.flatten) :
    ∃ (n : Nat) (refusals : List Error), n ≤ values.length ∧ refusals.length ≤ 1 ∧
      (Reader.new front version).items.map read =
        (values.take n).map .ok ++ refusals.map (fun e => read (.error e)) ∧
      ∀ got, (Reader.new front version).items.mapM read = .ok got ↔
        got = values.take n ∧ front = (encoded.take n).flatten := by
  obtain ⟨n, refusals, hn, hone, hitems, hends⟩ := codec.items_front h hfront
  refine ⟨n, refusals, hn, hone, hitems, fun got => ?_⟩
  rw [Except.mapM_eq_ok_iff_map, hitems, ← hends]
  constructor
  · intro hgot
    have hnone : refusals = [] := by
      rw [List.eq_nil_iff_forall_not_mem]
      intro e he
      have hmem : read (.error e) ∈ got.map .ok := by
        rw [← hgot]
        exact List.mem_append_right _ (List.mem_map_of_mem he)
      obtain ⟨value, -, hvalue⟩ := List.mem_map.mp hmem
      exact codec.refused hvalue.symm
    subst hnone
    rw [List.map_nil, List.append_nil, List.map_inj_right fun _ _ => Except.ok.inj] at hgot
    exact ⟨hgot.symm, rfl⟩
  · rintro ⟨rfl, rfl⟩
    simp

end Codec

/-- A stream may be read in pieces. Of any cut, what the front hands out as records the whole stream
hands out first, and then what the rest of the front says with the bytes behind the cut; and a
refusal of the front that is not for want of bytes is the refusal of the whole stream. -/
theorem cut_stream (version : UInt8) (front back : Bytes) :
    ∃ (records : List Record) (refusals : List Error),
      (Reader.new front version).items = records.map .ok ++ refusals.map .error ∧
      (Reader.new (front ++ back) version).items = records.map .ok ++
        (Reader.new ((Reader.new front version).drained.ahead ++ back) version).items ∧
      ((∃ e ∈ refusals, ¬ e.isTruncated) →
        (Reader.new (front ++ back) version).items = (Reader.new front version).items) := by
  obtain ⟨records, refusals, last, hreads⟩ := Reader.exists_reads (Reader.new front version) rfl
  obtain ⟨hitems, hrefused⟩ := hreads.longer rfl (Nat.zero_le _) back
  rw [hreads.drained_eq]
  refine ⟨records, refusals, hreads.items_eq, hitems, ?_⟩
  rintro ⟨e, hmem, hwhole⟩
  obtain rfl : refusals = [e] := by
    obtain ⟨before, after, rfl⟩ := List.append_of_mem hmem
    have hle := hreads.refusals_le
    simp only [List.length_append, List.length_cons] at hle
    obtain rfl : before = [] := List.length_eq_zero_iff.mp (by omega)
    obtain rfl : after = [] := List.length_eq_zero_iff.mp (by omega)
    rfl
  have hahead : last.ahead ≠ [] := by
    intro hnil
    have htruncated := hrefused e hmem
    rw [hnil] at htruncated
    obtain rfl := Option.some.inj htruncated
    exact hwhole rfl
  have hstands := refusal_append (hrefused e hmem) hwhole back
  have hrest := Reader.items_of_refusal (by simp [hahead]) hstands
  rw [hreads.items_eq]
  exact hitems.trans (congrArg _ hrest)

end Onestein.Record
