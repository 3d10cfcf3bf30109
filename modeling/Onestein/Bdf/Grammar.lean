import Onestein.Bdf.Write

/-!
# The grammar of BDF encodings

Which byte strings encode which values, without a reader. With `strict` the side conditions
of the canonical form are added at every depth: minimal widths, and sorted keys.

## Main definitions

* `Encodes` — the bytes are an encoding of the value.

## Main results

* `encodes_toBytes` — the writer writes an encoding, a strict one of a canonical value.
* `Encodes.eq_toBytes` — a strict encoding is what the writer writes.
* `Encodes.prefix_unique` — bytes start with the encoding of at most one value.
-/

namespace Onestein.Bdf

open Bytes

variable {strict : Bool}

/-- `b` is the two's complement form of `number` in `length` bytes. -/
structure EncodesInt (strict : Bool) (length : UInt8) (b : Bytes) (number : Int64) : Prop where
  isWidth : isWidth length
  length_eq : b.length = length.toNat
  sval_eq : sval b = number.toInt
  minimal : strict → minimalIntLength number = length

/-- `b` is `bytes` behind a header of the given kind and a length. -/
def EncodesSized (strict : Bool) (kind : UInt8) (bytes b : Bytes) : Prop :=
  ∃ lengthOfLength lengthBytes length, EncodesInt strict lengthOfLength lengthBytes length ∧
    length.toInt = bytes.length ∧ b = (kind ||| lengthOfLength) :: (lengthBytes ++ bytes)

mutual

/-- `b` is an encoding of the value. A container is closed by the sentinel. -/
inductive Encodes (strict : Bool) : Value → Bytes → Prop
  | null : Encodes strict .null [0x00]
  | bool (set : Bool) : Encodes strict (.bool set) [0x10 ||| set.toUInt8]
  | int {number : Int64} {length : UInt8} {b : Bytes} :
      EncodesInt strict length b number → Encodes strict (.int number) ((0x20 ||| length) :: b)
  | float (bits : UInt64) : Encodes strict (.float bits) (0x38 :: be 8 bits.toNat)
  | str {text : String} {b : Bytes} :
      EncodesSized strict 0x40 (utf8 text) b → Encodes strict (.str text) b
  | raw {bytes b : Bytes} : EncodesSized strict 0x50 bytes b → Encodes strict (.raw bytes) b
  | list {items : List Value} {b : Bytes} :
      EncodesItems strict items b → Encodes strict (.list items) (0x60 :: (b ++ [endByte]))
  | dict {entries : List (String × Value)} {b : Bytes} :
      EncodesEntries strict entries b → (strict → keysSorted entries) →
      Encodes strict (.dict entries) (0x70 :: (b ++ [endByte]))

/-- `b` is the items of a list, one after the other. -/
inductive EncodesItems (strict : Bool) : List Value → Bytes → Prop
  | nil : EncodesItems strict [] []
  | cons {item : Value} {items : List Value} {a b : Bytes} :
      Encodes strict item a → EncodesItems strict items b →
      EncodesItems strict (item :: items) (a ++ b)

/-- `b` is the entries of a dictionary, each key before its value. -/
inductive EncodesEntries (strict : Bool) : List (String × Value) → Bytes → Prop
  | nil : EncodesEntries strict [] []
  | cons {key : String} {item : Value} {entries : List (String × Value)} {k a b : Bytes} :
      Encodes strict (.str key) k → Encodes strict item a → EncodesEntries strict entries b →
      EncodesEntries strict ((key, item) :: entries) (k ++ (a ++ b))

end

/-! ## Integers and lengths -/

theorem encodesInt_intBytes (number : Int64) :
    EncodesInt strict (minimalIntLength number) (intBytes number) number where
  isWidth := isWidth_minimalIntLength number
  length_eq := length_intBytes number
  sval_eq := sval_intBytes number
  minimal _ := rfl

/-- In strict mode the bytes of an integer are the ones the writer writes. -/
theorem EncodesInt.eq_intBytes {length : UInt8} {b : Bytes} {number : Int64}
    (h : EncodesInt true length b number) :
    length = minimalIntLength number ∧ b = intBytes number := by
  have hlen := h.minimal rfl
  refine ⟨hlen.symm, sval_injective ?_ (h.sval_eq.trans (sval_intBytes number).symm)⟩
  rw [h.length_eq, length_intBytes, hlen]

/-- A number was not read from fewer bytes than it needs. -/
theorem EncodesInt.minimalIntLength_le {length : UInt8} {b : Bytes} {number : Int64}
    (h : EncodesInt strict length b number) : minimalIntLength number ≤ length := by
  have hne : b ≠ [] := by
    rintro rfl
    have hlen := h.length_eq
    obtain rfl | rfl | rfl | rfl := isWidth_cases h.isWidth <;> simp at hlen
  have hbounds := sval_bounds hne
  rw [h.sval_eq, h.length_eq] at hbounds
  exact (minimalIntLength_le_iff number h.isWidth).mpr hbounds

theorem EncodesInt.relax {length : UInt8} {b : Bytes} {number : Int64}
    (h : EncodesInt strict length b number) : EncodesInt false length b number :=
  { h with minimal := by simp }

theorem toInt_ofNat_length {bytes : Bytes} (h : bytes.length ≤ maxLen) :
    (Int64.ofNat bytes.length).toInt = bytes.length := by
  rw [Int64.toInt_ofNat']
  unfold maxLen at h
  exact Int.bmod_eq_of_le (by simp [Int64.size]) (by simp [Int64.size]; omega)

theorem sized_eq {bytes : Bytes} (h : bytes.length ≤ maxLen) (kind : UInt8) :
    sized kind bytes = (kind ||| minimalIntLength (Int64.ofNat bytes.length)) ::
      (intBytes (Int64.ofNat bytes.length) ++ bytes) := by
  simp [sized, writeSized, pushBe_minimal, h]

theorem encodesSized_sized {bytes : Bytes} (h : bytes.length ≤ maxLen) (kind : UInt8) :
    EncodesSized strict kind bytes (sized kind bytes) :=
  ⟨_, _, _, encodesInt_intBytes _, toInt_ofNat_length h, sized_eq h kind⟩

theorem EncodesSized.length_le {kind : UInt8} {bytes b : Bytes}
    (h : EncodesSized strict kind bytes b) : bytes.length ≤ maxLen := by
  obtain ⟨_, _, length, _, hlen, _⟩ := h
  have := length.toInt_lt
  unfold maxLen
  omega

theorem EncodesSized.eq_sized {kind : UInt8} {bytes b : Bytes}
    (h : EncodesSized true kind bytes b) : b = sized kind bytes := by
  have hle := h.length_le
  obtain ⟨_, _, length, hint, hlen, rfl⟩ := h
  obtain ⟨rfl, rfl⟩ := hint.eq_intBytes
  have : length = Int64.ofNat bytes.length :=
    Int64.toInt_inj.mp (hlen.trans (toInt_ofNat_length hle).symm)
  rw [sized_eq hle, this]

theorem EncodesSized.relax {kind : UInt8} {bytes b : Bytes}
    (h : EncodesSized strict kind bytes b) : EncodesSized false kind bytes b := by
  obtain ⟨_, _, length, hint, hlen, hb⟩ := h
  exact ⟨_, _, length, hint.relax, hlen, hb⟩

/-! ## The sentinel is no value -/

theorem isWidth_or_ne_end {length : UInt8} (h : isWidth length) {kind : UInt8}
    (hk : kind = 0x20 ∨ kind = 0x40 ∨ kind = 0x50) : kind ||| length ≠ endByte := by
  obtain rfl | rfl | rfl := hk <;> obtain rfl | rfl | rfl | rfl := isWidth_cases h <;> decide

/-- An encoding starts with a header that is not the sentinel. -/
theorem Encodes.exists_cons {v : Value} {b : Bytes} (h : Encodes strict v b) :
    ∃ header tail, b = header :: tail ∧ header ≠ endByte := by
  cases h with
  | null => exact ⟨_, _, rfl, by decide⟩
  | bool set => exact ⟨_, _, rfl, by cases set <;> decide⟩
  | int hint => exact ⟨_, _, rfl, isWidth_or_ne_end hint.isWidth (by simp)⟩
  | float bits => exact ⟨_, _, rfl, by decide⟩
  | str hs =>
    obtain ⟨_, _, _, hint, _, rfl⟩ := hs
    exact ⟨_, _, rfl, isWidth_or_ne_end hint.isWidth (by simp)⟩
  | raw hs =>
    obtain ⟨_, _, _, hint, _, rfl⟩ := hs
    exact ⟨_, _, rfl, isWidth_or_ne_end hint.isWidth (by simp)⟩
  | list _ => exact ⟨_, _, rfl, by decide⟩
  | dict _ _ => exact ⟨_, _, rfl, by decide⟩

theorem Encodes.length_pos {v : Value} {b : Bytes} (h : Encodes strict v b) : 0 < b.length := by
  obtain ⟨_, _, rfl, _⟩ := h.exists_cons
  simp

/-! ## What the writer writes -/

mutual

/-- The writer writes an encoding of its value, and a strict one if the value is canonical. -/
theorem encodes_toBytes (v : Value) (hfit : v.Fits) (hc : strict → v.isCanonical) :
    Encodes strict v (toBytes v) := by
  cases v with
  | null => exact .null
  | bool set => exact .bool set
  | int number => exact toBytes_int number ▸ .int (encodesInt_intBytes number)
  | float bits => exact .float bits
  | str text => exact .str (encodesSized_sized hfit _)
  | raw bytes => exact .raw (encodesSized_sized hfit _)
  | list items =>
    rw [toBytes_list]
    exact .list (encodesItems_itemsBytes items hfit hc)
  | dict entries =>
    rw [toBytes_dict]
    have hc' : strict → keysSorted entries ∧ allCanonicalEntries entries := fun hs => by
      simpa [Value.isCanonical] using hc hs
    exact .dict (encodesEntries_entriesBytes entries hfit fun hs => (hc' hs).2)
      fun hs => (hc' hs).1

theorem encodesItems_itemsBytes (items : List Value) (hfit : FitItems items)
    (hc : strict → allCanonical items) :
    EncodesItems strict items (itemsBytes items) := by
  cases items with
  | nil => exact .nil
  | cons item items =>
    have hc' : strict → item.isCanonical ∧ allCanonical items := fun hs => by
      simpa [allCanonical] using hc hs
    have h := EncodesItems.cons (encodes_toBytes item hfit.1 fun hs => (hc' hs).1)
      (encodesItems_itemsBytes items hfit.2 fun hs => (hc' hs).2)
    simpa only [itemsBytes, List.map_cons, List.flatten_cons] using h

theorem encodesEntries_entriesBytes (entries : List (String × Value)) (hfit : FitEntries entries)
    (hc : strict → allCanonicalEntries entries) :
    EncodesEntries strict entries (entriesBytes entries) := by
  match entries with
  | [] => exact .nil
  | (key, item) :: entries =>
    have hc' : strict → item.isCanonical ∧ allCanonicalEntries entries := fun hs => by
      simpa [allCanonicalEntries] using hc hs
    have hk : Encodes strict (.str key) (sized 0x40 (utf8 key)) :=
      .str (encodesSized_sized hfit.1 0x40)
    have h := EncodesEntries.cons hk
      (encodes_toBytes item hfit.2.1 fun hs => (hc' hs).1)
      (encodesEntries_entriesBytes entries hfit.2.2 fun hs => (hc' hs).2)
    simpa [entriesBytes] using h

end

/-! ## What an encoding says of its value -/

mutual

/-- What is encoded has lengths that fit. -/
theorem Encodes.fits (v : Value) {b : Bytes} (h : Encodes strict v b) : v.Fits := by
  match v, h with
  | .null, _ | .bool _, _ | .int _, _ | .float _, _ => trivial
  | .str _, .str hs => exact hs.length_le
  | .raw _, .raw hs => exact hs.length_le
  | .list items, .list hi => exact EncodesItems.fits items hi
  | .dict entries, .dict he _ => exact EncodesEntries.fits entries he

theorem EncodesItems.fits (items : List Value) {b : Bytes} (h : EncodesItems strict items b) :
    FitItems items := by
  match items, h with
  | [], _ => trivial
  | item :: items, .cons hi hr => exact ⟨Encodes.fits item hi, EncodesItems.fits items hr⟩

theorem EncodesEntries.fits (entries : List (String × Value)) {b : Bytes}
    (h : EncodesEntries strict entries b) : FitEntries entries := by
  match entries, h with
  | [], _ => trivial
  | (_, item) :: entries, .cons (.str hk) hi hr =>
    exact ⟨hk.length_le, Encodes.fits item hi, EncodesEntries.fits entries hr⟩

end

mutual

/-- A strict encoding is the one the writer writes, and its value is canonical. -/
theorem Encodes.eq_toBytes (v : Value) {b : Bytes} (h : Encodes true v b) :
    b = toBytes v ∧ v.isCanonical := by
  match v, h with
  | .null, .null => exact ⟨rfl, rfl⟩
  | .bool _, .bool _ => exact ⟨rfl, rfl⟩
  | .int number, .int hint =>
    obtain ⟨rfl, rfl⟩ := hint.eq_intBytes
    exact ⟨(toBytes_int number).symm, rfl⟩
  | .float _, .float _ => exact ⟨rfl, rfl⟩
  | .str _, .str hs => exact ⟨hs.eq_sized, rfl⟩
  | .raw _, .raw hs => exact ⟨hs.eq_sized, rfl⟩
  | .list items, .list hi =>
    obtain ⟨rfl, hc⟩ := EncodesItems.eq_itemsBytes items hi
    exact ⟨(toBytes_list items).symm, hc⟩
  | .dict entries, .dict he hs =>
    obtain ⟨rfl, hc⟩ := EncodesEntries.eq_entriesBytes entries he
    exact ⟨(toBytes_dict entries).symm, by simp [Value.isCanonical, hs rfl, hc]⟩

theorem EncodesItems.eq_itemsBytes (items : List Value) {b : Bytes}
    (h : EncodesItems true items b) : b = itemsBytes items ∧ allCanonical items := by
  match items, h with
  | [], .nil => exact ⟨rfl, rfl⟩
  | item :: items, .cons hi hr =>
    obtain ⟨rfl, hc⟩ := Encodes.eq_toBytes item hi
    obtain ⟨rfl, hcs⟩ := EncodesItems.eq_itemsBytes items hr
    exact ⟨by simp [itemsBytes], by simp [allCanonical, hc, hcs]⟩

theorem EncodesEntries.eq_entriesBytes (entries : List (String × Value)) {b : Bytes}
    (h : EncodesEntries true entries b) :
    b = entriesBytes entries ∧ allCanonicalEntries entries := by
  match entries, h with
  | [], .nil => exact ⟨rfl, rfl⟩
  | (key, item) :: entries, .cons (.str hk) hi hr =>
    obtain rfl := hk.eq_sized
    obtain ⟨rfl, hc⟩ := Encodes.eq_toBytes item hi
    obtain ⟨rfl, hcs⟩ := EncodesEntries.eq_entriesBytes entries hr
    exact ⟨by simp [entriesBytes], by simp [allCanonicalEntries, hc, hcs]⟩

end

mutual

/-- A strict encoding is an encoding. -/
theorem Encodes.relax (v : Value) {b : Bytes} (h : Encodes strict v b) : Encodes false v b := by
  match v, h with
  | .null, .null => exact .null
  | .bool _, .bool set => exact .bool set
  | .int _, .int hint => exact .int hint.relax
  | .float _, .float bits => exact .float bits
  | .str _, .str hs => exact .str hs.relax
  | .raw _, .raw hs => exact .raw hs.relax
  | .list items, .list hi => exact .list (EncodesItems.relax items hi)
  | .dict entries, .dict he _ => exact .dict (EncodesEntries.relax entries he) (by simp)

theorem EncodesItems.relax (items : List Value) {b : Bytes} (h : EncodesItems strict items b) :
    EncodesItems false items b := by
  match items, h with
  | [], .nil => exact .nil
  | item :: items, .cons hi hr => exact .cons (Encodes.relax item hi) (EncodesItems.relax items hr)

theorem EncodesEntries.relax (entries : List (String × Value)) {b : Bytes}
    (h : EncodesEntries strict entries b) : EncodesEntries false entries b := by
  match entries, h with
  | [], .nil => exact .nil
  | (_, item) :: entries, .cons (.str hk) hi hr =>
    exact .cons (.str hk.relax) (Encodes.relax item hi) (EncodesEntries.relax entries hr)

end

/-! ## Bytes start with at most one encoding -/

/-- The kind a header announces in its upper four bits. -/
def Value.kind : Value → Nat
  | .null => 0
  | .bool _ => 1
  | .int _ => 2
  | .float _ => 3
  | .str _ => 4
  | .raw _ => 5
  | .list _ => 6
  | .dict _ => 7

/-- A header with a width gives back its kind and the width. -/
theorem header_of_isWidth {length : UInt8} (h : isWidth length) {kind : UInt8}
    (hk : kind = 0x20 ∨ kind = 0x40 ∨ kind = 0x50) :
    (kind ||| length) >>> 4 = kind >>> 4 ∧ (kind ||| length) &&& 0x0f = length := by
  obtain rfl | rfl | rfl := hk <;> obtain rfl | rfl | rfl | rfl := isWidth_cases h <;> decide

theorem Encodes.kind_eq {v : Value} {header : UInt8} {b : Bytes}
    (h : Encodes strict v (header :: b)) : (header >>> 4).toNat = v.kind := by
  cases h with
  | null | float | list | dict => rfl
  | bool set => cases set <;> rfl
  | int hint =>
    rw [(header_of_isWidth hint.isWidth (by simp)).1]
    rfl
  | str hs =>
    obtain ⟨_, _, _, hint, _, heq⟩ := hs
    rw [(List.cons.inj heq).1, (header_of_isWidth hint.isWidth (by simp)).1]
    rfl
  | raw hs =>
    obtain ⟨_, _, _, hint, _, heq⟩ := hs
    rw [(List.cons.inj heq).1, (header_of_isWidth hint.isWidth (by simp)).1]
    rfl

/-- Two integers behind the same header, in front of whatever follows, are the same. -/
theorem EncodesInt.prefix_unique {kind length length' : UInt8} {b b' x y : Bytes}
    {number number' : Int64} (hk : kind = 0x20 ∨ kind = 0x40 ∨ kind = 0x50)
    (h : EncodesInt strict length b number) (h' : EncodesInt strict length' b' number')
    (heq : (kind ||| length) :: (b ++ x) = (kind ||| length') :: (b' ++ y)) :
    number = number' ∧ length = length' ∧ b = b' ∧ x = y := by
  obtain ⟨hheader, hbytes⟩ := List.cons.inj heq
  have hlength : length = length' := by
    rw [← (header_of_isWidth h.isWidth hk).2, hheader, (header_of_isWidth h'.isWidth hk).2]
  subst hlength
  obtain ⟨rfl, rfl⟩ := List.append_inj hbytes (h.length_eq.trans h'.length_eq.symm)
  exact ⟨Int64.toInt_inj.mp (h.sval_eq.symm.trans h'.sval_eq), rfl, rfl, rfl⟩

theorem EncodesSized.prefix_unique {kind : UInt8} {bytes bytes' b b' x y : Bytes}
    (hk : kind = 0x20 ∨ kind = 0x40 ∨ kind = 0x50)
    (h : EncodesSized strict kind bytes b) (h' : EncodesSized strict kind bytes' b')
    (heq : b ++ x = b' ++ y) : bytes = bytes' ∧ b = b' ∧ x = y := by
  obtain ⟨_, _, number, hint, hlen, rfl⟩ := h
  obtain ⟨_, _, number', hint', hlen', rfl⟩ := h'
  simp only [List.cons_append, List.append_assoc] at heq
  obtain ⟨rfl, rfl, rfl, hbytes⟩ := hint.prefix_unique hk hint' heq
  obtain ⟨rfl, rfl⟩ := List.append_inj hbytes (by omega)
  exact ⟨rfl, rfl, rfl⟩

theorem Encodes.sized {text : String} {b : Bytes} (h : Encodes strict (.str text) b) :
    EncodesSized strict 0x40 (utf8 text) b := by
  cases h with
  | str hs => exact hs

mutual

/-- Encodings are prefix-free, and each is the encoding of one value. -/
theorem Encodes.prefix_unique (v : Value) {w : Value} {a b x y : Bytes}
    (hv : Encodes strict v a) (hw : Encodes strict w b) (heq : a ++ x = b ++ y) :
    v = w ∧ a = b ∧ x = y := by
  have hkind : v.kind = w.kind := by
    obtain ⟨header, s, rfl, -⟩ := hv.exists_cons
    obtain ⟨header', t, rfl, -⟩ := hw.exists_cons
    obtain ⟨rfl, -⟩ := List.cons.inj heq
    rw [← hv.kind_eq, hw.kind_eq]
  match v, hv with
  | .null, .null =>
    cases hw with
    | null => exact ⟨rfl, rfl, (List.cons.inj heq).2⟩
    | _ => simp [Value.kind] at hkind
  | .bool set, .bool _ =>
    cases hw with
    | bool set' =>
      obtain ⟨hheader, rfl⟩ := List.cons.inj heq
      cases set <;> cases set' <;> first | exact ⟨rfl, rfl, rfl⟩ | exact absurd hheader (by decide)
    | _ => simp [Value.kind] at hkind
  | .int number, .int hint =>
    cases hw with
    | int hint' =>
      obtain ⟨rfl, rfl, rfl, rfl⟩ := hint.prefix_unique (by simp) hint' heq
      exact ⟨rfl, rfl, rfl⟩
    | _ => simp [Value.kind] at hkind
  | .float bits, .float _ =>
    cases hw with
    | float bits' =>
      obtain ⟨hbits, rfl⟩ := List.append_inj (List.cons.inj heq).2 (by simp)
      obtain rfl := be_toNat_injective hbits
      exact ⟨rfl, rfl, rfl⟩
    | _ => simp [Value.kind] at hkind
  | .str text, .str hs =>
    cases hw with
    | str hs' =>
      obtain ⟨htext, rfl, rfl⟩ := hs.prefix_unique (by simp) hs' heq
      exact ⟨congrArg Value.str (utf8_injective htext), rfl, rfl⟩
    | _ => simp [Value.kind] at hkind
  | .raw bytes, .raw hs =>
    cases hw with
    | raw hs' =>
      obtain ⟨rfl, rfl, rfl⟩ := hs.prefix_unique (by simp) hs' heq
      exact ⟨rfl, rfl, rfl⟩
    | _ => simp [Value.kind] at hkind
  | .list items, .list hi =>
    cases hw with
    | list hi' =>
      obtain ⟨rfl, rfl, rfl⟩ := EncodesItems.prefix_unique items hi hi' (by simpa using heq)
      exact ⟨rfl, rfl, rfl⟩
    | _ => simp [Value.kind] at hkind
  | .dict entries, .dict he _ =>
    cases hw with
    | dict he' _ =>
      obtain ⟨rfl, rfl, rfl⟩ := EncodesEntries.prefix_unique entries he he' (by simpa using heq)
      exact ⟨rfl, rfl, rfl⟩
    | _ => simp [Value.kind] at hkind

/-- Items are told apart from the sentinel behind them. -/
theorem EncodesItems.prefix_unique (items : List Value) {items' : List Value} {a b x y : Bytes}
    (hv : EncodesItems strict items a) (hw : EncodesItems strict items' b)
    (heq : a ++ endByte :: x = b ++ endByte :: y) : items = items' ∧ a = b ∧ x = y := by
  match items, hv with
  | [], .nil =>
    cases hw with
    | nil => exact ⟨rfl, rfl, (List.cons.inj heq).2⟩
    | cons hi _ =>
      obtain ⟨header, tail, rfl, hne⟩ := hi.exists_cons
      exact absurd (List.cons.inj heq).1.symm hne
  | item :: items, .cons hi hr =>
    cases hw with
    | nil =>
      obtain ⟨header, tail, rfl, hne⟩ := hi.exists_cons
      exact absurd (List.cons.inj heq).1 hne
    | cons hi' hr' =>
      simp only [List.append_assoc] at heq
      obtain ⟨rfl, rfl, hrest⟩ := Encodes.prefix_unique item hi hi' heq
      obtain ⟨rfl, rfl, rfl⟩ := EncodesItems.prefix_unique items hr hr' hrest
      exact ⟨rfl, rfl, rfl⟩

theorem EncodesEntries.prefix_unique (entries : List (String × Value))
    {entries' : List (String × Value)} {a b x y : Bytes}
    (hv : EncodesEntries strict entries a) (hw : EncodesEntries strict entries' b)
    (heq : a ++ endByte :: x = b ++ endByte :: y) : entries = entries' ∧ a = b ∧ x = y := by
  match entries, hv with
  | [], .nil =>
    cases hw with
    | nil => exact ⟨rfl, rfl, (List.cons.inj heq).2⟩
    | cons hk _ _ =>
      obtain ⟨header, tail, rfl, hne⟩ := hk.exists_cons
      exact absurd (List.cons.inj heq).1.symm hne
  | (_, item) :: entries, .cons hk hi hr =>
    cases hw with
    | nil =>
      obtain ⟨header, tail, rfl, hne⟩ := hk.exists_cons
      exact absurd (List.cons.inj heq).1 hne
    | cons hk' hi' hr' =>
      simp only [List.append_assoc] at heq
      obtain ⟨hkey, rfl, hentry⟩ := hk.sized.prefix_unique (by simp) hk'.sized heq
      obtain rfl := utf8_injective hkey
      obtain ⟨rfl, rfl, hrest⟩ := Encodes.prefix_unique item hi hi' hentry
      obtain ⟨rfl, rfl, rfl⟩ := EncodesEntries.prefix_unique entries hr hr' hrest
      exact ⟨rfl, rfl, rfl⟩

end

/-- A byte string encodes at most one value. -/
theorem Encodes.unique {v w : Value} {b : Bytes} (hv : Encodes strict v b)
    (hw : Encodes strict w b) : v = w :=
  (Encodes.prefix_unique v hv hw (x := []) (y := []) rfl).1

end Onestein.Bdf
