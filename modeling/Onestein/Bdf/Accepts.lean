import Onestein.Bdf.Grammar
import Onestein.Bdf.Read

/-!
# What the reader accepts

Every function of the reader is specified by the bytes it consumes: it returns a result
exactly when the rest of the input starts with bytes that encode it, and it stops behind them.

## Main definitions

* `Reader.Reads` — the step of a reader over the bytes in front of it.

## Main results

* `value_acceptsAt` — `value` returns exactly what the grammar says is encoded there.
* `readOne_eq_ok` — an input is accepted exactly when it is the encoding of a value that
  nests at most to the limit.
-/

namespace Onestein.Bdf

open Bytes

/-! ## Consuming bytes -/

namespace Reader

/-- `b` lies in front of `r`, and `r'` is `r` behind it. -/
def Reads (r : Reader) (b : Bytes) (r' : Reader) : Prop := b <+: r.rest ∧ r' = r.advance b.length

variable {r r' r'' : Reader} {a b : Bytes}

@[simp] theorem advance_strict (n : Nat) : (r.advance n).strict = r.strict := rfl
@[simp] theorem advance_zero : r.advance 0 = r := rfl

theorem advance_advance (m n : Nat) : (r.advance m).advance n = r.advance (m + n) := by
  simp [advance, Nat.add_assoc]

theorem rest_advance (n : Nat) : (r.advance n).rest = r.rest.drop n := by
  simp [rest, advance, Nat.add_comm]

theorem length_rest : r.rest.length = r.remaining := by simp [rest, remaining]

theorem getElem?_pos : r.input[r.pos]? = r.rest.head? := by
  simp [rest, List.head?_drop]

theorem reads_self (h : b <+: r.rest) : r.Reads b (r.advance b.length) := ⟨h, rfl⟩

@[simp] theorem reads_nil : r.Reads [] r' ↔ r' = r := by simp [Reads]

/-- Bytes in two pieces are read one piece after the other. -/
theorem reads_append :
    r.Reads (a ++ b) r'' ↔ ∃ r', r.Reads a r' ∧ r'.Reads b r'' := by
  constructor
  · rintro ⟨⟨t, ht⟩, rfl⟩
    refine ⟨_, reads_self ⟨b ++ t, by simpa using ht⟩, ⟨t, ?_⟩, ?_⟩
    · rw [rest_advance, ← ht]
      simp
    · simp [advance_advance]
  · rintro ⟨_, ⟨⟨s, hs⟩, rfl⟩, ⟨t, ht⟩, rfl⟩
    rw [rest_advance, ← hs, List.drop_left] at ht
    exact ⟨⟨t, by simp [ht, hs]⟩, by simp [advance_advance]⟩

theorem Reads.append (ha : r.Reads a r') (hb : r'.Reads b r'') : r.Reads (a ++ b) r'' :=
  reads_append.mpr ⟨r', ha, hb⟩

theorem reads_cons {x : UInt8} :
    r.Reads (x :: b) r'' ↔ ∃ r', r.Reads [x] r' ∧ r'.Reads b r'' :=
  reads_append (a := [x])

theorem Reads.strict_eq (h : r.Reads b r') : r'.strict = r.strict := by rw [h.2, advance_strict]

theorem Reads.remaining_eq (h : r.Reads b r') : r.remaining = b.length + r'.remaining := by
  have hle := h.1.length_le
  rw [length_rest] at hle
  rw [h.2]
  simp only [remaining, advance] at *
  omega

theorem Reads.head? (h : r.Reads b r') (hb : b ≠ []) : r.rest.head? = b.head? := by
  obtain ⟨t, ht⟩ := h.1
  rw [← ht, List.head?_append_of_ne_nil _ hb]

end Reader

open Reader

variable {r r' : Reader}

/-! ## Bytes and lengths -/

theorem byte_eq_ok {x : UInt8} : byte r = some (.ok (x, r')) ↔ r.Reads [x] r' := by
  have hhead : r.rest.head? = some x ↔ [x] <+: r.rest := by
    cases r.rest <;> simp [eq_comm]
  rw [Reads, ← hhead, ← getElem?_pos]
  cases h : r.input[r.pos]? with
  | none => simp [byte, Prog.bind_of_ok (Prog.get_apply r), h]
  | some y =>
    simp only [byte, Prog.bind_of_ok (Prog.get_apply r), h,
      Prog.bind_of_ok (Prog.set_apply r (r.advance 1))]
    simp [eq_comm]

theorem peek_eq : peek r = some (.ok (r.rest.head?, r)) := by
  simp [peek, Prog.bind_of_ok (Prog.get_apply r), getElem?_pos]

theorem take_eq_ok {count : UInt64} {b : Bytes} :
    take count r = some (.ok (b, r')) ↔ b.length = count.toNat ∧ r.Reads b r' := by
  simp only [take, Prog.bind_of_ok (Prog.get_apply r)]
  split
  case isTrue h =>
    constructor
    · intro hf
      simp at hf
    · rintro ⟨hlen, hr⟩
      have := hr.remaining_eq
      omega
  case isFalse h =>
    rw [Prog.bind_of_ok (Prog.set_apply r _), Prog.pure_apply]
    simp only [Option.some.injEq, Except.ok.injEq, Prod.mk.injEq]
    constructor
    · rintro ⟨rfl, rfl⟩
      have hlen : (r.rest.take count.toNat).length = count.toNat := by
        rw [List.length_take, length_rest]
        omega
      exact ⟨hlen, List.take_prefix _ _, by rw [hlen]⟩
    · rintro ⟨hlen, ⟨t, ht⟩, rfl⟩
      exact ⟨by rw [← ht, ← hlen, List.take_left], by rw [hlen]⟩

/-- The first byte of an integer carries its sign. -/
theorem toInt_signExtend (x : UInt8) : x.toInt8.toInt64.toInt = sval [x] := by
  have h := x.toInt8.toBitVec.toInt_eq_toNat_bmod
  rw [Int8.toInt_toBitVec] at h
  rw [Int8.toInt_toInt64, h]
  simp [sval, val_cons]

/-- Below 56 bits, shifting a byte in multiplies by 256 and adds it. -/
theorem toInt_shift {number : Int64} (x : UInt8) (hlo : -(2 ^ 55) ≤ number.toInt)
    (hhi : number.toInt < 2 ^ 55) :
    (number <<< 8 ||| x.toUInt64.toInt64).toInt = number.toInt * 256 + x.toNat := by
  have hx := x.toNat_lt
  have hnum := number.toBitVec.toInt_eq_toNat_cond
  rw [Int64.toInt_toBitVec] at hnum
  have hlt := number.toBitVec.isLt
  have hbits : (number <<< 8 ||| x.toUInt64.toInt64).toBitVec.toNat =
      (number.toBitVec.toNat % 2 ^ 56) * 256 + x.toNat := by
    have hor : (number <<< 8 ||| x.toUInt64.toInt64).toBitVec =
        (number.toBitVec <<< 8) ||| x.toUInt64.toBitVec := by simp
    have hshift : number.toBitVec.toNat <<< 8 % 2 ^ 64 =
        (number.toBitVec.toNat % 2 ^ 56) <<< 8 := by
      simp only [Nat.shiftLeft_eq]
      omega
    have hbyte : x.toUInt64.toBitVec.toNat = x.toNat := by simp
    rw [hor, BitVec.toNat_or, BitVec.toNat_shiftLeft, hbyte, hshift,
      ← Nat.shiftLeft_add_eq_or_of_lt (by omega), Nat.shiftLeft_eq]
  have hres := (number <<< 8 ||| x.toUInt64.toInt64).toBitVec.toInt_eq_toNat_cond
  rw [Int64.toInt_toBitVec, hbits] at hres
  rw [hres]
  omega

/-- The loop after the bytes `a`: it shifts `count` more behind them. -/
theorem signedBytes_eq_ok {count : Nat} {a : Bytes} {start number : Int64} (ha : a ≠ [])
    (hlen : a.length + count ≤ 8) (hstart : start.toInt = sval a) :
    signedBytes count start false r = some (.ok (number, r')) ↔
      ∃ b, b.length = count ∧ sval (a ++ b) = number.toInt ∧ r.Reads b r' := by
  induction count generalizing r a start with
  | zero =>
    simp only [signedBytes, Prog.pure_apply, List.length_eq_zero_iff, exists_eq_left,
      List.append_nil, reads_nil, ← hstart, Int64.toInt_inj]
    simp [eq_comm]
  | succ count ih =>
    have hpow : (256 : Int) ^ a.length ≤ 256 ^ 7 := by
      exact_mod_cast Nat.pow_le_pow_right (by omega) (by omega)
    obtain ⟨hlo, hhi⟩ := sval_bounds ha
    have hnext (x : UInt8) :
        (start <<< 8 ||| x.toUInt64.toInt64).toInt = sval (a ++ [x]) := by
      rw [toInt_shift x (by omega) (by omega), hstart, sval_concat ha]
    simp only [signedBytes, Prog.bind_eq_ok, byte_eq_ok, Bool.false_eq_true, if_false]
    constructor
    · rintro ⟨x, r₁, hx, hrest⟩
      obtain ⟨b, hb, hval, hr⟩ := (ih (by simp) (by simp; omega) (hnext x)).mp hrest
      exact ⟨x :: b, by simp [hb], by simpa using hval, reads_cons.mpr ⟨r₁, hx, hr⟩⟩
    · rintro ⟨b, hb, hval, hr⟩
      obtain ⟨x, b, rfl⟩ := List.exists_cons_of_length_eq_add_one hb
      obtain ⟨r₁, hx, hr⟩ := reads_cons.mp hr
      exact ⟨x, r₁, hx, (ih (by simp) (by simp; omega) (hnext x)).mpr
        ⟨b, by simpa using hb, by simpa using hval, hr⟩⟩

theorem signed_eq_ok {length : UInt8} {number : Int64} :
    signed length r = some (.ok (number, r')) ↔
      ∃ b, EncodesInt false length b number ∧ r.Reads b r' := by
  unfold signed
  split
  case isFalse h =>
    constructor
    · intro hf
      simp at hf
    · rintro ⟨b, hint, _⟩
      exact absurd hint.isWidth h
  case isTrue h =>
    obtain ⟨count, hcount⟩ : ∃ count, length.toNat = count + 1 ∧ count + 1 ≤ 8 := by
      obtain rfl | rfl | rfl | rfl := isWidth_cases h <;> exact ⟨_, rfl, by decide⟩
    simp only [hcount.1, signedBytes, Prog.bind_eq_ok, byte_eq_ok, if_true]
    constructor
    · rintro ⟨x, r₁, hx, hrest⟩
      obtain ⟨b, hb, hval, hr⟩ := (signedBytes_eq_ok (a := [x]) (by simp) (by simp; omega)
        (toInt_signExtend x)).mp hrest
      exact ⟨x :: b, ⟨h, by simp [hb, hcount.1], hval, by simp⟩, reads_cons.mpr ⟨r₁, hx, hr⟩⟩
    · rintro ⟨b, hint, hr⟩
      obtain ⟨x, b, rfl⟩ := List.exists_cons_of_length_eq_add_one (hint.length_eq.trans hcount.1)
      obtain ⟨r₁, hx, hr⟩ := reads_cons.mp hr
      have hb : b.length = count := by simpa [hcount.1] using hint.length_eq
      exact ⟨x, r₁, hx, (signedBytes_eq_ok (a := [x]) (by simp) (by simp; omega)
        (toInt_signExtend x)).mpr ⟨b, hb, hint.sval_eq, hr⟩⟩

/-- A signed length that is not negative is the unsigned number of the same value. -/
theorem toUInt64_eq_iff {number : Int64} {count : UInt64} :
    ¬ number < 0 ∧ number.toUInt64 = count ↔ number.toInt = count.toNat := by
  have hnum := number.toBitVec.toInt_eq_toNat_cond
  rw [Int64.toInt_toBitVec] at hnum
  have hbits : number.toUInt64.toNat = number.toBitVec.toNat := rfl
  have hlt := number.toBitVec.isLt
  have hhi := number.toInt_lt
  rw [Int64.lt_iff_toInt_lt, ← UInt64.toNat_inj, hbits, Int64.toInt_zero]
  omega

theorem length_eq_ok {lengthOfLength : UInt8} {count : UInt64} :
    length lengthOfLength r = some (.ok (count, r')) ↔
      ∃ b number, EncodesInt r.strict lengthOfLength b number ∧ number.toInt = count.toNat ∧
        r.Reads b r' := by
  unfold length
  split
  case isFalse h =>
    constructor
    · intro hf
      simp at hf
    · rintro ⟨b, number, hint, _⟩
      exact absurd hint.isWidth h
  case isTrue h =>
    simp only [Prog.bind_eq_ok, signed_eq_ok, Prog.get_apply]
    constructor
    · rintro ⟨number, r₁, ⟨b, hint, hr⟩, r₂, r₃, hget, hrest⟩
      obtain ⟨rfl, rfl⟩ : r₁ = r₂ ∧ r₁ = r₃ := by simpa using hget
      split_ifs at hrest with hmin hneg
      · simp at hrest
      · simp at hrest
      · obtain ⟨hcount, rfl⟩ : number.toUInt64 = count ∧ r₁ = r' := by simpa using hrest
        refine ⟨b, number, { hint with minimal := fun hs => ?_ },
          toUInt64_eq_iff.mp ⟨hneg, hcount⟩, hr⟩
        by_contra hne
        exact hmin ⟨hr.strict_eq.trans hs, hne⟩
    · rintro ⟨b, number, hint, hcount, hr⟩
      obtain ⟨hneg, rfl⟩ := toUInt64_eq_iff.mpr hcount
      refine ⟨number, r', ⟨b, hint.relax, hr⟩, r', r', rfl, ?_⟩
      have hmin : ¬ (r'.strict = true ∧ minimalIntLength number ≠ lengthOfLength) := fun hm =>
        hm.2 (hint.minimal (hr.strict_eq ▸ hm.1))
      rw [if_neg hmin, if_neg hneg]
      rfl

/-- A length and the bytes it announces, for a string or a byte string. -/
theorem length_take_eq_ok {low : UInt8} {bytes : Bytes} :
    (∃ count r₁, length low r = some (.ok (count, r₁)) ∧ take count r₁ = some (.ok (bytes, r'))) ↔
      ∃ b number, EncodesInt r.strict low b number ∧ number.toInt = bytes.length ∧
        r.Reads (b ++ bytes) r' := by
  simp only [length_eq_ok, take_eq_ok]
  constructor
  · rintro ⟨count, r₁, ⟨b, number, hint, hcount, hb⟩, hlen, hbytes⟩
    exact ⟨b, number, hint, by rw [hcount, hlen], hb.append hbytes⟩
  · rintro ⟨b, number, hint, hlen, hr⟩
    obtain ⟨r₁, hb, hbytes⟩ := reads_append.mp hr
    have hfit : bytes.length < 2 ^ 64 := by
      have := number.toInt_lt
      omega
    have hcount : (UInt64.ofNat bytes.length).toNat = bytes.length :=
      UInt64.toNat_ofNat_of_lt' hfit
    exact ⟨UInt64.ofNat bytes.length, r₁, ⟨b, number, hint, by rw [hcount, hlen], hb⟩,
      hcount.symm, hbytes⟩

/-! ## The arms of `value` -/

theorem intValue_eq_ok {low : UInt8} {v : Value} :
    intValue low r = some (.ok (v, r')) ↔
      ∃ b number, v = .int number ∧ EncodesInt r.strict low b number ∧ r.Reads b r' := by
  simp only [intValue, Prog.bind_eq_ok, signed_eq_ok, Prog.get_apply]
  constructor
  · rintro ⟨number, r₁, ⟨b, hint, hr⟩, r₂, r₃, hget, hrest⟩
    obtain ⟨rfl, rfl⟩ : r₁ = r₂ ∧ r₁ = r₃ := by simpa using hget
    split_ifs at hrest with hmin
    · simp at hrest
    · obtain ⟨rfl, rfl⟩ : .int number = v ∧ r₁ = r' := by simpa using hrest
      refine ⟨b, number, rfl, { hint with minimal := fun hs => ?_ }, hr⟩
      by_contra hne
      exact hmin ⟨hr.strict_eq.trans hs, hne⟩
  · rintro ⟨b, number, rfl, hint, hr⟩
    refine ⟨number, r', ⟨b, hint.relax, hr⟩, r', r', rfl, ?_⟩
    have hmin : ¬ (r'.strict = true ∧ minimalIntLength number ≠ low) := fun hm =>
      hm.2 (hint.minimal (hr.strict_eq ▸ hm.1))
    rw [if_neg hmin]
    rfl

theorem floatValue_eq_ok {low : UInt8} {v : Value} :
    floatValue low r = some (.ok (v, r')) ↔
      ∃ bits, low = 8 ∧ v = .float bits ∧ r.Reads (be 8 bits.toNat) r' := by
  unfold floatValue
  split
  case isTrue h =>
    constructor
    · intro hf
      simp at hf
    · rintro ⟨_, rfl, _⟩
      contradiction
  case isFalse h =>
    simp only [Prog.bind_eq_ok, take_eq_ok, Prog.pure_apply, Option.some.injEq, Except.ok.injEq,
      Prod.mk.injEq]
    constructor
    · rintro ⟨bytes, r₁, ⟨hlen, hr⟩, rfl, rfl⟩
      have hlen : bytes.length = 8 := hlen
      have hlt : val bytes < 2 ^ 64 := by
        have := val_lt bytes
        rwa [hlen] at this
      refine ⟨UInt64.ofNat (val bytes), not_not.mp h, rfl, ?_⟩
      rw [UInt64.toNat_ofNat_of_lt' hlt, ← hlen, be_val]
      exact hr
    · rintro ⟨bits, hlow, rfl, hr⟩
      refine ⟨be 8 bits.toNat, r', ⟨by simp, hr⟩, ?_, rfl⟩
      rw [val_be_of_lt bits.toNat_lt]
      simp

theorem strValue_eq_ok {low : UInt8} {v : Value} :
    strValue low r = some (.ok (v, r')) ↔
      ∃ text b number, v = .str text ∧ EncodesInt r.strict low b number ∧
        number.toInt = (utf8 text).length ∧ r.Reads (b ++ utf8 text) r' := by
  simp only [strValue, Prog.bind_eq_ok]
  constructor
  · rintro ⟨count, r₁, hlength, bytes, r₂, htake, hrest⟩
    cases htext : text? bytes with
    | none => simp [htext] at hrest
    | some text =>
      obtain ⟨rfl, rfl⟩ : .str text = v ∧ r₂ = r' := by simpa [htext] using hrest
      obtain rfl := text?_eq_some.mp htext
      obtain ⟨b, number, hint, hlen, hr⟩ := length_take_eq_ok.mp ⟨count, r₁, hlength, htake⟩
      exact ⟨text, b, number, rfl, hint, hlen, hr⟩
  · rintro ⟨text, b, number, rfl, hint, hlen, hr⟩
    obtain ⟨count, r₁, hlength, htake⟩ := length_take_eq_ok.mpr ⟨b, number, hint, hlen, hr⟩
    exact ⟨count, r₁, hlength, utf8 text, r', htake, by simp⟩

theorem rawValue_eq_ok {low : UInt8} {v : Value} :
    rawValue low r = some (.ok (v, r')) ↔
      ∃ bytes b number, v = .raw bytes ∧ EncodesInt r.strict low b number ∧
        number.toInt = bytes.length ∧ r.Reads (b ++ bytes) r' := by
  simp only [rawValue, Prog.bind_eq_ok, Prog.pure_apply, Option.some.injEq, Except.ok.injEq,
    Prod.mk.injEq]
  constructor
  · rintro ⟨count, r₁, hlength, bytes, r₂, htake, rfl, rfl⟩
    obtain ⟨b, number, hint, hlen, hr⟩ := length_take_eq_ok.mp ⟨count, r₁, hlength, htake⟩
    exact ⟨bytes, b, number, rfl, hint, hlen, hr⟩
  · rintro ⟨bytes, b, number, rfl, hint, hlen, hr⟩
    obtain ⟨count, r₁, hlength, htake⟩ := length_take_eq_ok.mpr ⟨b, number, hint, hlen, hr⟩
    exact ⟨count, r₁, hlength, bytes, r', htake, rfl, rfl⟩

/-! ## Containers -/

theorem deeper_eq_ok {depth next : Nat} :
    deeper depth r = some (.ok (next, r')) ↔
      depth < maxNesting ∧ next = depth + 1 ∧ r' = r := by
  unfold deeper
  split
  case isTrue h =>
    simp
    omega
  case isFalse h =>
    simp [eq_comm]
    omega

/-- `x` returns a value exactly in front of an encoding that nests at most to the limit,
counted from `depth`. -/
def AcceptsAt (depth : Nat) (x : ReadM Value) : Prop :=
  ∀ r r' v, x r = some (.ok (v, r')) ↔
    ∃ b, Encodes r.strict v b ∧ depth + v.nesting ≤ maxNesting ∧ r.Reads b r'

section Containers

variable {depth : Nat} {element : ReadM Value}

/-- In front of an encoding there is a header, and the sentinel is none. -/
theorem head?_ne_end {strict : Bool} {v : Value} {a b : Bytes} (ha : Encodes strict v a)
    (hr : r.Reads (a ++ b) r') : r.rest.head? ≠ some endByte := by
  obtain ⟨header, tail, rfl, hne⟩ := ha.exists_cons
  rw [hr.head? (by simp)]
  simpa using hne

theorem itemLoop_eq_ok (he : AcceptsAt depth element) (hd : depth ≤ maxNesting) {fuel : Nat}
    (hfuel : r.remaining < fuel) {acc items : List Value} :
    itemLoop element fuel acc r = some (.ok (items, r')) ↔
      ∃ new b, items = acc ++ new ∧ EncodesItems r.strict new b ∧
        depth + nestingItems new ≤ maxNesting ∧ r.Reads b r' ∧ r'.rest.head? = some endByte := by
  induction fuel generalizing r acc with
  | zero => omega
  | succ fuel ih =>
    rw [itemLoop, Prog.bind_of_ok peek_eq]
    split
    case isTrue hend =>
      simp only [Prog.pure_apply, Option.some.injEq, Except.ok.injEq, Prod.mk.injEq]
      constructor
      · rintro ⟨rfl, rfl⟩
        exact ⟨[], [], by simp, .nil, hd, by simp, hend⟩
      · rintro ⟨new, b, rfl, henc, -, hr, -⟩
        cases henc with
        | nil => simpa [eq_comm] using hr
        | cons hi hitems => exact absurd hend (head?_ne_end hi hr)
    case isFalse hend =>
      simp only [Prog.bind_eq_ok]
      constructor
      · rintro ⟨item, r₁, hitem, hrest⟩
        obtain ⟨a, ha, hda, hra⟩ := (he _ _ _).mp hitem
        have hrem := hra.remaining_eq
        have hpos := ha.length_pos
        obtain ⟨new, b, rfl, henc, hdb, hrb, hlast⟩ := (ih (by omega)).mp hrest
        rw [hra.strict_eq] at henc
        exact ⟨item :: new, a ++ b, by simp, .cons ha henc, by simp only [nestingItems]; omega,
          hra.append hrb, hlast⟩
      · rintro ⟨new, b, rfl, henc, hdn, hr, hlast⟩
        cases henc with
        | nil =>
          obtain rfl := reads_nil.mp hr
          contradiction
        | @cons item new a b ha hb =>
          simp only [nestingItems] at hdn
          obtain ⟨r₁, hra, hrb⟩ := reads_append.mp hr
          have hrem := hra.remaining_eq
          have hpos := ha.length_pos
          refine ⟨item, r₁, (he _ _ _).mpr ⟨a, ha, by omega, hra⟩, (ih (by omega)).mpr ?_⟩
          exact ⟨new, b, by simp, hra.strict_eq ▸ hb, by omega, hrb, hlast⟩

theorem checkOrder_eq_ok {key : String} {acc : List (String × Value)} :
    checkOrder key acc r = some (.ok ((), r')) ↔
      r' = r ∧ (r.strict → ∀ last ∈ acc.getLast?, utf8 last.1 < utf8 key) := by
  rw [checkOrder, Prog.bind_of_ok (Prog.get_apply r)]
  split
  case isFalse h => simp [h, eq_comm]
  case isTrue h =>
    cases acc.getLast? with
    | none => simp [@eq_comm _ r' r]
    | some last =>
      have hcmp := compare_eq_gt (a := utf8 key) (b := utf8 last.1)
      cases hc : compare (utf8 key) (utf8 last.1) with
      | gt => simp [h, hc, hcmp.mp hc, @eq_comm _ r' r]
      | lt | eq =>
        have hlt : ¬ utf8 last.1 < utf8 key := fun hlt => by simp [hcmp.mpr hlt] at hc
        simp [h, hc, hlt]

theorem keysSorted_cons_cons {left right : String × Value} {entries : List (String × Value)} :
    keysSorted (left :: right :: entries) = true ↔
      utf8 left.1 < utf8 right.1 ∧ keysSorted (right :: entries) = true := by
  simp [keysSorted]

/-- A key behind the last one so far, and sorted entries behind the key. -/
theorem keysSorted_snoc {acc new : List (String × Value)} {entry : String × Value} :
    keysSorted (acc.getLast?.toList ++ entry :: new) = true ↔
      (∀ last ∈ acc.getLast?, utf8 last.1 < utf8 entry.1) ∧
        keysSorted ((acc ++ [entry]).getLast?.toList ++ new) = true := by
  have hlast : (acc ++ [entry]).getLast?.toList = [entry] := by simp
  rw [hlast]
  cases acc.getLast? with
  | none => simp
  | some last => simp [keysSorted_cons_cons]

theorem entryLoop_eq_ok (he : AcceptsAt depth element) (hd : depth ≤ maxNesting) {fuel : Nat}
    (hfuel : r.remaining < fuel) {acc entries : List (String × Value)} :
    entryLoop element fuel acc r = some (.ok (entries, r')) ↔
      ∃ new b, entries = acc ++ new ∧ EncodesEntries r.strict new b ∧
        (r.strict → keysSorted (acc.getLast?.toList ++ new)) ∧
        depth + nestingEntries new ≤ maxNesting ∧ r.Reads b r' ∧
        r'.rest.head? = some endByte := by
  induction fuel generalizing r acc with
  | zero => omega
  | succ fuel ih =>
    rw [entryLoop, Prog.bind_of_ok peek_eq]
    split
    case isTrue hend =>
      simp only [Prog.pure_apply, Option.some.injEq, Except.ok.injEq, Prod.mk.injEq]
      constructor
      · rintro ⟨rfl, rfl⟩
        refine ⟨[], [], by simp, .nil, fun _ => ?_, hd, by simp, hend⟩
        cases acc.getLast? <;> rfl
      · rintro ⟨new, b, rfl, henc, -, -, hr, -⟩
        cases henc with
        | nil => simpa [eq_comm] using hr
        | cons hk hi hentries => exact absurd hend (head?_ne_end hk hr)
    case isFalse hend =>
      simp only [Prog.bind_eq_ok]
      constructor
      · rintro ⟨key, r₁, hkey, hrest⟩
        obtain ⟨k, hk, hdk, hrk⟩ := (he _ _ _).mp hkey
        cases key with
        | str key =>
          simp only [Prog.bind_eq_ok] at hrest
          obtain ⟨⟨⟩, r₂, horder, item, r₃, hitem, hrest⟩ := hrest
          obtain ⟨rfl, hsorted⟩ := checkOrder_eq_ok.mp horder
          obtain ⟨a, ha, hda, hra⟩ := (he _ _ _).mp hitem
          have hremk := hrk.remaining_eq
          have hrema := hra.remaining_eq
          have hpos := ha.length_pos
          obtain ⟨new, b, rfl, henc, hkeys, hdb, hrb, hlast⟩ := (ih (by omega)).mp hrest
          rw [hra.strict_eq, hrk.strict_eq] at henc hkeys
          rw [hrk.strict_eq] at ha hsorted
          exact ⟨(key, item) :: new, k ++ (a ++ b), by simp, .cons hk ha henc,
            fun hs => keysSorted_snoc.mpr ⟨hsorted hs, hkeys hs⟩,
            by simp only [nestingEntries]; omega, hrk.append (hra.append hrb), hlast⟩
        | null | bool | int | float | raw | list | dict => simp at hrest
      · rintro ⟨new, b, rfl, henc, hkeys, hdn, hr, hlast⟩
        cases henc with
        | nil =>
          obtain rfl := reads_nil.mp hr
          contradiction
        | @cons key item new k a b hk ha hb =>
          simp only [nestingEntries] at hdn
          obtain ⟨r₁, hrk, hr⟩ := reads_append.mp hr
          obtain ⟨r₂, hra, hrb⟩ := reads_append.mp hr
          have hremk := hrk.remaining_eq
          have hrema := hra.remaining_eq
          have hpos := ha.length_pos
          rw [← hrk.strict_eq] at ha hkeys hb
          refine ⟨.str key, r₁, (he _ _ _).mpr ⟨k, hk, by simp [Value.nesting, hd], hrk⟩, ?_⟩
          simp only [Prog.bind_eq_ok]
          refine ⟨(), r₁, checkOrder_eq_ok.mpr ⟨rfl, fun hs => (keysSorted_snoc.mp (hkeys hs)).1⟩,
            item, r₂, (he _ _ _).mpr ⟨a, ha, by omega, hra⟩, (ih (by omega)).mpr ?_⟩
          rw [← hra.strict_eq] at hb hkeys
          exact ⟨new, b, by simp, hb, fun hs => (keysSorted_snoc.mp (hkeys hs)).2, by omega, hrb,
            hlast⟩

theorem loopFuel_eq : loopFuel r = some (.ok (r.remaining + 1, r)) := rfl

theorem skipEnd_eq_ok {u : Unit} :
    skipEnd r = some (.ok (u, r')) ↔ r' = r.advance 1 := by
  simp [skipEnd, Prog.bind_of_ok (Prog.get_apply r), eq_comm]

/-- The loop stopped at the sentinel, and the reader steps over it. -/
theorem reads_end {b : Bytes} {r₁ : Reader} (hr : r.Reads b r₁)
    (hlast : r₁.rest.head? = some endByte) : r.Reads (b ++ [endByte]) (r₁.advance 1) := by
  refine hr.append ⟨?_, rfl⟩
  obtain ⟨t, ht⟩ := List.head?_eq_some_iff.mp hlast
  exact ⟨t, by simp [ht]⟩

/-- A container is read when its loop is, and the reader stops behind the sentinel. -/
theorem container_eq_ok {α : Type} {loop : Nat → ReadM α} {result : α → Value} {v : Value} :
    (do let fuel ← loopFuel; let read ← loop fuel; skipEnd; return result read : ReadM Value) r =
        some (.ok (v, r')) ↔
      ∃ read r₁, loop (r.remaining + 1) r = some (.ok (read, r₁)) ∧ v = result read ∧
        r' = r₁.advance 1 := by
  rw [Prog.bind_of_ok loopFuel_eq]
  simp only [Prog.bind_eq_ok, Prog.pure_apply, skipEnd_eq_ok]
  constructor
  · rintro ⟨read, r₁, hloop, ⟨⟩, r₂, hskip, hv⟩
    obtain ⟨rfl, rfl⟩ : result read = v ∧ r₂ = r' := by simpa using hv
    exact ⟨read, r₁, hloop, rfl, hskip⟩
  · rintro ⟨read, r₁, hloop, rfl, rfl⟩
    exact ⟨read, r₁, hloop, (), _, rfl, rfl⟩

theorem listValue_eq_ok (he : AcceptsAt depth element) (hd : depth ≤ maxNesting) {v : Value} :
    listValue element r = some (.ok (v, r')) ↔
      ∃ items b, v = .list items ∧ EncodesItems r.strict items b ∧
        depth + nestingItems items ≤ maxNesting ∧ r.Reads (b ++ [endByte]) r' := by
  rw [listValue, container_eq_ok]
  constructor
  · rintro ⟨items, r₁, hloop, rfl, rfl⟩
    obtain ⟨new, b, rfl, henc, hdn, hr, hlast⟩ := (itemLoop_eq_ok he hd (by omega)).mp hloop
    exact ⟨_, b, rfl, henc, hdn, reads_end hr hlast⟩
  · rintro ⟨items, b, rfl, henc, hdn, hr⟩
    obtain ⟨r₁, hr, hlast⟩ := reads_append.mp hr
    have hhead : r₁.rest.head? = some endByte := by rw [hlast.head? (by simp)]; rfl
    exact ⟨items, r₁,
      (itemLoop_eq_ok he hd (by omega)).mpr ⟨items, b, by simp, henc, hdn, hr, hhead⟩, rfl, hlast.2⟩

theorem dictValue_eq_ok (he : AcceptsAt depth element) (hd : depth ≤ maxNesting) {v : Value} :
    dictValue element r = some (.ok (v, r')) ↔
      ∃ entries b, v = .dict entries ∧ EncodesEntries r.strict entries b ∧
        (r.strict → keysSorted entries) ∧ depth + nestingEntries entries ≤ maxNesting ∧
        r.Reads (b ++ [endByte]) r' := by
  rw [dictValue, container_eq_ok]
  constructor
  · rintro ⟨entries, r₁, hloop, rfl, rfl⟩
    obtain ⟨new, b, rfl, henc, hkeys, hdn, hr, hlast⟩ :=
      (entryLoop_eq_ok he hd (by omega)).mp hloop
    exact ⟨_, b, rfl, henc, hkeys, hdn, reads_end hr hlast⟩
  · rintro ⟨entries, b, rfl, henc, hkeys, hdn, hr⟩
    obtain ⟨r₁, hr, hlast⟩ := reads_append.mp hr
    have hhead : r₁.rest.head? = some endByte := by rw [hlast.head? (by simp)]; rfl
    exact ⟨entries, r₁,
      (entryLoop_eq_ok he hd (by omega)).mpr ⟨entries, b, by simp, henc, hkeys, hdn, hr, hhead⟩,
      rfl, hlast.2⟩

end Containers

/-! ## Headers -/

/-- The upper four bits of a header are its kind, the lower four what the kind needs. -/
theorem header_eq {header : UInt8} {kind : Nat} (h : (header >>> 4).toNat = kind) :
    header = UInt8.ofNat (16 * kind) ||| (header &&& 0x0f) := by
  have hlt := header.toNat_lt
  have hkind : kind = header.toNat / 16 := by
    rw [← h, UInt8.toNat_shiftRight]
    exact Nat.shiftRight_eq_div_pow header.toNat 4
  have hlow : (header &&& 0x0f).toNat = header.toNat % 16 := by
    rw [UInt8.toNat_and]
    exact Nat.and_two_pow_sub_one_eq_mod header.toNat 4
  have hhigh : (UInt8.ofNat (16 * kind)).toNat = kind <<< 4 := by
    rw [UInt8.toNat_ofNat_of_lt' (by show _ < 256; omega), Nat.shiftLeft_eq, Nat.mul_comm]
  rw [← UInt8.toNat_inj, UInt8.toNat_or, hhigh, hlow,
    ← Nat.shiftLeft_add_eq_or_of_lt (by omega), Nat.shiftLeft_eq]
  omega

section Body

variable {depth : Nat} {element : Nat → ReadM Value} {header : UInt8} {v : Value}

/-- What `body` returns is encoded behind the header. -/
theorem body_sound
    (he : depth < maxNesting → AcceptsAt (depth + 1) (element (depth + 1)))
    (hd : depth ≤ maxNesting) (h : body element depth header r = some (.ok (v, r'))) :
    ∃ b, Encodes r.strict v (header :: b) ∧ depth + v.nesting ≤ maxNesting ∧ r.Reads b r' := by
  unfold body at h
  generalize hkind : (header >>> 4).toNat = kind at h
  match kind, hkind, h with
  | 0, hkind, h =>
    obtain ⟨hlow, harm⟩ := Prog.ite_fail_eq_ok.mp h
    obtain ⟨rfl, rfl⟩ : .null = v ∧ r = r' := by simpa using harm
    rw [header_eq hkind, hlow]
    exact ⟨[], .null, hd, reads_nil.mpr rfl⟩
  | 1, hkind, h =>
    obtain ⟨hlow, harm⟩ := Prog.ite_fail_eq_ok.mp h
    obtain ⟨rfl, rfl⟩ : .bool (decide (header &&& 0x0f = 1)) = v ∧ r = r' := by simpa using harm
    rw [header_eq hkind]
    obtain hbit | hbit : header &&& 0x0f = 0 ∨ header &&& 0x0f = 1 := by
      rw [UInt8.le_iff_toNat_le] at hlow
      simp only [← UInt8.toNat_inj, UInt8.toNat_ofNat] at *
      omega
    · exact ⟨[], by simpa [hbit] using .bool false, hd, reads_nil.mpr rfl⟩
    · exact ⟨[], by simpa [hbit] using .bool true, hd, reads_nil.mpr rfl⟩
  | 2, hkind, h =>
    obtain ⟨b, number, rfl, hint, hr⟩ := intValue_eq_ok.mp h
    rw [header_eq hkind]
    exact ⟨b, .int hint, hd, hr⟩
  | 3, hkind, h =>
    obtain ⟨bits, hlow, rfl, hr⟩ := floatValue_eq_ok.mp h
    rw [header_eq hkind, hlow]
    exact ⟨_, .float bits, hd, hr⟩
  | 4, hkind, h =>
    obtain ⟨text, b, number, rfl, hint, hlen, hr⟩ := strValue_eq_ok.mp h
    rw [header_eq hkind]
    exact ⟨_, .str ⟨_, b, number, hint, hlen, rfl⟩, hd, hr⟩
  | 5, hkind, h =>
    obtain ⟨bytes, b, number, rfl, hint, hlen, hr⟩ := rawValue_eq_ok.mp h
    rw [header_eq hkind]
    exact ⟨_, .raw ⟨_, b, number, hint, hlen, rfl⟩, hd, hr⟩
  | 6, hkind, h =>
    obtain ⟨hlow, harm⟩ := Prog.ite_fail_eq_ok.mp h
    obtain ⟨next, r₁, hdeeper, hlist⟩ := Prog.bind_eq_ok.mp harm
    obtain ⟨hlt, rfl, rfl⟩ := deeper_eq_ok.mp hdeeper
    obtain ⟨items, b, rfl, henc, hdn, hr⟩ := (listValue_eq_ok (he hlt) (by omega)).mp hlist
    rw [header_eq hkind, hlow]
    exact ⟨_, .list henc, by simp only [Value.nesting]; omega, hr⟩
  | 7, hkind, h =>
    obtain ⟨hlow, harm⟩ := Prog.ite_fail_eq_ok.mp h
    obtain ⟨next, r₁, hdeeper, hlist⟩ := Prog.bind_eq_ok.mp harm
    obtain ⟨hlt, rfl, rfl⟩ := deeper_eq_ok.mp hdeeper
    obtain ⟨entries, b, rfl, henc, hkeys, hdn, hr⟩ :=
      (dictValue_eq_ok (he hlt) (by omega)).mp hlist
    rw [header_eq hkind, hlow]
    exact ⟨_, .dict henc hkeys, by simp only [Value.nesting]; omega, hr⟩
  | 8, _, h => simp at h
  | kind + 9, _, h => simp at h

/-- `body` returns the value whose encoding has this header and the bytes in front. -/
theorem body_complete
    (he : depth < maxNesting → AcceptsAt (depth + 1) (element (depth + 1))) {b : Bytes}
    (henc : Encodes r.strict v (header :: b)) (hdn : depth + v.nesting ≤ maxNesting)
    (hr : r.Reads b r') : body element depth header r = some (.ok (v, r')) := by
  cases henc with
  | null =>
    obtain rfl := reads_nil.mp hr
    rfl
  | bool set =>
    obtain rfl := reads_nil.mp hr
    cases set <;> rfl
  | @int number low _ hint =>
    have hbody : body element depth (0x20 ||| low) = intValue low := by
      obtain rfl | rfl | rfl | rfl := isWidth_cases hint.isWidth <;> rfl
    rw [hbody]
    exact intValue_eq_ok.mpr ⟨b, number, rfl, hint, hr⟩
  | float bits => exact floatValue_eq_ok.mpr ⟨bits, rfl, rfl, hr⟩
  | @str text _ hs =>
    obtain ⟨low, lengthBytes, number, hint, hlen, heq⟩ := hs
    obtain ⟨rfl, rfl⟩ := List.cons.inj heq
    have hbody : body element depth (0x40 ||| low) = strValue low := by
      obtain rfl | rfl | rfl | rfl := isWidth_cases hint.isWidth <;> rfl
    rw [hbody]
    exact strValue_eq_ok.mpr ⟨text, lengthBytes, number, rfl, hint, hlen, hr⟩
  | @raw bytes _ hs =>
    obtain ⟨low, lengthBytes, number, hint, hlen, heq⟩ := hs
    obtain ⟨rfl, rfl⟩ := List.cons.inj heq
    have hbody : body element depth (0x50 ||| low) = rawValue low := by
      obtain rfl | rfl | rfl | rfl := isWidth_cases hint.isWidth <;> rfl
    rw [hbody]
    exact rawValue_eq_ok.mpr ⟨bytes, lengthBytes, number, rfl, hint, hlen, hr⟩
  | @list items b hitems =>
    simp only [Value.nesting] at hdn
    have hlt : depth < maxNesting := by omega
    exact Prog.bind_eq_ok.mpr ⟨depth + 1, r, deeper_eq_ok.mpr ⟨hlt, rfl, rfl⟩,
      (listValue_eq_ok (he hlt) (by omega)).mpr ⟨items, b, rfl, hitems, by omega, hr⟩⟩
  | @dict entries b hentries hkeys =>
    simp only [Value.nesting] at hdn
    have hlt : depth < maxNesting := by omega
    exact Prog.bind_eq_ok.mpr ⟨depth + 1, r, deeper_eq_ok.mpr ⟨hlt, rfl, rfl⟩,
      (dictValue_eq_ok (he hlt) (by omega)).mpr
        ⟨entries, b, rfl, hentries, hkeys, by omega, hr⟩⟩

end Body

/-- With frames to go as deep as containers may nest, the reader accepts what is encoded. -/
theorem value_acceptsAt {frames depth : Nat} (hframes : maxNesting < frames + depth)
    (hd : depth ≤ maxNesting) : AcceptsAt depth (value frames depth) := by
  induction frames generalizing depth with
  | zero => omega
  | succ frames ih =>
    intro r r' v
    have he (hlt : depth < maxNesting) : AcceptsAt (depth + 1) (value frames (depth + 1)) :=
      ih (by omega) (by omega)
    simp only [value, Prog.bind_eq_ok, byte_eq_ok]
    constructor
    · rintro ⟨header, r₁, hheader, hbody⟩
      obtain ⟨b, henc, hdn, hr⟩ := body_sound he hd hbody
      exact ⟨header :: b, hheader.strict_eq ▸ henc, hdn, reads_cons.mpr ⟨r₁, hheader, hr⟩⟩
    · rintro ⟨b, henc, hdn, hr⟩
      obtain ⟨header, b, rfl, -⟩ := henc.exists_cons
      obtain ⟨r₁, hheader, hr⟩ := reads_cons.mp hr
      exact ⟨header, r₁, hheader, body_complete he (hheader.strict_eq ▸ henc) hdn hr⟩

/-- The whole input is read as a value exactly when it is an encoding of it. -/
theorem readOne_eq_ok {input : Bytes} {strict : Bool} {v : Value} :
    (∃ r', readOne ⟨input, 0, strict⟩ = some (.ok (v, r'))) ↔
      Encodes strict v input ∧ v.nesting ≤ maxNesting := by
  have hacc : AcceptsAt 0 (value (maxNesting + 1) 0) := value_acceptsAt (by omega) (by omega)
  simp only [readOne, Prog.bind_eq_ok, Prog.get_apply]
  constructor
  · rintro ⟨r', v', r₁, hv, r₂, r₃, hget, hrest⟩
    obtain ⟨rfl, rfl⟩ : r₁ = r₂ ∧ r₁ = r₃ := by simpa using hget
    split_ifs at hrest with hend
    · obtain ⟨rfl, rfl⟩ : v' = v ∧ r₁ = r' := by simpa using hrest
      obtain ⟨b, henc, hdn, hr⟩ := (hacc _ _ _).mp hv
      have hlen := hr.remaining_eq
      rw [hend, ← length_rest] at hlen
      obtain rfl : b = input := hr.1.eq_of_length (by omega)
      exact ⟨henc, by omega⟩
    · simp at hrest
  · rintro ⟨henc, hdn⟩
    have hr : Reads ⟨input, 0, strict⟩ input _ := reads_self (by simp [rest])
    have hrem : (Reader.advance ⟨input, 0, strict⟩ input.length).remaining = 0 := by
      simp [remaining, advance]
    exact ⟨_, v, _, (hacc _ _ _).mpr ⟨input, henc, by omega, hr⟩, _, _, rfl,
      by rw [if_pos hrem]; rfl⟩

end Onestein.Bdf
