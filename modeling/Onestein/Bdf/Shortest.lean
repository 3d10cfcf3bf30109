import Onestein.Bdf.Errors

/-!
# The shortest encoding

Of all the encodings of a value the writer writes the shortest, and it is the only one of its
length. A value that was decoded therefore never takes more room than the bytes it came from.

## Main definitions

* `Value.size` — the values inside a value, and the bytes of its strings.

## Main results

* `decoded_within_input` — what is decoded takes no more room than its input.
-/

namespace Onestein.Bdf

open Bytes

/-- `a` is shorter than `b`, if it is not `b`. -/
def Shorter (a b : Bytes) : Prop := a.length < b.length ∨ a = b

namespace Shorter

variable {a b c d : Bytes}

theorem refl (a : Bytes) : Shorter a a := .inr rfl

theorem append (hab : Shorter a b) (hcd : Shorter c d) : Shorter (a ++ c) (b ++ d) := by
  obtain hab | rfl := hab <;> obtain hcd | rfl := hcd
  · exact .inl (by simp; omega)
  · exact .inl (by simpa using hab)
  · exact .inl (by simpa using hcd)
  · exact .inr rfl

theorem cons (x : UInt8) (hab : Shorter a b) : Shorter (x :: a) (x :: b) :=
  (refl [x]).append hab

theorem length_le (h : Shorter a b) : a.length ≤ b.length := by
  obtain h | rfl := h
  · exact h.le
  · exact le_rfl

end Shorter

/-! ## Integers and lengths -/

/-- A number in its fewest bytes is shorter than the number in any other width. -/
theorem EncodesInt.shorter {length : UInt8} {b : Bytes} {number : Int64}
    (h : EncodesInt false length b number) (kind : UInt8) :
    Shorter ((kind ||| minimalIntLength number) :: intBytes number) ((kind ||| length) :: b) := by
  by_cases hlen : minimalIntLength number = length
  · have hint : EncodesInt true length b number := { h with minimal := fun _ => hlen }
    obtain ⟨rfl, rfl⟩ := hint.eq_intBytes
    exact .refl _
  · have hlt := UInt8.lt_iff_toNat_lt.mp (UInt8.lt_of_le_of_ne h.minimalIntLength_le hlen)
    exact .inl (by simpa [h.length_eq] using hlt)

theorem EncodesSized.shorter {kind : UInt8} {bytes b : Bytes}
    (h : EncodesSized false kind bytes b) : Shorter (sized kind bytes) b := by
  have hle := h.length_le
  obtain ⟨lengthOfLength, lengthBytes, length, hint, hlen, rfl⟩ := h
  have hlength : length = Int64.ofNat bytes.length :=
    Int64.toInt_inj.mp (hlen.trans (toInt_ofNat_length hle).symm)
  rw [sized_eq hle, ← hlength]
  exact (hint.shorter kind).append (.refl bytes)

/-! ## Values -/

mutual

/-- The writer writes the shortest encoding, and the only one of its length. -/
theorem Encodes.shorter (v : Value) {b : Bytes} (h : Encodes false v b) :
    Shorter (toBytes v) b := by
  match v, h with
  | .null, .null => exact .refl _
  | .bool _, .bool _ => exact .refl _
  | .int number, .int hint =>
    rw [toBytes_int]
    exact hint.shorter 0x20
  | .float _, .float _ => exact .refl _
  | .str _, .str hs => exact hs.shorter
  | .raw _, .raw hs => exact hs.shorter
  | .list items, .list hi =>
    rw [toBytes_list]
    exact ((EncodesItems.shorter items hi).append (.refl _)).cons 0x60
  | .dict entries, .dict he _ =>
    rw [toBytes_dict]
    exact ((EncodesEntries.shorter entries he).append (.refl _)).cons 0x70

theorem EncodesItems.shorter (items : List Value) {b : Bytes} (h : EncodesItems false items b) :
    Shorter (itemsBytes items) b := by
  match items, h with
  | [], .nil => exact .refl _
  | item :: items, .cons hi hr =>
    exact (Encodes.shorter item hi).append (EncodesItems.shorter items hr)

theorem EncodesEntries.shorter (entries : List (String × Value)) {b : Bytes}
    (h : EncodesEntries false entries b) : Shorter (entriesBytes entries) b := by
  match entries, h with
  | [], .nil => exact .refl _
  | (key, item) :: entries, .cons hk hi hr =>
    have hrest := (Encodes.shorter item hi).append (EncodesEntries.shorter entries hr)
    simpa [entriesBytes] using hk.sized.shorter.append hrest

end

/-! ## The room a value takes -/

mutual

/-- The values inside a value, itself and the keys among them, and the bytes of its strings. -/
def Value.size : Value → Nat
  | .str text => (utf8 text).length + 1
  | .raw bytes => bytes.length + 1
  | .list items => sizeItems items + 1
  | .dict entries => sizeEntries entries + 1
  | _ => 1

def sizeItems : List Value → Nat
  | [] => 0
  | item :: items => item.size + sizeItems items

def sizeEntries : List (String × Value) → Nat
  | [] => 0
  | (key, item) :: entries => (utf8 key).length + 1 + item.size + sizeEntries entries

end

theorem EncodesSized.size_le {kind : UInt8} {bytes b : Bytes}
    (h : EncodesSized false kind bytes b) : bytes.length + 1 ≤ b.length := by
  obtain ⟨lengthOfLength, lengthBytes, length, hint, hlen, rfl⟩ := h
  simp

mutual

/-- A value takes no more room than an encoding of it. -/
theorem Encodes.size_le (v : Value) {b : Bytes} (h : Encodes false v b) : v.size ≤ b.length := by
  match v, h with
  | .null, .null | .bool _, .bool _ | .int _, .int _ | .float _, .float _ => simp [Value.size]
  | .str _, .str hs | .raw _, .raw hs => exact hs.size_le
  | .list items, .list hi =>
    have := EncodesItems.size_le items hi
    simp [Value.size]
    omega
  | .dict entries, .dict he _ =>
    have := EncodesEntries.size_le entries he
    simp [Value.size]
    omega

theorem EncodesItems.size_le (items : List Value) {b : Bytes} (h : EncodesItems false items b) :
    sizeItems items ≤ b.length := by
  match items, h with
  | [], .nil => exact Nat.zero_le _
  | item :: items, .cons hi hr =>
    have hitem := Encodes.size_le item hi
    have hrest := EncodesItems.size_le items hr
    simp [sizeItems]
    omega

theorem EncodesEntries.size_le (entries : List (String × Value)) {b : Bytes}
    (h : EncodesEntries false entries b) : sizeEntries entries ≤ b.length := by
  match entries, h with
  | [], .nil => exact Nat.zero_le _
  | (key, item) :: entries, .cons hk hi hr =>
    have hkey := hk.sized.size_le
    have hitem := Encodes.size_le item hi
    have hrest := EncodesEntries.size_le entries hr
    simp [sizeEntries]
    omega

end

/-- What either decoder returns takes no more room than its input, in memory or when it is written
again, and writing it again gives fewer bytes unless it gives the input. -/
theorem decoded_within_input (strict : Bool) (input : Bytes) (v : Value)
    (h : decode strict input = .ok v) :
    v.size ≤ input.length ∧ ((toBytes v).length < input.length ∨ toBytes v = input) := by
  obtain ⟨henc, -⟩ := decode_eq_ok.mp h
  exact ⟨henc.relax.size_le, henc.relax.shorter⟩

/-- A five in two bytes is written again in one byte, a five in one byte as it was. -/
theorem decoded_within_input_five :
    ((Value.int 5).size ≤ 3 ∧
      ((toBytes (.int 5)).length < 3 ∨ toBytes (.int 5) = [0x22, 0x00, 0x05])) ∧
    (Value.int 5).size ≤ 2 ∧
      ((toBytes (.int 5)).length < 2 ∨ toBytes (.int 5) = [0x21, 0x05]) := by
  have hwide : EncodesInt false 2 [0x00, 0x05] 5 := ⟨rfl, rfl, by decide, by simp⟩
  have hshort : EncodesInt true 1 [0x05] 5 := ⟨rfl, rfl, by decide, fun _ => rfl⟩
  exact ⟨decoded_within_input false _ _ (decode_eq_ok.mpr ⟨.int hwide, by decide⟩),
    decoded_within_input true _ _ (decode_eq_ok.mpr ⟨.int hshort, by decide⟩)⟩

end Onestein.Bdf
