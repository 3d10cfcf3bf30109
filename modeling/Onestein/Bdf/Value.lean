import Onestein.Lib.Bytes

/-!
# BDF objects

Six primitive types and two container types. A float is held by its bit pattern, so that
equality of values is equality of bits.

## Main definitions

* `minimalIntLength` — the width the writer picks and the strict reader demands.
* `Value` and `Value.isCanonical` — objects, and the form required for hashing.
* `Value.nesting` — how many containers deep an object goes.
* `Value.Fits` — the sizes a Rust `Vec` or `String` can have.
-/

namespace Onestein.Bdf

/-- The shortest of 1, 2, 4, 8 bytes that holds `number` in two's complement. -/
def minimalIntLength (number : Int64) : UInt8 :=
  if Int8.minValue.toInt64 ≤ number ∧ number ≤ Int8.maxValue.toInt64 then 1
  else if Int16.minValue.toInt64 ≤ number ∧ number ≤ Int16.maxValue.toInt64 then 2
  else if Int32.minValue.toInt64 ≤ number ∧ number ≤ Int32.maxValue.toInt64 then 4
  else 8

/-- How deeply containers may nest before the reader refuses the input. -/
def maxNesting : Nat := 64

/-- The sentinel that closes a container. -/
def endByte : UInt8 := 0x80

/-- A BDF object. A dictionary keeps its entries in the order of the wire. -/
inductive Value where
  | null
  | bool (set : Bool)
  | int (number : Int64)
  | float (bits : UInt64)
  | str (text : String)
  | raw (bytes : Bytes)
  | list (items : List Value)
  | dict (entries : List (String × Value))
  deriving Inhabited

/-- Each key is smaller than the next one, over their UTF-8 bytes. -/
def keysSorted (entries : List (String × Value)) : Bool :=
  (entries.zip (entries.drop 1)).all fun (left, right) =>
    decide (Bytes.utf8 left.1 < Bytes.utf8 right.1)

/-- Whether entries are sorted shows on their keys. -/
theorem keysSorted_eq (entries : List (String × Value)) :
    keysSorted entries =
      ((entries.map Prod.fst).zip ((entries.map Prod.fst).drop 1)).all fun (left, right) =>
        decide (Bytes.utf8 left < Bytes.utf8 right) := by
  rw [keysSorted, ← List.map_drop, List.zip_map, List.all_map]
  rfl

mutual

/-- The form required when data is hashed or signed, as far as a value shows it: dictionary
keys unique and sorted, recursively. -/
def Value.isCanonical : Value → Bool
  | .list items => allCanonical items
  | .dict entries => keysSorted entries && allCanonicalEntries entries
  | _ => true

def allCanonical : List Value → Bool
  | [] => true
  | item :: items => item.isCanonical && allCanonical items

def allCanonicalEntries : List (String × Value) → Bool
  | [] => true
  | (_, item) :: entries => item.isCanonical && allCanonicalEntries entries

end

/-! ## Depth and size -/

mutual

/-- How many containers deep a value goes. -/
def Value.nesting : Value → Nat
  | .list items => nestingItems items + 1
  | .dict entries => nestingEntries entries + 1
  | _ => 0

def nestingItems : List Value → Nat
  | [] => 0
  | item :: items => max item.nesting (nestingItems items)

def nestingEntries : List (String × Value) → Nat
  | [] => 0
  | (_, item) :: entries => max item.nesting (nestingEntries entries)

end

/-- What is in a dictionary without containers is canonical. -/
theorem allCanonicalEntries_of_flat {entries : List (String × Value)}
    (h : nestingEntries entries = 0) : allCanonicalEntries entries := by
  induction entries with
  | nil => rfl
  | cons entry entries ih =>
    obtain ⟨key, item⟩ := entry
    rw [nestingEntries] at h
    have hitem : item.nesting = 0 := by omega
    have hrest : allCanonicalEntries entries := ih (by omega)
    cases item with
    | list | dict => simp [Value.nesting] at hitem
    | _ => exact hrest

/-- The most bytes a Rust `Vec` or `String` holds: `isize::MAX`, which is also `i64::MAX`. -/
def maxLen : Nat := 2 ^ 63 - 1

mutual

/-- Every string and byte string of a value has a size that a Rust one can have. -/
def Value.Fits : Value → Prop
  | .str text => (Bytes.utf8 text).length ≤ maxLen
  | .raw bytes => bytes.length ≤ maxLen
  | .list items => FitItems items
  | .dict entries => FitEntries entries
  | _ => True

def FitItems : List Value → Prop
  | [] => True
  | item :: items => item.Fits ∧ FitItems items

def FitEntries : List (String × Value) → Prop
  | [] => True
  | (key, item) :: entries =>
    (Bytes.utf8 key).length ≤ maxLen ∧ item.Fits ∧ FitEntries entries

end

/-! ## Integer widths -/

/-- The four widths of an integer or a length. -/
def isWidth (length : UInt8) : Bool := length = 1 ∨ length = 2 ∨ length = 4 ∨ length = 8

theorem isWidth_cases {length : UInt8} (h : isWidth length) :
    length = 1 ∨ length = 2 ∨ length = 4 ∨ length = 8 := by simpa [isWidth] using h

theorem isWidth_minimalIntLength (number : Int64) : isWidth (minimalIntLength number) := by
  unfold minimalIntLength
  split_ifs <;> rfl

/-- The minimal width is the least one whose two's complement range holds the number. -/
theorem minimalIntLength_le_iff (number : Int64) {length : UInt8} (hl : isWidth length) :
    minimalIntLength number ≤ length ↔
      -(256 ^ length.toNat : Int) ≤ 2 * number.toInt ∧ 2 * number.toInt < 256 ^ length.toNat := by
  have hlo := number.le_toInt
  have hhi := number.toInt_lt
  obtain rfl | rfl | rfl | rfl := isWidth_cases hl <;>
    simp only [minimalIntLength, Int64.le_iff_toInt_le] <;>
    split_ifs <;> simp_all <;> omega

theorem minimalIntLength_fits (number : Int64) :
    -(256 ^ (minimalIntLength number).toNat : Int) ≤ 2 * number.toInt ∧
      2 * number.toInt < 256 ^ (minimalIntLength number).toNat :=
  (minimalIntLength_le_iff number (isWidth_minimalIntLength number)).mp (UInt8.le_refl _)

end Onestein.Bdf
