import Onestein.Bdf.Value

/-!
# Encoding BDF objects

The writer appends to a buffer. Integers and lengths take the fewest bytes that hold them,
and dictionary entries are written in the order they are held.

## Main definitions

* `toBytes` — the encoding of a value.
* `sized` — a string or byte string behind its header and length.
-/

namespace Onestein.Bdf

open Bytes

/-- The low `length` of the eight bytes of `number`, by skipping the others. -/
def pushBe (number : Int64) (length : UInt8) (out : Bytes) : Bytes :=
  out ++ (sbe 8 number.toInt).drop (8 - length.toNat)

def writeSized (kind : UInt8) (bytes : Bytes) (out : Bytes) : Bytes :=
  -- The length is itself a signed integer, so 128 bytes already need two.
  let length := if bytes.length ≤ maxLen then Int64.ofNat bytes.length else Int64.maxValue
  let lengthOfLength := minimalIntLength length
  pushBe length lengthOfLength (out ++ [kind ||| lengthOfLength]) ++ bytes

mutual

def writeInto : Value → Bytes → Bytes
  | .null, out => out ++ [0x00]
  | .bool set, out => out ++ [0x10 ||| set.toUInt8]
  | .int number, out =>
    let length := minimalIntLength number
    pushBe number length (out ++ [0x20 ||| length])
  | .float bits, out => out ++ [0x38] ++ be 8 bits.toNat
  | .str text, out => writeSized 0x40 (utf8 text) out
  | .raw bytes, out => writeSized 0x50 bytes out
  | .list items, out => writeItems items (out ++ [0x60]) ++ [endByte]
  | .dict entries, out => writeEntries entries (out ++ [0x70]) ++ [endByte]

def writeItems : List Value → Bytes → Bytes
  | [], out => out
  | item :: items, out => writeItems items (writeInto item out)

def writeEntries : List (String × Value) → Bytes → Bytes
  | [], out => out
  | (key, item) :: entries, out =>
    writeEntries entries (writeInto item (writeSized 0x40 (utf8 key) out))

end

/-- Encodes an object with integers and lengths in the fewest bytes that hold them. -/
def toBytes (value : Value) : Bytes := writeInto value []

/-! ## The bytes appended -/

/-- The two's complement bytes of `number` in its minimal width. -/
def intBytes (number : Int64) : Bytes := sbe (minimalIntLength number).toNat number.toInt

/-- A string or byte string behind its header and length. -/
def sized (kind : UInt8) (bytes : Bytes) : Bytes := writeSized kind bytes []

theorem pushBe_minimal (number : Int64) (out : Bytes) :
    pushBe number (minimalIntLength number) out = out ++ intBytes number := by
  rw [pushBe, intBytes]
  obtain h | h | h | h := isWidth_cases (isWidth_minimalIntLength number) <;> rw [h]
  · exact congrArg (out ++ ·) (drop_sbe 7 1 _)
  · exact congrArg (out ++ ·) (drop_sbe 6 2 _)
  · exact congrArg (out ++ ·) (drop_sbe 4 4 _)
  · exact congrArg (out ++ ·) (drop_sbe 0 8 _)

theorem writeSized_eq (kind : UInt8) (bytes out : Bytes) :
    writeSized kind bytes out = out ++ sized kind bytes := by
  simp [sized, writeSized, pushBe_minimal]

mutual

theorem writeInto_eq (value : Value) (out : Bytes) :
    writeInto value out = out ++ writeInto value [] := by
  cases value with
  | null | bool | float => simp [writeInto]
  | int number => simp [writeInto, pushBe_minimal]
  | str text => simp only [writeInto]; rw [writeSized_eq, writeSized_eq _ _ []]; rfl
  | raw bytes => simp only [writeInto]; rw [writeSized_eq, writeSized_eq _ _ []]; rfl
  | list items =>
    simp only [writeInto]
    rw [writeItems_eq items, writeItems_eq items ([] ++ [0x60])]
    simp
  | dict entries =>
    simp only [writeInto]
    rw [writeEntries_eq entries, writeEntries_eq entries ([] ++ [0x70])]
    simp

theorem writeItems_eq (items : List Value) (out : Bytes) :
    writeItems items out = out ++ writeItems items [] := by
  cases items with
  | nil => simp [writeItems]
  | cons item items =>
    simp only [writeItems]
    rw [writeItems_eq items, writeItems_eq items (writeInto item []), writeInto_eq item]
    simp

theorem writeEntries_eq (entries : List (String × Value)) (out : Bytes) :
    writeEntries entries out = out ++ writeEntries entries [] := by
  match entries with
  | [] => simp [writeEntries]
  | (key, item) :: entries =>
    simp only [writeEntries]
    rw [writeEntries_eq entries, writeEntries_eq entries (writeInto item _), writeInto_eq item,
      writeInto_eq item (writeSized _ _ []), writeSized_eq, writeSized_eq _ _ []]
    simp

end

/-! ## The encoding, one equation a constructor -/

@[simp] theorem toBytes_int (number : Int64) :
    toBytes (.int number) = (0x20 ||| minimalIntLength number) :: intBytes number := by
  simp [toBytes, writeInto, pushBe_minimal]

/-- The items of a list, one after the other. -/
def itemsBytes (items : List Value) : Bytes := (items.map toBytes).flatten

/-- The entries of a dictionary, each key before its value. -/
def entriesBytes (entries : List (String × Value)) : Bytes :=
  (entries.map fun entry => sized 0x40 (utf8 entry.1) ++ toBytes entry.2).flatten

theorem writeItems_nil (items : List Value) : writeItems items [] = itemsBytes items := by
  induction items with
  | nil => rfl
  | cons item items ih =>
    rw [writeItems, writeItems_eq, ih]
    rfl

theorem writeEntries_nil (entries : List (String × Value)) :
    writeEntries entries [] = entriesBytes entries := by
  induction entries with
  | nil => rfl
  | cons entry entries ih =>
    rw [writeEntries, writeEntries_eq, ih, writeInto_eq]
    simp [entriesBytes, toBytes, sized]

@[simp] theorem toBytes_list (items : List Value) :
    toBytes (.list items) = 0x60 :: (itemsBytes items ++ [endByte]) := by
  simp only [toBytes, writeInto]
  rw [writeItems_eq, writeItems_nil]
  simp

@[simp] theorem toBytes_dict (entries : List (String × Value)) :
    toBytes (.dict entries) = 0x70 :: (entriesBytes entries ++ [endByte]) := by
  simp only [toBytes, writeInto]
  rw [writeEntries_eq, writeEntries_nil]
  simp

/-! ## The bytes of an integer -/

@[simp] theorem length_intBytes (number : Int64) :
    (intBytes number).length = (minimalIntLength number).toNat := by
  simp [intBytes]

/-- The bytes of an integer read back as the integer. -/
theorem sval_intBytes (number : Int64) : sval (intBytes number) = number.toInt :=
  sval_sbe (minimalIntLength_fits number).1 (minimalIntLength_fits number).2

/-! ## How long an encoding is -/

theorem toNat_minimalIntLength_le (number : Int64) : (minimalIntLength number).toNat ≤ 8 := by
  obtain h | h | h | h := isWidth_cases (isWidth_minimalIntLength number) <;> simp [h]

theorem length_toBytes_int_le (number : Int64) : (toBytes (.int number)).length ≤ 9 := by
  have := toNat_minimalIntLength_le number
  simp
  omega

theorem length_sized_le (kind : UInt8) (bytes : Bytes) :
    (sized kind bytes).length ≤ bytes.length + 9 := by
  rw [sized, writeSized]
  generalize (if bytes.length ≤ maxLen then Int64.ofNat bytes.length else Int64.maxValue) = length
  have := toNat_minimalIntLength_le length
  simp [pushBe_minimal]
  omega

/-- A dictionary is not much longer than its keys and values. -/
theorem length_toBytes_dict_le {entries : List (String × Value)} {m : Nat}
    (h : ∀ entry ∈ entries, (utf8 entry.1).length + (toBytes entry.2).length ≤ m) :
    (toBytes (.dict entries)).length ≤ (m + 9) * entries.length + 2 := by
  have hle : (entriesBytes entries).length ≤ (m + 9) * entries.length := by
    induction entries with
    | nil => simp [entriesBytes]
    | cons entry entries ih =>
      have hrest := ih fun other hmem => h other (List.mem_cons_of_mem _ hmem)
      have hentry := h entry List.mem_cons_self
      have hkey := length_sized_le 0x40 (utf8 entry.1)
      calc (entriesBytes (entry :: entries)).length
          = (sized 0x40 (utf8 entry.1)).length + (toBytes entry.2).length +
              (entriesBytes entries).length := by simp [entriesBytes, Nat.add_assoc]
        _ ≤ (m + 9) + (m + 9) * entries.length := by omega
        _ = (m + 9) * (entry :: entries).length := by rw [List.length_cons]; ring
  rw [toBytes_dict]
  simpa using hle

end Onestein.Bdf
