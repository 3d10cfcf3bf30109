import Onestein.Bdf.Value
import Onestein.Lib.Prog

/-!
# Decoding BDF objects

The reader walks the input with a position. Its recursion is bounded by `frames`, the calls
that may still be active, and its loops by the bytes left; `Onestein.Bdf.Halting` proves that
neither bound is ever met, which is what makes `fromBytes` a total function.

## Main definitions

* `Error` — why a byte string is not a BDF object.
* `value` — one object at a nesting depth.
* `readOne` — one object and nothing after it.
-/

namespace Onestein.Bdf

open Bytes

inductive Error where
  | truncated
  | unknownType (header : UInt8)
  | invalidIntLength (length : UInt8)
  | invalidFloatLength (length : UInt8)
  | invalidLengthOfLength (length : UInt8)
  | negativeLength (length : Int64)
  | lengthBeyondInput (needed : UInt64) (available : Nat)
  | invalidUtf8
  | unexpectedEnd
  | keyNotAString
  | tooDeeplyNested
  | trailingBytes (left : Nat)
  | nonMinimalInteger (used minimal : UInt8)
  | nonMinimalLength (used minimal : UInt8)
  | keysOutOfOrder
  | duplicateKey
  deriving DecidableEq

/-- Positions are sums of lengths inside one slice, so the saturating additions of the source
never saturate and are plain additions here. -/
structure Reader where
  input : Bytes
  pos : Nat
  /-- Refuse anything that is not in canonical form. -/
  strict : Bool
  deriving DecidableEq

abbrev ReadM := Prog Reader Error

namespace Reader

def advance (r : Reader) (count : Nat) : Reader := { r with pos := r.pos + count }

/-- The bytes not yet read. -/
def rest (r : Reader) : Bytes := r.input.drop r.pos

def remaining (r : Reader) : Nat := r.input.length - r.pos

end Reader

def byte : ReadM UInt8 := do
  let r ← Prog.get
  match r.input[r.pos]? with
  | none => .fail .truncated
  | some byte => do
    .set (r.advance 1)
    return byte

def peek : ReadM (Option UInt8) := do
  let r ← Prog.get
  return r.input[r.pos]?

/-- Reads `count` bytes without trusting `count`. -/
def take (count : UInt64) : ReadM Bytes := do
  let r ← Prog.get
  if r.remaining < count.toNat then
    .fail (.lengthBeyondInput count r.remaining)
  else do
    .set (r.advance count.toNat)
    return r.rest.take count.toNat

/-- The loop of `signed`: the first byte is sign-extended, the others are shifted in. -/
def signedBytes : Nat → Int64 → Bool → ReadM Int64
  | 0, number, _ => return number
  | count + 1, number, first => do
    let byte ← byte
    let number := if first then byte.toInt8.toInt64 else number <<< 8 ||| byte.toUInt64.toInt64
    signedBytes count number false

/-- Big-endian two's complement over 1, 2, 4 or 8 bytes. -/
def signed (length : UInt8) : ReadM Int64 :=
  if isWidth length then signedBytes length.toNat 0 true else .fail (.invalidIntLength length)

def length (lengthOfLength : UInt8) : ReadM UInt64 :=
  if isWidth lengthOfLength then do
    let signed ← signed lengthOfLength
    let r ← Prog.get
    let minimal := minimalIntLength signed
    if r.strict ∧ minimal ≠ lengthOfLength then
      .fail (.nonMinimalLength lengthOfLength minimal)
    else if signed < 0 then
      .fail (.negativeLength signed)
    else
      return signed.toUInt64
  else
    .fail (.invalidLengthOfLength lengthOfLength)

/-- One level down, or a refusal. -/
def deeper (depth : Nat) : ReadM Nat :=
  if maxNesting < depth + 1 then .fail .tooDeeplyNested else return depth + 1

/-! ## The arms of `value` -/

def intValue (low : UInt8) : ReadM Value := do
  let number ← signed low
  let r ← Prog.get
  let minimal := minimalIntLength number
  if r.strict ∧ minimal ≠ low then
    .fail (.nonMinimalInteger low minimal)
  else
    return .int number

def floatValue (low : UInt8) : ReadM Value :=
  if low ≠ 8 then
    .fail (.invalidFloatLength low)
  else do
    let bytes ← take 8
    return .float (UInt64.ofNat (val bytes))

def strValue (low : UInt8) : ReadM Value := do
  let length ← length low
  let bytes ← take length
  match text? bytes with
  | none => .fail .invalidUtf8
  | some text => return .str text

def rawValue (low : UInt8) : ReadM Value := do
  let length ← length low
  let bytes ← take length
  return .raw bytes

/-- `while self.peek() != Some(END)` over the items of a list. -/
def itemLoop (element : ReadM Value) : Nat → List Value → ReadM (List Value)
  | 0, _ => .outOfFuel
  | fuel + 1, items => do
    let next ← peek
    if next = some endByte then
      return items
    else do
      let item ← element
      itemLoop element fuel (items ++ [item])

/-- Strict mode: a key follows the one before it. -/
def checkOrder (key : String) (entries : List (String × Value)) : ReadM Unit := do
  let r ← Prog.get
  if r.strict then
    match entries.getLast? with
    | none => return ()
    | some (previous, _) =>
      match compare (utf8 key) (utf8 previous) with
      | .gt => return ()
      | .eq => .fail .duplicateKey
      | .lt => .fail .keysOutOfOrder
  else
    return ()

/-- `while self.peek() != Some(END)` over the entries of a dictionary. -/
def entryLoop (element : ReadM Value) :
    Nat → List (String × Value) → ReadM (List (String × Value))
  | 0, _ => .outOfFuel
  | fuel + 1, entries => do
    let next ← peek
    if next = some endByte then
      return entries
    else do
      match ← element with
      | .str key => do
        checkOrder key entries
        let item ← element
        entryLoop element fuel (entries ++ [(key, item)])
      | _ => .fail .keyNotAString

/-- The bytes left bound the rounds of a loop, with one more to find them used up. -/
def loopFuel : ReadM Nat := do
  let r ← Prog.get
  return r.remaining + 1

/-- Steps over the sentinel a loop stopped at. -/
def skipEnd : ReadM Unit := do
  let r ← Prog.get
  .set (r.advance 1)

def listValue (element : ReadM Value) : ReadM Value := do
  let fuel ← loopFuel
  let items ← itemLoop element fuel []
  skipEnd
  return .list items

def dictValue (element : ReadM Value) : ReadM Value := do
  let fuel ← loopFuel
  let entries ← entryLoop element fuel []
  skipEnd
  return .dict entries

/-! ## The reader -/

/-- What a header announces, with the reader of elements for the arms of the containers. -/
def body (element : Nat → ReadM Value) (depth : Nat) (header : UInt8) : ReadM Value :=
  let kind := header >>> 4
  let low := header &&& 0x0f
  match kind.toNat with
  | 0 => if low = 0 then return .null else .fail (.unknownType header)
  | 1 => if low ≤ 1 then return .bool (low = 1) else .fail (.unknownType header)
  | 2 => intValue low
  | 3 => floatValue low
  | 4 => strValue low
  | 5 => rawValue low
  | 6 =>
    if low = 0 then do
      let depth ← deeper depth
      listValue (element depth)
    else .fail (.unknownType header)
  | 7 =>
    if low = 0 then do
      let depth ← deeper depth
      dictValue (element depth)
    else .fail (.unknownType header)
  | 8 => .fail .unexpectedEnd
  | _ => .fail (.unknownType header)

/-- One object at a nesting depth, with `frames` calls that may still be active. -/
def value : Nat → Nat → ReadM Value
  | 0, _ => .outOfFuel
  | frames + 1, depth => do
    let header ← byte
    body (value frames) depth header

/-- One object, and the input has to end there. -/
def readOne : ReadM Value := do
  let value ← value (maxNesting + 1) 0
  let r ← Prog.get
  if r.remaining = 0 then return value else .fail (.trailingBytes r.remaining)

end Onestein.Bdf
