import Onestein.Bdf.Halting

/-!
# What the errors of the decoders say

Which bytes are refused, and why: the counterpart of the grammar of encodings. An error is the
answer exactly when its reason is there, at the front of the bytes where an object belongs or
behind the front of a container that they start with.

## Main definitions

* `decode` — either decoder.
* `Refused` — which bytes are refused where an object belongs, and why.
* `Error.Holds` — what an error says of the input.
* `Error.isFormal`, `Error.isExhausted` — the errors of strict mode, and those of a cut input.

## Main results

* `value_eq_error` — `value` stops with an error exactly where the bytes are refused with it.
* `error_holds` — an error is the answer exactly when what it says is true of the input.
-/

namespace Onestein.Bdf

open Bytes Reader

/-- Either decoder. -/
def decode (strict : Bool) (input : Bytes) : Except Error Value :=
  readOne.answer ⟨input, 0, strict⟩ (halts_readOne _)

theorem decode_false (input : Bytes) : decode false input = fromBytes input := rfl
theorem decode_true (input : Bytes) : decode true input = fromBytesCanonical input := rfl

theorem decode_eq_ok {strict : Bool} {input : Bytes} {v : Value} :
    decode strict input = .ok v ↔ Encodes strict v input ∧ v.nesting ≤ maxNesting :=
  (Prog.answer_eq_ok _).trans readOne_eq_ok

namespace Error

/-- The errors that only strict mode has. -/
def isFormal : Error → Bool
  | .nonMinimalInteger .. | .nonMinimalLength .. | .keysOutOfOrder | .duplicateKey => true
  | _ => false

/-- The errors of an input that ends too early. -/
def isExhausted : Error → Bool
  | .truncated | .lengthBeyondInput .. => true
  | _ => false

end Error

/-! ## Which bytes are refused -/

/-- Whether version 1 defines a header: its type, and the low bits its type allows. -/
def isKnown (header : UInt8) : Bool :=
  match (header >>> 4).toNat with
  | 0 | 6 | 7 => header &&& 0x0f = 0
  | 1 => header &&& 0x0f ≤ 1
  | 2 | 3 | 4 | 5 | 8 => true
  | _ => false

/-- A header of this type with these low bits. -/
def Announces (header : UInt8) (kind : Nat) (low : UInt8) : Prop :=
  (header >>> 4).toNat = kind ∧ header &&& 0x0f = low

/-- Why no number of the width `low` is in front. -/
inductive NumberRefused (low : UInt8) : Bytes → Error → Prop
  | width {b : Bytes} (h : ¬ isWidth low) : NumberRefused low b (.invalidIntLength low)
  | truncated {b : Bytes} (h : isWidth low) (hshort : b.length < low.toNat) :
      NumberRefused low b .truncated

/-- Why no integer of the width `low` is in front. -/
inductive IntRefused (strict : Bool) (low : UInt8) : Bytes → Error → Prop
  | number {b : Bytes} {e : Error} (h : NumberRefused low b e) : IntRefused strict low b e
  | nonMinimal {a b : Bytes} {number : Int64} (hstrict : strict)
      (h : EncodesInt false low a number) (hmore : minimalIntLength number < low) :
      IntRefused strict low (a ++ b) (.nonMinimalInteger low (minimalIntLength number))

/-- Why no length of the width `low` is in front. -/
inductive LengthRefused (strict : Bool) (low : UInt8) : Bytes → Error → Prop
  | width {b : Bytes} (h : ¬ isWidth low) : LengthRefused strict low b (.invalidLengthOfLength low)
  | truncated {b : Bytes} (h : isWidth low) (hshort : b.length < low.toNat) :
      LengthRefused strict low b .truncated
  | nonMinimal {a b : Bytes} {number : Int64} (hstrict : strict)
      (h : EncodesInt false low a number) (hmore : minimalIntLength number < low) :
      LengthRefused strict low (a ++ b) (.nonMinimalLength low (minimalIntLength number))
  | negative {a b : Bytes} {number : Int64} (h : EncodesInt strict low a number)
      (hneg : number < 0) : LengthRefused strict low (a ++ b) (.negativeLength number)

/-- Why there is no length of the width `low` in front with as many bytes behind it. -/
inductive SizedRefused (strict : Bool) (low : UInt8) : Bytes → Error → Prop
  | length {b : Bytes} {e : Error} (h : LengthRefused strict low b e) : SizedRefused strict low b e
  | beyond {a b : Bytes} {number : Int64} {needed : UInt64} (h : EncodesInt strict low a number)
      (hneeded : number.toInt = needed.toNat) (hshort : b.length < needed.toNat) :
      SizedRefused strict low (a ++ b) (.lengthBeyondInput needed b.length)

/-- `b` is items of a list whose header is at this depth. -/
structure ItemsAt (strict : Bool) (depth : Nat) (items : List Value) (b : Bytes) : Prop where
  encodes : EncodesItems strict items b
  nesting_le : depth + 1 + nestingItems items ≤ maxNesting

/-- `b` is entries of a dictionary whose header is at this depth. -/
structure EntriesAt (strict : Bool) (depth : Nat) (entries : List (String × Value)) (b : Bytes) :
    Prop where
  encodes : EncodesEntries strict entries b
  sorted : strict → keysSorted entries
  nesting_le : depth + 1 + nestingEntries entries ≤ maxNesting

/-- A key may stand behind these entries, as far as their order goes. -/
def KeyFollows (strict : Bool) (entries : List (String × Value)) (key : String) : Prop :=
  strict → ∀ last ∈ entries.getLast?, utf8 last.1 < utf8 key

/-- Why a key that was read is refused behind these entries. -/
inductive KeyRefused (strict : Bool) (entries : List (String × Value)) : Value → Error → Prop
  | notAString {v : Value} (h : ∀ key, v ≠ .str key) : KeyRefused strict entries v .keyNotAString
  | duplicate {key : String} {item : Value} (hstrict : strict)
      (h : (key, item) ∈ entries.getLast?) : KeyRefused strict entries (.str key) .duplicateKey
  | outOfOrder {key : String} {last : String × Value} (hstrict : strict)
      (h : last ∈ entries.getLast?) (hlt : utf8 key < utf8 last.1) :
      KeyRefused strict entries (.str key) .keysOutOfOrder

mutual

/-- Which bytes are refused where an object belongs, `depth` containers deep, and why. What is wrong
is at their front, or where the next element of a container belongs that they start with. -/
inductive Refused (strict : Bool) : Nat → Bytes → Error → Prop
  | truncated {depth : Nat} : Refused strict depth [] .truncated
  | unknownType {depth : Nat} {header : UInt8} {b : Bytes} (h : ¬ isKnown header) :
      Refused strict depth (header :: b) (.unknownType header)
  | int {depth : Nat} {header low : UInt8} {b : Bytes} {e : Error}
      (hheader : Announces header 2 low) (h : IntRefused strict low b e) :
      Refused strict depth (header :: b) e
  | floatLength {depth : Nat} {header low : UInt8} {b : Bytes} (hheader : Announces header 3 low)
      (h : low ≠ 8) : Refused strict depth (header :: b) (.invalidFloatLength low)
  | float {depth : Nat} {header : UInt8} {b : Bytes} (hheader : Announces header 3 8)
      (hshort : b.length < 8) : Refused strict depth (header :: b) (.lengthBeyondInput 8 b.length)
  | sized {depth : Nat} {header low : UInt8} {b : Bytes} {e : Error}
      (hheader : Announces header 4 low ∨ Announces header 5 low)
      (h : SizedRefused strict low b e) : Refused strict depth (header :: b) e
  | invalidUtf8 {depth : Nat} {header low : UInt8} {a bytes b : Bytes} {number : Int64}
      (hheader : Announces header 4 low) (h : EncodesInt strict low a number)
      (hlength : number.toInt = bytes.length) (htext : text? bytes = none) :
      Refused strict depth (header :: (a ++ (bytes ++ b))) .invalidUtf8
  | unexpectedEnd {depth : Nat} {header low : UInt8} {b : Bytes}
      (hheader : Announces header 8 low) : Refused strict depth (header :: b) .unexpectedEnd
  | tooDeeplyNested {header : UInt8} {b : Bytes} (hheader : header = 0x60 ∨ header = 0x70) :
      Refused strict maxNesting (header :: b) .tooDeeplyNested
  | item {depth : Nat} {items : List Value} {a b : Bytes} {e : Error}
      (hitems : ItemsAt strict depth items a) (hmore : b.head? ≠ some endByte)
      (h : Refused strict (depth + 1) b e) : Refused strict depth (0x60 :: (a ++ b)) e
  | entry {depth : Nat} {entries : List (String × Value)} {a b : Bytes} {e : Error}
      (hentries : EntriesAt strict depth entries a) (h : EntryRefused strict depth entries b e) :
      Refused strict depth (0x70 :: (a ++ b)) e

/-- Which bytes are refused where the next entry of a dictionary belongs, and why: its key is no
object, no key here, or has no object behind it. -/
inductive EntryRefused (strict : Bool) :
    Nat → List (String × Value) → Bytes → Error → Prop
  | object {depth : Nat} {entries : List (String × Value)} {b : Bytes} {e : Error}
      (hmore : b.head? ≠ some endByte) (h : Refused strict (depth + 1) b e) :
      EntryRefused strict depth entries b e
  | key {depth : Nat} {entries : List (String × Value)} {v : Value} {k b : Bytes} {e : Error}
      (hkey : Encodes strict v k) (hnesting : depth + 1 + v.nesting ≤ maxNesting)
      (h : KeyRefused strict entries v e) : EntryRefused strict depth entries (k ++ b) e
  | value {depth : Nat} {entries : List (String × Value)} {key : String} {k b : Bytes} {e : Error}
      (hkey : Encodes strict (.str key) k) (hfollows : KeyFollows strict entries key)
      (h : Refused strict (depth + 1) b e) : EntryRefused strict depth entries (k ++ b) e

end

/-- What an error says of the input that it is the answer to. -/
def Error.Holds (input : Bytes) (strict : Bool) (e : Error) : Prop :=
  Refused strict 0 input e ∨
    ∃ v a b, input = a ++ b ∧ Encodes strict v a ∧ v.nesting ≤ maxNesting ∧ b ≠ [] ∧
      e = .trailingBytes b.length

/-! ## Bytes, numbers and lengths -/

section Arms

variable {r : Reader} {low : UInt8} {e : Error}

/-- What was read is the front of what was left. -/
theorem Reader.Reads.rest_eq {r r' : Reader} {b : Bytes} (h : r.Reads b r') :
    r.rest = b ++ r'.rest := by
  obtain ⟨⟨t, ht⟩, rfl⟩ := h
  rw [rest_advance, ← ht, List.drop_left]

/-- What is in front can be read. -/
theorem exists_reads {b t : Bytes} (h : r.rest = b ++ t) : ∃ r', r.Reads b r' ∧ r'.rest = t := by
  have hr : r.Reads b (r.advance b.length) := reads_self ⟨t, h.symm⟩
  exact ⟨_, hr, by rw [rest_advance, h, List.drop_left]⟩

theorem byte_eq_error : byte r = some (.error e) ↔ r.rest = [] ∧ e = .truncated := by
  rw [byte, Prog.bind_of_ok (Prog.get_apply r), getElem?_pos]
  cases r.rest with
  | nil => simp [eq_comm]
  | cons x t => simp [Prog.bind_of_ok (Prog.set_apply r (r.advance 1))]

theorem take_eq_error {count : UInt64} :
    take count r = some (.error e) ↔
      r.rest.length < count.toNat ∧ e = .lengthBeyondInput count r.rest.length := by
  rw [take, Prog.bind_of_ok (Prog.get_apply r), length_rest]
  split
  case isTrue h => simp [h, eq_comm]
  case isFalse h => simp [h, Prog.bind_of_ok (Prog.set_apply r _)]

theorem signedBytes_eq_error {count : Nat} {number : Int64} {first : Bool} :
    signedBytes count number first r = some (.error e) ↔
      r.rest.length < count ∧ e = .truncated := by
  induction count generalizing r number first with
  | zero => simp [signedBytes]
  | succ count ih =>
    simp only [signedBytes, Prog.bind_eq_error, byte_eq_error, byte_eq_ok, ih]
    constructor
    · intro h
      obtain ⟨hnil, he⟩ | ⟨x, s, hx, hlt, he⟩ := h
      · exact ⟨by simp [hnil], he⟩
      · exact ⟨by simpa [hx.rest_eq] using hlt, he⟩
    · rintro ⟨hlt, he⟩
      cases hrest : r.rest with
      | nil => exact .inl ⟨rfl, he⟩
      | cons x t =>
        obtain ⟨s, hx, rfl⟩ := exists_reads (b := [x]) hrest
        exact .inr ⟨x, s, hx, by simpa [hrest] using hlt, he⟩

theorem signed_eq_error :
    signed low r = some (.error e) ↔ NumberRefused low r.rest e := by
  rw [signed, Prog.ite_fail_eq_error, signedBytes_eq_error]
  constructor
  · intro h
    obtain ⟨hwidth, hshort, rfl⟩ | ⟨hwidth, rfl⟩ := h
    · exact .truncated hwidth hshort
    · exact .width hwidth
  · intro h
    cases h with
    | width hwidth => exact .inr ⟨hwidth, rfl⟩
    | truncated hwidth hshort => exact .inl ⟨hwidth, hshort, rfl⟩

theorem EncodesInt.lt_of_ne {a : Bytes} {number : Int64} (h : EncodesInt false low a number)
    (hne : minimalIntLength number ≠ low) : minimalIntLength number < low :=
  UInt8.lt_of_le_of_ne h.minimalIntLength_le hne

theorem intValue_eq_error :
    intValue low r = some (.error e) ↔ IntRefused r.strict low r.rest e := by
  rw [intValue, Prog.bind_eq_error, signed_eq_error]
  constructor
  · intro h
    obtain h | ⟨number, s, hsigned, hrest⟩ := h
    · exact .number h
    · obtain ⟨b, hint, hb⟩ := signed_eq_ok.mp hsigned
      rw [Prog.bind_of_ok (Prog.get_apply s)] at hrest
      split_ifs at hrest with hmin
      · obtain rfl : .nonMinimalInteger low (minimalIntLength number) = e := by simpa using hrest
        rw [hb.rest_eq]
        exact .nonMinimal (hb.strict_eq ▸ hmin.1) hint (hint.lt_of_ne hmin.2)
      · simp at hrest
  · intro h
    generalize hr : r.rest = b at h
    cases h with
    | number h => exact .inl h
    | @nonMinimal a t number hstrict hint hmore =>
      obtain ⟨s, hs, rfl⟩ := exists_reads hr
      refine .inr ⟨number, s, signed_eq_ok.mpr ⟨a, hint, hs⟩, ?_⟩
      rw [Prog.bind_of_ok (Prog.get_apply s),
        if_pos ⟨hs.strict_eq.trans hstrict, UInt8.ne_of_lt hmore⟩]
      rfl

theorem length_eq_error :
    length low r = some (.error e) ↔ LengthRefused r.strict low r.rest e := by
  rw [length, Prog.ite_fail_eq_error, Prog.bind_eq_error, signed_eq_error]
  constructor
  · intro h
    obtain ⟨hwidth, h | ⟨number, s, hsigned, hrest⟩⟩ | ⟨hwidth, rfl⟩ := h
    · cases h with
      | width h => exact absurd hwidth h
      | truncated _ hshort => exact .truncated hwidth hshort
    · obtain ⟨b, hint, hb⟩ := signed_eq_ok.mp hsigned
      rw [Prog.bind_of_ok (Prog.get_apply s)] at hrest
      rw [hb.rest_eq, ← hb.strict_eq]
      split_ifs at hrest with hmin hneg
      · obtain rfl : .nonMinimalLength low (minimalIntLength number) = e := by simpa using hrest
        exact .nonMinimal hmin.1 hint (hint.lt_of_ne hmin.2)
      · obtain rfl : .negativeLength number = e := by simpa using hrest
        refine .negative { hint with minimal := fun hs => ?_ } hneg
        by_contra hne
        exact hmin ⟨hs, hne⟩
      · simp at hrest
    · exact .width hwidth
  · intro h
    generalize hr : r.rest = b at h
    cases h with
    | width hwidth => exact .inr ⟨hwidth, rfl⟩
    | truncated hwidth hshort => exact .inl ⟨hwidth, .inl (.truncated hwidth hshort)⟩
    | @nonMinimal a t number hstrict hint hmore =>
      obtain ⟨s, hs, rfl⟩ := exists_reads hr
      refine .inl ⟨hint.isWidth, .inr ⟨number, s, signed_eq_ok.mpr ⟨a, hint, hs⟩, ?_⟩⟩
      rw [Prog.bind_of_ok (Prog.get_apply s),
        if_pos ⟨hs.strict_eq.trans hstrict, UInt8.ne_of_lt hmore⟩]
      rfl
    | @negative a t number hint hneg =>
      obtain ⟨s, hs, rfl⟩ := exists_reads hr
      refine .inl ⟨hint.isWidth, .inr ⟨number, s, signed_eq_ok.mpr ⟨a, hint.relax, hs⟩, ?_⟩⟩
      have hmin : ¬ (s.strict = true ∧ minimalIntLength number ≠ low) := fun hm =>
        hm.2 (hint.minimal (hs.strict_eq ▸ hm.1))
      rw [Prog.bind_of_ok (Prog.get_apply s), if_neg hmin, if_pos hneg]
      rfl

/-- A length, or the bytes it announces, for a string or a byte string. -/
theorem length_take_eq_error :
    (length low r = some (.error e) ∨
      ∃ count s, length low r = some (.ok (count, s)) ∧ take count s = some (.error e)) ↔
      SizedRefused r.strict low r.rest e := by
  simp only [length_eq_error, length_eq_ok, take_eq_error]
  constructor
  · intro h
    obtain h | ⟨count, s, ⟨a, number, hint, hcount, ha⟩, hshort, rfl⟩ := h
    · exact .length h
    · exact ha.rest_eq ▸ .beyond hint hcount hshort
  · intro h
    generalize hr : r.rest = b at h
    cases h with
    | length h => exact .inl h
    | @beyond a t number needed hint hneeded hshort =>
      obtain ⟨s, hs, rfl⟩ := exists_reads hr
      exact .inr ⟨needed, s, ⟨a, number, hint, hneeded, hs⟩, hshort, rfl⟩

theorem rawValue_eq_error :
    rawValue low r = some (.error e) ↔ SizedRefused r.strict low r.rest e := by
  simp [rawValue, Prog.bind_eq_error, ← length_take_eq_error]

theorem strValue_eq_error :
    strValue low r = some (.error e) ↔ SizedRefused r.strict low r.rest e ∨
      ∃ a bytes b number, r.rest = a ++ (bytes ++ b) ∧ EncodesInt r.strict low a number ∧
        number.toInt = bytes.length ∧ text? bytes = none ∧ e = .invalidUtf8 := by
  rw [← length_take_eq_error, strValue, Prog.bind_eq_error]
  simp only [Prog.bind_eq_error]
  constructor
  · intro h
    obtain h | ⟨count, s, hlength, h | ⟨bytes, t, htake, hrest⟩⟩ := h
    · exact .inl (.inl h)
    · exact .inl (.inr ⟨count, s, hlength, h⟩)
    · obtain ⟨a, number, hint, hlen, hr⟩ := length_take_eq_ok.mp ⟨count, s, hlength, htake⟩
      cases htext : text? bytes with
      | some text => simp [htext] at hrest
      | none =>
        obtain rfl : .invalidUtf8 = e := by simpa [htext] using hrest
        exact .inr ⟨a, bytes, t.rest, number, by simpa using hr.rest_eq, hint, hlen, htext, rfl⟩
  · intro h
    obtain (h | ⟨count, s, hlength, h⟩) | ⟨a, bytes, b, number, hr, hint, hlen, htext, rfl⟩ := h
    · exact .inl h
    · exact .inr ⟨count, s, hlength, .inl h⟩
    · obtain ⟨t, ht, rfl⟩ := exists_reads (b := a ++ bytes) (by simpa using hr)
      obtain ⟨count, s, hlength, htake⟩ := length_take_eq_ok.mpr ⟨a, number, hint, hlen, ht⟩
      exact .inr ⟨count, s, hlength, .inr ⟨bytes, t, htake, by simp [htext]⟩⟩

theorem floatValue_eq_error :
    floatValue low r = some (.error e) ↔ (low ≠ 8 ∧ e = .invalidFloatLength low) ∨
      low = 8 ∧ r.rest.length < 8 ∧ e = .lengthBeyondInput 8 r.rest.length := by
  unfold floatValue
  split
  case isTrue h => simp [h, eq_comm]
  case isFalse h => simp [Prog.bind_eq_error, take_eq_error, not_not.mp h]

theorem checkOrder_eq_error {key : String} {entries : List (String × Value)} :
    checkOrder key entries r = some (.error e) ↔ KeyRefused r.strict entries (.str key) e := by
  rw [checkOrder, Prog.bind_of_ok (Prog.get_apply r)]
  constructor
  · intro h
    split_ifs at h with hs
    · cases hlast : entries.getLast? with
      | none => simp [hlast] at h
      | some last =>
        simp only [hlast] at h
        cases hcmp : compare (utf8 key) (utf8 last.1) with
        | gt => simp [hcmp] at h
        | eq =>
          obtain rfl : .duplicateKey = e := by simpa [hcmp] using h
          have hkey : key = last.1 := utf8_injective (Std.compare_eq_eq_iff_eq.mp hcmp)
          have hmem : (key, last.2) ∈ entries.getLast? := by rw [hlast, hkey]; rfl
          exact .duplicate hs hmem
        | lt =>
          obtain rfl : .keysOutOfOrder = e := by simpa [hcmp] using h
          exact .outOfOrder hs hlast (compare_eq_lt.mp hcmp)
    · simp at h
  · intro h
    cases h with
    | notAString h => exact absurd rfl (h key)
    | duplicate hs hlast =>
      rw [if_pos hs, Option.mem_def.mp hlast]
      simp
    | outOfOrder hs hlast hlt =>
      rw [if_pos hs, Option.mem_def.mp hlast]
      simp [compare_eq_lt.mpr hlt]

theorem deeper_eq_error {depth : Nat} :
    deeper depth r = some (.error e) ↔ maxNesting ≤ depth ∧ e = .tooDeeplyNested := by
  unfold deeper
  split
  case isTrue h => simp [Nat.le_of_lt_succ h, eq_comm]
  case isFalse h => simp; omega

end Arms

/-! ## Containers -/

/-- `x` stops with an error exactly in front of bytes that are refused with it at this depth. -/
def RefusesAt (depth : Nat) (x : ReadM Value) : Prop :=
  ∀ r e, x r = some (.error e) ↔ Refused r.strict depth r.rest e

section Containers

variable {r : Reader} {depth : Nat} {element : ReadM Value} {e : Error}

/-- Bytes in front of an object do not end a container. -/
theorem Encodes.head?_ne_end {strict : Bool} {v : Value} {a : Bytes} (h : Encodes strict v a)
    (b : Bytes) : (a ++ b).head? ≠ some endByte := by
  obtain ⟨header, t, rfl, hne⟩ := h.exists_cons
  simpa using hne

/-- One more item in front. -/
theorem ItemsAt.cons {strict : Bool} {item : Value} {items : List Value} {a b : Bytes}
    (h : ItemsAt strict depth items b) (hitem : Encodes strict item a)
    (hnesting : depth + 1 + item.nesting ≤ maxNesting) :
    ItemsAt strict depth (item :: items) (a ++ b) where
  encodes := .cons hitem h.encodes
  nesting_le := by
    have := h.nesting_le
    simp only [nestingItems]
    omega

theorem itemLoop_eq_error (he : AcceptsAt (depth + 1) element) (hf : RefusesAt (depth + 1) element)
    (hd : depth + 1 ≤ maxNesting) {fuel : Nat} (hfuel : r.remaining < fuel) {acc : List Value} :
    itemLoop element fuel acc r = some (.error e) ↔
      ∃ items a b, r.rest = a ++ b ∧ ItemsAt r.strict depth items a ∧ b.head? ≠ some endByte ∧
        Refused r.strict (depth + 1) b e := by
  induction fuel generalizing r acc with
  | zero => omega
  | succ fuel ih =>
    rw [itemLoop, Prog.bind_of_ok peek_eq]
    split
    case isTrue hend =>
      simp only [Prog.pure_apply, Option.some.injEq, reduceCtorEq, false_iff]
      rintro ⟨items, a, b, hr, hitems, hmore, _⟩
      rw [hr] at hend
      cases hitems.encodes with
      | nil => exact hmore hend
      | cons hi _ =>
        rw [List.append_assoc] at hend
        exact hi.head?_ne_end _ hend
    case isFalse hend =>
      rw [Prog.bind_eq_error, hf]
      constructor
      · intro h
        obtain h | ⟨item, s, hitem, hrest⟩ := h
        · exact ⟨[], [], r.rest, rfl, ⟨.nil, by simpa [nestingItems] using hd⟩, hend, h⟩
        · obtain ⟨a, ha, hda, hra⟩ := (he _ _ _).mp hitem
          have hrem := hra.remaining_eq
          have hpos := ha.length_pos
          obtain ⟨items, a', b, hs, hitems, hmore, hb⟩ := (ih (by omega)).mp hrest
          rw [hra.strict_eq] at hitems hb
          exact ⟨item :: items, a ++ a', b, by rw [hra.rest_eq, hs, List.append_assoc],
            hitems.cons ha hda, hmore, hb⟩
      · rintro ⟨items, a, b, hr, hitems, hmore, hb⟩
        obtain ⟨henc, hnesting⟩ := hitems
        cases henc with
        | nil => exact .inl (by simpa [hr] using hb)
        | @cons item items a a' ha ha' =>
          simp only [nestingItems] at hnesting
          obtain ⟨s, hs, hrest⟩ := exists_reads (b := a) (by simpa using hr)
          have hrem := hs.remaining_eq
          have hpos := ha.length_pos
          refine .inr ⟨item, s, (he _ _ _).mpr ⟨a, ha, by omega, hs⟩, (ih (by omega)).mpr ?_⟩
          rw [← hs.strict_eq] at ha' hb
          exact ⟨items, a', b, hrest, ⟨ha', by omega⟩, hmore, hb⟩

/-- In front of an entry the loop is refused there, or goes on behind it. -/
theorem entryLoop_succ_eq_error (he : AcceptsAt (depth + 1) element)
    (hf : RefusesAt (depth + 1) element) (hd : depth + 1 ≤ maxNesting) {fuel : Nat}
    {acc : List (String × Value)} (hend : r.rest.head? ≠ some endByte) :
    entryLoop element (fuel + 1) acc r = some (.error e) ↔
      EntryRefused r.strict depth acc r.rest e ∨
        ∃ key item k a s, Encodes r.strict (.str key) k ∧ KeyFollows r.strict acc key ∧
          Encodes r.strict item a ∧ depth + 1 + item.nesting ≤ maxNesting ∧ r.Reads (k ++ a) s ∧
          entryLoop element fuel (acc ++ [(key, item)]) s = some (.error e) := by
  rw [entryLoop, Prog.bind_of_ok peek_eq, if_neg hend, Prog.bind_eq_error, hf]
  constructor
  · intro h
    obtain h | ⟨v, s, hkey, hrest⟩ := h
    · exact .inl (.object hend h)
    obtain ⟨k, hk, hdk, hrk⟩ := (he _ _ _).mp hkey
    cases v with
    | str key =>
      rw [Prog.bind_eq_error, checkOrder_eq_error, hrk.strict_eq] at hrest
      obtain h | ⟨⟨⟩, s', horder, hrest⟩ := hrest
      · exact .inl (hrk.rest_eq ▸ .key hk hdk h)
      obtain ⟨rfl, hfollows⟩ := checkOrder_eq_ok.mp horder
      rw [hrk.strict_eq] at hfollows
      obtain h | ⟨item, t, hitem, hrest⟩ := Prog.bind_eq_error.mp hrest
      · exact .inl (hrk.rest_eq ▸ .value hk hfollows (hrk.strict_eq ▸ (hf _ _).mp h))
      obtain ⟨a, ha, hda, hra⟩ := (he _ _ _).mp hitem
      exact .inr ⟨key, item, k, a, t, hk, hfollows, hrk.strict_eq ▸ ha, hda, hrk.append hra, hrest⟩
    | null | bool | int | float | raw | list | dict =>
      obtain rfl : .keyNotAString = e := by simpa using hrest
      exact .inl (hrk.rest_eq ▸ .key hk hdk (.notAString (by simp)))
  · rintro (h | ⟨key, item, k, a, t, hk, hfollows, ha, hda, hr, hrest⟩)
    · generalize hrest : r.rest = b at h
      cases h with
      | object _ h => exact .inl (hrest ▸ h)
      | @key _ _ v k b e hk hdk h =>
        obtain ⟨s, hs, -⟩ := exists_reads hrest
        refine .inr ⟨v, s, (he _ _ _).mpr ⟨k, hk, hdk, hs⟩, ?_⟩
        cases v with
        | str key =>
          exact Prog.bind_eq_error.mpr (.inl (checkOrder_eq_error.mpr (hs.strict_eq ▸ h)))
        | null | bool | int | float | raw | list | dict =>
          cases h
          rfl
      | @value _ _ key k b e hk hfollows h =>
        obtain ⟨s, hs, rfl⟩ := exists_reads hrest
        rw [← hs.strict_eq] at hfollows h
        refine .inr ⟨.str key, s, (he _ _ _).mpr ⟨k, hk, hd, hs⟩, ?_⟩
        exact Prog.bind_eq_error.mpr (.inr ⟨(), s, checkOrder_eq_ok.mpr ⟨rfl, hfollows⟩,
          Prog.bind_eq_error.mpr (.inl ((hf _ _).mpr h))⟩)
    · obtain ⟨s, hs, ht⟩ := reads_append.mp hr
      refine .inr ⟨.str key, s, (he _ _ _).mpr ⟨k, hk, hd, hs⟩, ?_⟩
      rw [← hs.strict_eq] at hfollows ha
      have horder : checkOrder key acc s = some (.ok ((), s)) :=
        checkOrder_eq_ok.mpr ⟨rfl, hfollows⟩
      have hitem : element s = some (.ok (item, t)) := (he _ _ _).mpr ⟨a, ha, hda, ht⟩
      exact (Prog.bind_of_ok horder _).trans ((Prog.bind_of_ok hitem _).trans hrest)

/-- Bytes that are refused where an entry belongs do not end the dictionary. -/
theorem EntryRefused.head?_ne_end {strict : Bool} {entries : List (String × Value)} {b : Bytes}
    (h : EntryRefused strict depth entries b e) : b.head? ≠ some endByte := by
  cases h with
  | object hmore _ => exact hmore
  | key hk _ _ | value hk _ _ => exact hk.head?_ne_end _

theorem entryLoop_eq_error (he : AcceptsAt (depth + 1) element)
    (hf : RefusesAt (depth + 1) element) (hd : depth + 1 ≤ maxNesting) {fuel : Nat}
    (hfuel : r.remaining < fuel) {acc : List (String × Value)} :
    entryLoop element fuel acc r = some (.error e) ↔
      ∃ new a b, r.rest = a ++ b ∧ EncodesEntries r.strict new a ∧
        (r.strict → keysSorted (acc.getLast?.toList ++ new)) ∧
        depth + 1 + nestingEntries new ≤ maxNesting ∧
        EntryRefused r.strict depth (acc ++ new) b e := by
  induction fuel generalizing r acc with
  | zero => omega
  | succ fuel ih =>
    by_cases hend : r.rest.head? = some endByte
    · rw [entryLoop, Prog.bind_of_ok peek_eq, if_pos hend]
      simp only [Prog.pure_apply, Option.some.injEq, reduceCtorEq, false_iff]
      rintro ⟨new, a, b, hr, henc, _, _, hb⟩
      rw [hr] at hend
      cases henc with
      | nil => exact hb.head?_ne_end hend
      | cons hk _ _ =>
        rw [List.append_assoc] at hend
        exact hk.head?_ne_end _ hend
    · rw [entryLoop_succ_eq_error he hf hd hend]
      constructor
      · rintro (h | ⟨key, item, k, a, s, hk, hfollows, ha, hda, hrs, hrest⟩)
        · have hnil : r.strict → keysSorted (acc.getLast?.toList ++ []) = true := by
            cases acc.getLast? <;> exact fun _ => rfl
          exact ⟨[], [], r.rest, rfl, .nil, hnil, hd, by simpa using h⟩
        · have hrem := hrs.remaining_eq
          have hpos := ha.length_pos
          rw [List.length_append] at hrem
          obtain ⟨new, a', b, hs, henc, hkeys, hdn, hb⟩ := (ih (by omega)).mp hrest
          rw [hrs.strict_eq] at henc hkeys hb
          refine ⟨(key, item) :: new, k ++ (a ++ a'), b, ?_, .cons hk ha henc,
            fun hstrict => keysSorted_snoc.mpr ⟨hfollows hstrict, hkeys hstrict⟩, ?_, ?_⟩
          · simp [hrs.rest_eq, hs]
          · simp only [nestingEntries]
            omega
          · simpa using hb
      · rintro ⟨new, a, b, hr, henc, hkeys, hdn, hb⟩
        cases henc with
        | nil => exact .inl (by simpa [hr] using hb)
        | @cons key item new k a a' hk ha ha' =>
          simp only [nestingEntries] at hdn
          obtain ⟨s, hs, hrest⟩ := exists_reads (b := k ++ a) (by simpa using hr)
          have hrem := hs.remaining_eq
          have hpos := ha.length_pos
          rw [List.length_append] at hrem
          have hfollows : KeyFollows r.strict acc key := fun hstrict =>
            (keysSorted_snoc.mp (hkeys hstrict)).1
          refine .inr ⟨key, item, k, a, s, hk, hfollows, ha, by omega, hs, (ih (by omega)).mpr ?_⟩
          rw [← hs.strict_eq] at ha' hkeys hb
          exact ⟨new, a', b, hrest, ha', fun hstrict => (keysSorted_snoc.mp (hkeys hstrict)).2,
            by omega, by simpa using hb⟩

/-- A container is refused when its loop is. -/
theorem container_eq_error {α : Type} {loop : Nat → ReadM α} {result : α → Value} :
    (do let fuel ← loopFuel; let read ← loop fuel; skipEnd; return result read : ReadM Value) r =
        some (.error e) ↔ loop (r.remaining + 1) r = some (.error e) := by
  rw [Prog.bind_of_ok loopFuel_eq, Prog.bind_eq_error]
  simp [Prog.bind_eq_error, skipEnd, Prog.bind_of_ok (Prog.get_apply _)]

theorem listValue_eq_error (he : AcceptsAt (depth + 1) element)
    (hf : RefusesAt (depth + 1) element) (hd : depth < maxNesting) :
    listValue element r = some (.error e) ↔
      ∃ items a b, r.rest = a ++ b ∧ ItemsAt r.strict depth items a ∧ b.head? ≠ some endByte ∧
        Refused r.strict (depth + 1) b e := by
  rw [listValue, container_eq_error]
  exact itemLoop_eq_error he hf hd (by omega)

theorem dictValue_eq_error (he : AcceptsAt (depth + 1) element)
    (hf : RefusesAt (depth + 1) element) (hd : depth < maxNesting) :
    dictValue element r = some (.error e) ↔
      ∃ entries a b, r.rest = a ++ b ∧ EntriesAt r.strict depth entries a ∧
        EntryRefused r.strict depth entries b e := by
  rw [dictValue, container_eq_error, entryLoop_eq_error he hf hd (by omega)]
  constructor
  · rintro ⟨entries, a, b, hr, henc, hkeys, hdn, h⟩
    exact ⟨entries, a, b, hr, ⟨henc, hkeys, hdn⟩, h⟩
  · rintro ⟨entries, a, b, hr, ⟨henc, hkeys, hdn⟩, h⟩
    exact ⟨entries, a, b, hr, henc, hkeys, hdn, h⟩

end Containers

/-! ## The reader -/

section Body

variable {r : Reader} {depth : Nat} {element : Nat → ReadM Value} {header : UInt8} {e : Error}

/-- A container is opened one level down, if there is one. -/
theorem deeper_bind_eq_error {container : ReadM Value → ReadM Value} :
    (do let depth ← deeper depth; container (element depth)) r = some (.error e) ↔
      maxNesting ≤ depth ∧ e = .tooDeeplyNested ∨
        depth < maxNesting ∧ container (element (depth + 1)) r = some (.error e) := by
  rw [Prog.bind_eq_error, deeper_eq_error]
  constructor
  · intro h
    obtain h | ⟨next, s, hdeeper, h⟩ := h
    · exact .inl h
    · obtain ⟨hlt, rfl, rfl⟩ := deeper_eq_ok.mp hdeeper
      exact .inr ⟨hlt, h⟩
  · intro h
    exact h.imp_right fun ⟨hlt, h⟩ => ⟨depth + 1, r, deeper_eq_ok.mpr ⟨hlt, rfl, rfl⟩, h⟩

theorem body_refused (he : depth < maxNesting → AcceptsAt (depth + 1) (element (depth + 1)))
    (hf : depth < maxNesting → RefusesAt (depth + 1) (element (depth + 1)))
    (hd : depth ≤ maxNesting) (h : body element depth header r = some (.error e)) :
    Refused r.strict depth (header :: r.rest) e := by
  unfold body at h
  generalize hkind : (header >>> 4).toNat = kind at h
  -- the guard on the low bits of the types that need none
  have hunknown (hlow : ¬ isKnown header) (he : .unknownType header = e) :
      Refused r.strict depth (header :: r.rest) e := he ▸ .unknownType hlow
  match kind, hkind, h with
  | 0, hkind, h | 1, hkind, h =>
    obtain ⟨-, h⟩ | ⟨hlow, h⟩ := Prog.ite_fail_eq_error.mp h
    · simp at h
    · exact hunknown (by simpa [isKnown, hkind] using hlow) h
  | 2, hkind, h => exact .int ⟨hkind, rfl⟩ (intValue_eq_error.mp h)
  | 3, hkind, h =>
    obtain ⟨hlow, rfl⟩ | ⟨hlow, hshort, rfl⟩ := floatValue_eq_error.mp h
    · exact .floatLength ⟨hkind, rfl⟩ hlow
    · exact .float ⟨hkind, hlow⟩ hshort
  | 4, hkind, h =>
    obtain h | ⟨a, bytes, b, number, hr, hint, hlen, htext, rfl⟩ := strValue_eq_error.mp h
    · exact .sized (.inl ⟨hkind, rfl⟩) h
    · exact hr ▸ .invalidUtf8 ⟨hkind, rfl⟩ hint hlen htext
  | 5, hkind, h => exact .sized (.inr ⟨hkind, rfl⟩) (rawValue_eq_error.mp h)
  | 6, hkind, h =>
    obtain ⟨hlow, h⟩ | ⟨hlow, h⟩ := Prog.ite_fail_eq_error.mp h
    · have hheader : header = 0x60 := by rw [header_eq hkind, hlow]; rfl
      obtain ⟨hle, rfl⟩ | ⟨hlt, h⟩ := deeper_bind_eq_error.mp h
      · obtain rfl : depth = maxNesting := by omega
        exact .tooDeeplyNested (.inl hheader)
      · obtain ⟨items, a, b, hr, hitems, hmore, h⟩ :=
          (listValue_eq_error (he hlt) (hf hlt) hlt).mp h
        exact hheader ▸ hr ▸ .item hitems hmore h
    · exact hunknown (by simpa [isKnown, hkind] using hlow) h
  | 7, hkind, h =>
    obtain ⟨hlow, h⟩ | ⟨hlow, h⟩ := Prog.ite_fail_eq_error.mp h
    · have hheader : header = 0x70 := by rw [header_eq hkind, hlow]; rfl
      obtain ⟨hle, rfl⟩ | ⟨hlt, h⟩ := deeper_bind_eq_error.mp h
      · obtain rfl : depth = maxNesting := by omega
        exact .tooDeeplyNested (.inr hheader)
      · obtain ⟨entries, a, b, hr, hentries, h⟩ :=
          (dictValue_eq_error (he hlt) (hf hlt) hlt).mp h
        exact hheader ▸ hr ▸ .entry hentries h
    · exact hunknown (by simpa [isKnown, hkind] using hlow) h
  | 8, hkind, h =>
    obtain rfl : .unexpectedEnd = e := by simpa using h
    exact .unexpectedEnd ⟨hkind, rfl⟩
  | kind + 9, hkind, h => exact hunknown (by simp [isKnown, hkind]) (by simpa using h)

/-- A header that version 1 does not define is refused. -/
theorem body_of_unknown (h : ¬ isKnown header) :
    body element depth header = .fail (.unknownType header) := by
  unfold isKnown at h
  unfold body
  dsimp only
  generalize (header >>> 4).toNat = kind at h ⊢
  match kind, h with
  | 0, h | 6, h | 7, h => exact if_neg fun hlow => h (decide_eq_true hlow)
  | 1, h => exact if_neg fun hlow => h (decide_eq_true hlow)
  | 2, h | 3, h | 4, h | 5, h | 8, h => exact absurd rfl h
  | kind + 9, _ => rfl

theorem body_of_refused (he : depth < maxNesting → AcceptsAt (depth + 1) (element (depth + 1)))
    (hf : depth < maxNesting → RefusesAt (depth + 1) (element (depth + 1)))
    (h : Refused r.strict depth (header :: r.rest) e) :
    body element depth header r = some (.error e) := by
  generalize hrest : r.rest = t at h
  cases h with
  | unknownType hknown => rw [body_of_unknown hknown, Prog.fail_apply]
  | @int _ _ low _ _ hheader h =>
    have hbody : body element depth header = intValue low := by
      simp only [body, hheader.1, hheader.2]
    exact hbody ▸ intValue_eq_error.mpr (hrest ▸ h)
  | @floatLength _ _ low _ hheader hlow =>
    have hbody : body element depth header = floatValue low := by
      simp only [body, hheader.1, hheader.2]
    exact hbody ▸ floatValue_eq_error.mpr (.inl ⟨hlow, rfl⟩)
  | float hheader hshort =>
    have hbody : body element depth header = floatValue 8 := by
      simp only [body, hheader.1, hheader.2]
    subst hrest
    exact hbody ▸ floatValue_eq_error.mpr (.inr ⟨rfl, hshort, rfl⟩)
  | @sized _ _ low _ _ hheader h =>
    obtain hheader | hheader := hheader
    · have hbody : body element depth header = strValue low := by
        simp only [body, hheader.1, hheader.2]
      exact hbody ▸ strValue_eq_error.mpr (.inl (hrest ▸ h))
    · have hbody : body element depth header = rawValue low := by
        simp only [body, hheader.1, hheader.2]
      exact hbody ▸ rawValue_eq_error.mpr (hrest ▸ h)
  | @invalidUtf8 _ _ low a bytes b number hheader hint hlen htext =>
    have hbody : body element depth header = strValue low := by
      simp only [body, hheader.1, hheader.2]
    exact hbody ▸ strValue_eq_error.mpr (.inr ⟨a, bytes, b, number, hrest, hint, hlen, htext, rfl⟩)
  | @unexpectedEnd _ _ low _ hheader =>
    have hbody : body element depth header = .fail .unexpectedEnd := by
      simp only [body, hheader.1]
    rw [hbody, Prog.fail_apply]
  | tooDeeplyNested hheader =>
    obtain rfl | rfl := hheader <;>
      exact deeper_bind_eq_error.mpr (.inl ⟨Nat.le_refl _, rfl⟩)
  | @item _ items a b _ hitems hmore h =>
    have hlt : depth < maxNesting := by
      have := hitems.nesting_le
      omega
    exact deeper_bind_eq_error.mpr (.inr ⟨hlt, (listValue_eq_error (he hlt) (hf hlt) hlt).mpr
      ⟨items, a, b, hrest, hitems, hmore, h⟩⟩)
  | @entry _ entries a b _ hentries h =>
    have hlt : depth < maxNesting := by
      have := hentries.nesting_le
      omega
    exact deeper_bind_eq_error.mpr (.inr ⟨hlt, (dictValue_eq_error (he hlt) (hf hlt) hlt).mpr
      ⟨entries, a, b, hrest, hentries, h⟩⟩)

end Body

/-- With frames to go as deep as containers may nest, the reader refuses what is refused. -/
theorem value_eq_error {frames depth : Nat} (hframes : maxNesting < frames + depth)
    (hd : depth ≤ maxNesting) : RefusesAt depth (value frames depth) := by
  induction frames generalizing depth with
  | zero => omega
  | succ frames ih =>
    intro r e
    have he (hlt : depth < maxNesting) : AcceptsAt (depth + 1) (value frames (depth + 1)) :=
      value_acceptsAt (by omega) (by omega)
    have hf (hlt : depth < maxNesting) : RefusesAt (depth + 1) (value frames (depth + 1)) :=
      ih (by omega) (by omega)
    rw [value, Prog.bind_eq_error, byte_eq_error]
    constructor
    · intro h
      obtain ⟨hnil, rfl⟩ | ⟨header, s, hheader, h⟩ := h
      · exact hnil ▸ .truncated
      · have hr := byte_eq_ok.mp hheader
        exact hr.strict_eq ▸ hr.rest_eq ▸ body_refused he hf hd h
    · intro h
      cases hrest : r.rest with
      | nil =>
        rw [hrest] at h
        cases h
        exact .inl ⟨rfl, rfl⟩
      | cons header t =>
        obtain ⟨s, hs, rfl⟩ := exists_reads (b := [header]) hrest
        refine .inr ⟨header, s, byte_eq_ok.mpr hs, body_of_refused he hf ?_⟩
        rwa [hrest, ← hs.strict_eq] at h

/-! ## Which errors there are -/

/-- An error inside an object speaks of the canonical form in strict mode only, and never of bytes
behind the object. -/
def Error.IsInside (strict : Bool) (e : Error) : Prop :=
  (e.isFormal → strict) ∧ ∀ left, e ≠ .trailingBytes left

theorem isInside_of_not_isFormal {strict : Bool} {e : Error} (h : e.isFormal = false)
    (hleft : ∀ left, e ≠ .trailingBytes left) : e.IsInside strict :=
  ⟨fun hformal => absurd hformal (by simp [h]), hleft⟩

theorem IntRefused.isInside {strict : Bool} {low : UInt8} {b : Bytes} {e : Error}
    (h : IntRefused strict low b e) : e.IsInside strict := by
  cases h with
  | number h => cases h <;> exact isInside_of_not_isFormal rfl (by simp)
  | nonMinimal hstrict _ _ => exact ⟨fun _ => hstrict, by simp⟩

theorem SizedRefused.isInside {strict : Bool} {low : UInt8} {b : Bytes} {e : Error}
    (h : SizedRefused strict low b e) : e.IsInside strict := by
  cases h with
  | length h =>
    cases h with
    | nonMinimal hstrict _ _ => exact ⟨fun _ => hstrict, by simp⟩
    | width | truncated | negative => exact isInside_of_not_isFormal rfl (by simp)
  | beyond _ _ _ => exact isInside_of_not_isFormal rfl (by simp)

theorem KeyRefused.isInside {strict : Bool} {entries : List (String × Value)} {v : Value}
    {e : Error} (h : KeyRefused strict entries v e) : e.IsInside strict := by
  cases h with
  | notAString _ => exact isInside_of_not_isFormal rfl (by simp)
  | duplicate hstrict _ | outOfOrder hstrict _ _ => exact ⟨fun _ => hstrict, by simp⟩

mutual

theorem Refused.isInside {strict : Bool} {depth : Nat} {b : Bytes} {e : Error}
    (h : Refused strict depth b e) : e.IsInside strict := by
  match h with
  | .truncated | .unknownType _ | .floatLength _ _ | .float _ _ | .invalidUtf8 _ _ _ _
  | .unexpectedEnd _ | .tooDeeplyNested _ => exact isInside_of_not_isFormal rfl nofun
  | .int _ h | .sized _ h => exact h.isInside
  | .item _ _ h | .entry _ h => exact h.isInside

theorem EntryRefused.isInside {strict : Bool} {depth : Nat} {entries : List (String × Value)}
    {b : Bytes} {e : Error} (h : EntryRefused strict depth entries b e) : e.IsInside strict := by
  match h with
  | .object _ h | .key _ _ h | .value _ _ h => exact h.isInside

end

/-! ## The object and what is behind it -/

section Decode

variable {strict : Bool} {input : Bytes} {v : Value} {s : Reader} {e : Error}

theorem decode_of_value_error (h : value (maxNesting + 1) 0 ⟨input, 0, strict⟩ = some (.error e)) :
    decode strict input = .error e :=
  Prog.answer_eq_map _ (Prog.bind_of_error h _)

theorem decode_of_value_ok
    (h : value (maxNesting + 1) 0 ⟨input, 0, strict⟩ = some (.ok (v, s))) :
    decode strict input =
      if s.remaining = 0 then .ok v else .error (.trailingBytes s.remaining) := by
  have hread : readOne ⟨input, 0, strict⟩ =
      some (if s.remaining = 0 then .ok (v, s) else .error (.trailingBytes s.remaining)) := by
    refine (Prog.bind_of_ok h _).trans ((Prog.bind_of_ok (Prog.get_apply s) _).trans ?_)
    split <;> rfl
  refine (Prog.answer_eq_map _ hread).trans ?_
  split <;> rfl

/-- The first object of an input is read, or it is not and that is the answer. -/
theorem value_cases (strict : Bool) (input : Bytes) :
    (∃ e, value (maxNesting + 1) 0 ⟨input, 0, strict⟩ = some (.error e)) ∨
      ∃ v s, value (maxNesting + 1) 0 ⟨input, 0, strict⟩ = some (.ok (v, s)) := by
  have hhalts : (value (maxNesting + 1) 0).Halts ⟨input, 0, strict⟩ :=
    halts_value (by omega) (by omega) _
  obtain ⟨o, ho⟩ := Option.ne_none_iff_exists'.mp hhalts
  cases o with
  | error e => exact .inl ⟨e, ho⟩
  | ok result => exact .inr ⟨result.1, result.2, ho⟩

/-- The first object of an input is refused as its bytes are. -/
theorem value_start_eq_error :
    value (maxNesting + 1) 0 ⟨input, 0, strict⟩ = some (.error e) ↔ Refused strict 0 input e :=
  value_eq_error (by omega) (by omega) _ _

/-- The first object of an input is read where it is encoded. -/
theorem value_start_eq_ok :
    value (maxNesting + 1) 0 ⟨input, 0, strict⟩ = some (.ok (v, s)) ↔
      ∃ a, Encodes strict v a ∧ v.nesting ≤ maxNesting ∧ Reads ⟨input, 0, strict⟩ a s := by
  have hacc : AcceptsAt 0 (value (maxNesting + 1) 0) := value_acceptsAt (by omega) (by omega)
  simpa using hacc ⟨input, 0, strict⟩ s v

end Decode

/-- An error is the answer exactly when what it says is true of the input. -/
theorem error_holds (input : Bytes) (strict : Bool) (e : Error) :
    decode strict input = .error e ↔ e.Holds input strict := by
  constructor
  · intro h
    obtain ⟨e', hvalue⟩ | ⟨v, s, hvalue⟩ := value_cases strict input
    · obtain rfl : e' = e := by simpa [decode_of_value_error hvalue] using h
      exact .inl (value_start_eq_error.mp hvalue)
    · obtain ⟨a, henc, hn, hr⟩ := value_start_eq_ok.mp hvalue
      rw [decode_of_value_ok hvalue] at h
      split_ifs at h with hleft
      obtain rfl : .trailingBytes s.remaining = e := by simpa using h
      refine .inr ⟨v, a, s.rest, hr.rest_eq, henc, hn, ?_, by rw [length_rest]⟩
      rwa [Ne, ← List.length_eq_zero_iff, length_rest]
  · intro h
    obtain h | ⟨v, a, b, rfl, henc, hn, hb, rfl⟩ := h
    · exact decode_of_value_error (value_start_eq_error.mpr h)
    · obtain ⟨s, hs, hrest⟩ := exists_reads (r := ⟨a ++ b, 0, strict⟩) (b := a) rfl
      rw [decode_of_value_ok (value_start_eq_ok.mpr ⟨a, henc, hn, hs⟩), ← length_rest, hrest]
      exact if_neg (by simpa using hb)

/-- A five in two bytes. -/
example : decode true [0x22, 0x00, 0x05] = .error (.nonMinimalInteger 2 1) :=
  decode_of_value_error rfl

end Onestein.Bdf
