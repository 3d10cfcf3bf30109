import Mathlib

/-!
# Machine words

The arithmetic on 64-bit words that does not wrap around (a checked operation has no result
where the exact one does not fit, a saturating one stops at the nearest number that does), the
conversions between signed and unsigned words, 32-bit words as sets of bits, and flags in the top
bit of a word.
-/

namespace UInt64

/-- The largest word. -/
def last : UInt64 := 0xFFFFFFFFFFFFFFFF

def checkedAdd (a b : UInt64) : Option UInt64 :=
  if a.toNat + b.toNat < 2 ^ 64 then some (a + b) else none

def checkedSub (a b : UInt64) : Option UInt64 :=
  if b ≤ a then some (a - b) else none

def saturatingAdd (a b : UInt64) : UInt64 :=
  if a.toNat + b.toNat < 2 ^ 64 then a + b else last

def saturatingSub (a b : UInt64) : UInt64 :=
  if b ≤ a then a - b else 0

def saturatingMul (a b : UInt64) : UInt64 :=
  if a.toNat * b.toNat < 2 ^ 64 then a * b else last

@[simp] theorem toNat_last : last.toNat = 2 ^ 64 - 1 := rfl

theorem le_last (a : UInt64) : a ≤ last := by
  rw [UInt64.le_iff_toNat_le, toNat_last]
  have := a.toNat_lt
  omega

theorem toNat_saturatingAdd (a b : UInt64) :
    (a.saturatingAdd b).toNat = min (a.toNat + b.toNat) (2 ^ 64 - 1) := by
  unfold saturatingAdd
  split
  case isTrue h =>
    rw [UInt64.toNat_add, Nat.mod_eq_of_lt h]
    omega
  case isFalse h =>
    rw [toNat_last]
    omega

theorem toNat_saturatingSub (a b : UInt64) :
    (a.saturatingSub b).toNat = a.toNat - b.toNat := by
  unfold saturatingSub
  split
  case isTrue h => exact UInt64.toNat_sub_of_le a b h
  case isFalse h =>
    rw [UInt64.le_iff_toNat_le] at h
    simp only [UInt64.toNat_zero]
    omega

theorem toNat_saturatingMul (a b : UInt64) :
    (a.saturatingMul b).toNat = min (a.toNat * b.toNat) (2 ^ 64 - 1) := by
  unfold saturatingMul
  split
  case isTrue h =>
    rw [UInt64.toNat_mul, Nat.mod_eq_of_lt h]
    omega
  case isFalse h =>
    rw [toNat_last]
    omega

theorem checkedAdd_eq_some {a b c : UInt64} :
    a.checkedAdd b = some c ↔ c.toNat = a.toNat + b.toNat := by
  have hc := c.toNat_lt
  unfold checkedAdd
  split
  case isTrue h =>
    rw [Option.some.injEq, ← UInt64.toNat_inj, UInt64.toNat_add, Nat.mod_eq_of_lt h, eq_comm]
  case isFalse h =>
    simp only [reduceCtorEq, false_iff]
    omega

theorem checkedAdd_one_eq_none {a : UInt64} : a.checkedAdd 1 = none ↔ a = last := by
  have ha := a.toNat_lt
  rw [← UInt64.toNat_inj, toNat_last, checkedAdd, UInt64.toNat_one]
  split <;> simp <;> omega

theorem checkedSub_eq_some {a b c : UInt64} :
    a.checkedSub b = some c ↔ a.toNat = b.toNat + c.toNat := by
  unfold checkedSub
  split
  case isTrue h =>
    rw [Option.some.injEq, ← UInt64.toNat_inj, UInt64.toNat_sub_of_le a b h]
    rw [UInt64.le_iff_toNat_le] at h
    omega
  case isFalse h =>
    rw [UInt64.le_iff_toNat_le] at h
    simp only [reduceCtorEq, false_iff]
    omega

theorem checkedSub_eq_none {a b : UInt64} : a.checkedSub b = none ↔ a < b := by
  unfold checkedSub
  split
  case isTrue h => simpa using h
  case isFalse h => simpa using h

theorem toNat_one_shiftLeft {o : UInt64} (h : o.toNat < 64) :
    ((1 : UInt64) <<< o).toNat = 2 ^ o.toNat := by
  have hfits : 2 ^ o.toNat < 2 ^ 64 := Nat.pow_lt_pow_right (by decide) h
  rw [UInt64.toNat_shiftLeft, UInt64.toNat_one, Nat.mod_eq_of_lt h, Nat.one_shiftLeft,
    Nat.mod_eq_of_lt hfits]

/-! ## Ranges -/

/-- The words of the range `first..=last`. -/
def rangeInclusive (first last : UInt64) : List UInt64 :=
  (List.range' first.toNat (last.toNat + 1 - first.toNat)).map UInt64.ofNat

/-- The words of the range `first..limit`. -/
def range (first limit : UInt64) : List UInt64 :=
  (List.range' first.toNat (limit.toNat - first.toNat)).map UInt64.ofNat

theorem mem_range {a b n : UInt64} : n ∈ range a b ↔ a ≤ n ∧ n < b := by
  have hb := b.toNat_lt
  rw [range, List.mem_map, UInt64.le_iff_toNat_le, UInt64.lt_iff_toNat_lt]
  constructor
  · rintro ⟨i, hi, rfl⟩
    rw [List.mem_range'_1] at hi
    rw [UInt64.toNat_ofNat_of_lt' (by simp only [UInt64.size]; omega)]
    omega
  · rintro ⟨ha, hn⟩
    refine ⟨n.toNat, ?_, UInt64.ofNat_toNat⟩
    rw [List.mem_range'_1]
    omega

/-- The words of a range come in order. -/
theorem pairwise_range (a b : UInt64) : (range a b).Pairwise (· < ·) := by
  have hb := b.toNat_lt
  rw [range, List.pairwise_map]
  refine List.Pairwise.imp_of_mem ?_ (List.pairwise_lt_range' 1)
  intro i j hi hj hij
  rw [List.mem_range'_1] at hi hj
  rw [UInt64.lt_iff_toNat_lt, UInt64.toNat_ofNat_of_lt' (by simp only [UInt64.size]; omega),
    UInt64.toNat_ofNat_of_lt' (by simp only [UInt64.size]; omega)]
  exact hij

theorem toNat_add_one {a : UInt64} (h : a < last) : (a + 1).toNat = a.toNat + 1 := by
  rw [UInt64.lt_iff_toNat_lt, toNat_last] at h
  rw [UInt64.toNat_add, UInt64.toNat_one, Nat.mod_eq_of_lt (by omega)]

theorem saturatingAdd_one {a : UInt64} (h : a < last) : a.saturatingAdd 1 = a + 1 := by
  rw [UInt64.lt_iff_toNat_lt, toNat_last] at h
  rw [saturatingAdd, if_pos (by rw [UInt64.toNat_one]; omega)]

theorem rangeInclusive_self {a : UInt64} (h : a < last) : rangeInclusive (a + 1) a = [] := by
  simp [rangeInclusive, toNat_add_one h]

/-- A range that starts behind `a` goes through any `b` on the way. -/
theorem rangeInclusive_append {a b c : UInt64} (hab : a ≤ b) (hbc : b ≤ c) (hc : c < last) :
    rangeInclusive (a + 1) b ++ rangeInclusive (b + 1) c = rangeInclusive (a + 1) c := by
  have hb : b < last := UInt64.lt_of_le_of_lt hbc hc
  have ha : a < last := UInt64.lt_of_le_of_lt hab hb
  rw [UInt64.le_iff_toNat_le] at hab hbc
  rw [rangeInclusive, rangeInclusive, rangeInclusive, toNat_add_one ha, toNat_add_one hb,
    ← List.map_append]
  have hstart : b.toNat + 1 = a.toNat + 1 + (b.toNat + 1 - (a.toNat + 1)) := by omega
  have hlen : c.toNat + 1 - (a.toNat + 1) =
      b.toNat + 1 - (a.toNat + 1) + (c.toNat + 1 - (b.toNat + 1)) := by omega
  rw [hlen, ← List.range'_append_1, ← hstart]

end UInt64

namespace UInt32

/-- The largest word. -/
def last : UInt32 := 0xFFFFFFFF

def saturatingAdd (a b : UInt32) : UInt32 :=
  if a.toNat + b.toNat < 2 ^ 32 then a + b else last

def saturatingSub (a b : UInt32) : UInt32 :=
  if b ≤ a then a - b else 0

theorem toNat_saturatingAdd (a b : UInt32) :
    (a.saturatingAdd b).toNat = min (a.toNat + b.toNat) (2 ^ 32 - 1) := by
  have hlast : last.toNat = 2 ^ 32 - 1 := rfl
  unfold saturatingAdd
  split
  case isTrue h =>
    rw [UInt32.toNat_add, Nat.mod_eq_of_lt h]
    omega
  case isFalse h =>
    rw [hlast]
    omega

theorem toNat_saturatingSub (a b : UInt32) :
    (a.saturatingSub b).toNat = a.toNat - b.toNat := by
  unfold saturatingSub
  split
  case isTrue h => exact UInt32.toNat_sub_of_le a b h
  case isFalse h =>
    rw [UInt32.le_iff_toNat_le] at h
    simp only [UInt32.toNat_zero]
    omega

variable {s o : UInt32}

theorem testBit_lt {i : Nat} (h : s.toNat.testBit i) : i < 32 := by
  by_contra hle
  have hlt : s.toNat < 2 ^ i :=
    Nat.lt_of_lt_of_le s.toNat_lt (Nat.pow_le_pow_right (by omega) (by omega))
  simp [Nat.testBit_lt_two_pow hlt] at h

/-- The word with the one bit `o`. -/
theorem toNat_bit (h : o.toNat < 32) : ((1 : UInt32) <<< o).toNat = 2 ^ o.toNat := by
  have hlt : 2 ^ o.toNat < 2 ^ 32 := Nat.pow_lt_pow_right (by omega) h
  rw [UInt32.toNat_shiftLeft, Nat.mod_eq_of_lt h, UInt32.toNat_one, Nat.one_shiftLeft,
    Nat.mod_eq_of_lt hlt]

theorem and_bit_ne_zero (h : o.toNat < 32) : s &&& (1 <<< o) ≠ 0 ↔ s.toNat.testBit o.toNat := by
  rw [ne_eq, ← UInt32.toNat_inj, UInt32.toNat_and, toNat_bit h, UInt32.toNat_zero]
  constructor
  · intro hne
    by_contra hbit
    apply hne
    apply Nat.eq_of_testBit_eq
    intro i
    rw [Nat.testBit_and, Nat.testBit_two_pow, Nat.zero_testBit]
    by_cases hi : o.toNat = i
    · subst hi
      simpa using hbit
    · simp [hi]
  · intro hbit hzero
    have hand := congrArg (Nat.testBit · o.toNat) hzero
    simp [Nat.testBit_and, hbit] at hand

theorem and_one_eq_zero : s &&& 1 = 0 ↔ ¬ s.toNat.testBit 0 := by
  have hbit : s &&& 1 ≠ 0 ↔ s.toNat.testBit 0 := and_bit_ne_zero (o := 0) (by decide)
  rw [← hbit, ne_eq, Classical.not_not]

theorem testBit_or_bit (h : o.toNat < 32) (i : Nat) :
    (s ||| (1 <<< o)).toNat.testBit i ↔ s.toNat.testBit i ∨ i = o.toNat := by
  rw [UInt32.toNat_or, toNat_bit h, Nat.testBit_or, Nat.testBit_two_pow, Bool.or_eq_true,
    decide_eq_true_iff, @eq_comm _ i]

end UInt32

/-! ## The top bit -/

theorem Nat.or_two_pow_of_lt {n i : Nat} (h : n < 2 ^ i) : n ||| 2 ^ i = 2 ^ i + n := by
  have hadd := Nat.two_pow_add_eq_or_of_lt h 1
  grind

/-- A flag in the top bit is added to a number that leaves it free. -/
theorem UInt64.toNat_or_top {n : UInt64} (h : n.toNat < 2 ^ 63) :
    (n ||| ((1 : UInt64) <<< 63)).toNat = 2 ^ 63 + n.toNat := by
  have htop : ((1 : UInt64) <<< 63).toNat = 2 ^ 63 := by decide
  rw [UInt64.toNat_or, htop, Nat.or_two_pow_of_lt h]

namespace UInt16

variable {n : UInt16}

theorem and_low (h : n.toNat < 2 ^ 15) : n &&& 0x7fff = n := by
  apply UInt16.toNat_inj.mp
  have hlow : (0x7fff : UInt16).toNat = 2 ^ 15 - 1 := rfl
  rw [UInt16.toNat_and, hlow, Nat.and_two_pow_sub_one_eq_mod, Nat.mod_eq_of_lt h]

theorem and_top (h : n.toNat < 2 ^ 15) : n &&& 0x8000 = 0 := by
  apply UInt16.toNat_inj.mp
  have htop : (0x8000 : UInt16).toNat = 2 ^ 15 := rfl
  rw [UInt16.toNat_and, htop, Nat.and_two_pow, Nat.testBit_lt_two_pow h]
  rfl

/-- A flag in the top bit leaves the number under it readable. -/
theorem or_top_and_low (h : n.toNat < 2 ^ 15) : (n ||| 0x8000) &&& 0x7fff = n := by
  apply UInt16.toNat_inj.mp
  have htop : (0x8000 : UInt16).toNat = 2 ^ 15 := rfl
  have hlow : (0x7fff : UInt16).toNat = 2 ^ 15 - 1 := rfl
  rw [UInt16.toNat_and, UInt16.toNat_or, htop, hlow, Nat.and_two_pow_sub_one_eq_mod,
    Nat.or_two_pow_of_lt h]
  omega

theorem or_top_and_top : (n ||| 0x8000) &&& 0x8000 ≠ 0 := by
  intro hzero
  have htop : (0x8000 : UInt16).toNat = 2 ^ 15 := rfl
  have hand := congrArg UInt16.toNat hzero
  rw [UInt16.toNat_and, UInt16.toNat_or, htop, Nat.and_two_pow, Nat.testBit_or,
    Nat.testBit_two_pow_self, Bool.or_true] at hand
  exact absurd hand (by decide)

end UInt16

/-! ## Signed and unsigned -/

namespace UInt64

/-- The signed word of the same value, if there is one. -/
def toInt64? (n : UInt64) : Option Int64 :=
  if n.toNat < 2 ^ 63 then some n.toInt64 else none

theorem toInt_toInt64 {n : UInt64} (h : n.toNat < 2 ^ 63) : n.toInt64.toInt = n.toNat := by
  have hof : Int64.ofNat n.toNat = (UInt64.ofNat n.toNat).toInt64 := rfl
  rw [UInt64.ofNat_toNat] at hof
  rw [← hof, Int64.toInt_ofNat_of_lt h]

theorem toInt64?_eq_some {n : UInt64} {i : Int64} : n.toInt64? = some i ↔ i.toInt = n.toNat := by
  have hi := i.toInt_lt
  unfold toInt64?
  by_cases h : n.toNat < 2 ^ 63
  · rw [if_pos h, Option.some.injEq, ← Int64.toInt_inj, toInt_toInt64 h, eq_comm]
  · rw [if_neg h]
    simp only [reduceCtorEq, false_iff]
    omega

theorem toInt64?_eq_none {n : UInt64} : n.toInt64? = none ↔ 2 ^ 63 ≤ n.toNat := by
  simp [toInt64?]

end UInt64

namespace Int64

/-- The unsigned word of the same value, if there is one. -/
def toUInt64? (i : Int64) : Option UInt64 :=
  if 0 ≤ i then some i.toUInt64 else none

theorem toUInt64?_eq_some {i : Int64} {n : UInt64} : i.toUInt64? = some n ↔ i.toInt = n.toNat := by
  have hn := n.toNat_lt
  unfold toUInt64?
  by_cases h : 0 ≤ i
  · have hval : (i.toUInt64.toNat : Int) = i.toInt := by
      rw [Int64.toNat_toUInt64_of_le h, Int64.cast_toNatClampNeg i h]
    rw [if_pos h, Option.some.injEq, ← UInt64.toNat_inj]
    omega
  · rw [if_neg h]
    rw [Int64.le_iff_toInt_le, Int64.toInt_zero] at h
    simp only [reduceCtorEq, false_iff]
    omega

end Int64

/-- Either conversion undoes the other. -/
theorem UInt64.toInt64?_eq_some_iff {n : UInt64} {i : Int64} :
    n.toInt64? = some i ↔ i.toUInt64? = some n := by
  rw [UInt64.toInt64?_eq_some, Int64.toUInt64?_eq_some]

/-- The signed word of the same value. -/
def UInt32.toInt64 (n : UInt32) : Int64 := n.toUInt64.toInt64

theorem UInt32.toInt_toInt64 (n : UInt32) : n.toInt64.toInt = n.toNat := by
  have hn := n.toNat_lt
  rw [UInt32.toInt64, UInt64.toInt_toInt64, UInt32.toNat_toUInt64]
  rw [UInt32.toNat_toUInt64]
  omega

/-- The unsigned 32-bit word of the same value, if there is one. -/
def Int64.toUInt32? (i : Int64) : Option UInt32 :=
  if 0 ≤ i.toInt ∧ i.toInt < 2 ^ 32 then some (UInt32.ofNat i.toInt.toNat) else none

theorem Int64.toUInt32?_eq_some {i : Int64} {n : UInt32} :
    i.toUInt32? = some n ↔ i = n.toInt64 := by
  have hn := n.toNat_lt
  rw [← Int64.toInt_inj, UInt32.toInt_toInt64, Int64.toUInt32?]
  split_ifs with h
  case pos =>
    have hlt : i.toInt.toNat < 2 ^ 32 := by omega
    rw [Option.some.injEq, ← UInt32.toNat_inj, UInt32.toNat_ofNat_of_lt' hlt]
    omega
  case neg =>
    have hne : ¬ i.toInt = n.toNat := by omega
    simp [hne]
