import Mathlib

/-!
# Byte strings and fixed-width integers

Byte strings are lists of bytes, fixed-size arrays are vectors. Unsigned integers are
written big-endian in a fixed number of bytes; signed integers in two's complement, read
back through the balanced remainder `Int.bmod`.

## Main definitions

* `Bytes.be`, `Bytes.val` — big-endian writing and reading.
* `Bytes.sval` — the two's complement reading of a byte string.
* `Bytes.slice?`, `Bytes.chunks` — parts of a byte string.
* `Octets.ofBytes?`, `Octets.slice?` — a byte string, or a part of one, as an array of fixed size.
-/

/-- A byte string of any length. -/
abbrev Bytes := List UInt8

/-- An array of exactly `n` bytes. -/
abbrev Octets (n : Nat) := Vector UInt8 n

namespace Bytes

/-! ## Big-endian integers -/

/-- The low `k` bytes of `n`, most significant first. -/
def be : Nat → Nat → Bytes
  | 0, _ => []
  | k + 1, n => UInt8.ofNat (n / 256 ^ k) :: be k n

/-- The big-endian value of a byte string. -/
def val (b : Bytes) : Nat := b.foldl (fun acc x => acc * 256 + x.toNat) 0

@[simp] theorem length_be (k n : Nat) : (be k n).length = k := by
  induction k with
  | zero => rfl
  | succ k ih => simp [be, ih]

@[simp] theorem val_nil : val [] = 0 := rfl

theorem foldl_val (b : Bytes) (acc : Nat) :
    b.foldl (fun acc x => acc * 256 + x.toNat) acc = acc * 256 ^ b.length + val b := by
  induction b generalizing acc with
  | nil => simp
  | cons x b ih =>
    rw [val, List.foldl_cons, List.foldl_cons, ih, ih (0 * 256 + x.toNat), List.length_cons]
    ring

theorem val_cons (x : UInt8) (b : Bytes) : val (x :: b) = x.toNat * 256 ^ b.length + val b := by
  rw [val, List.foldl_cons, foldl_val]
  simp

theorem val_concat (b : Bytes) (x : UInt8) : val (b ++ [x]) = val b * 256 + x.toNat := by
  simp [val]

theorem val_lt (b : Bytes) : val b < 256 ^ b.length := by
  induction b with
  | nil => simp
  | cons x b ih =>
    have hx := x.toNat_lt
    calc val (x :: b) = x.toNat * 256 ^ b.length + val b := val_cons x b
      _ < x.toNat * 256 ^ b.length + 256 ^ b.length := by omega
      _ = (x.toNat + 1) * 256 ^ b.length := by ring
      _ ≤ 256 * 256 ^ b.length := Nat.mul_le_mul_right _ (by omega)
      _ = 256 ^ (x :: b).length := by rw [List.length_cons, pow_succ, mul_comm]

theorem val_be (k n : Nat) : val (be k n) = n % 256 ^ k := by
  induction k with
  | zero => simp [be, Nat.mod_one]
  | succ k ih =>
    rw [be, val_cons, length_be, ih, Nat.mod_pow_succ]
    simp [mul_comm, add_comm]

theorem val_be_of_lt {k n : Nat} (h : n < 256 ^ k) : val (be k n) = n := by
  rw [val_be, Nat.mod_eq_of_lt h]

/-- A number of 16 bits is written as two bytes and read back from them. -/
theorem exists_be_two {n : Nat} (h : n < 256 ^ 2) :
    ∃ high low, be 2 n = [high, low] ∧ val [high, low] = n :=
  ⟨_, _, rfl, val_be_of_lt h⟩

/-- Strings of one length are determined by their value. -/
theorem val_injective {a b : Bytes} (hlen : a.length = b.length) (h : val a = val b) :
    a = b := by
  induction a generalizing b with
  | nil => exact (List.eq_nil_of_length_eq_zero hlen.symm).symm
  | cons x a ih =>
    obtain ⟨y, b, rfl⟩ := List.exists_cons_of_length_eq_add_one (hlen.symm.trans List.length_cons)
    have hab : a.length = b.length := by simpa using hlen
    rw [val_cons, val_cons, hab] at h
    have ha := val_lt a
    have hb := val_lt b
    rw [hab] at ha
    have hxy : x.toNat = y.toNat := by
      have hx := Nat.div_eq_of_lt ha
      have hy := Nat.div_eq_of_lt hb
      have hpos : 0 < 256 ^ b.length := by positivity
      have := congrArg (· / 256 ^ b.length) h
      simpa [Nat.mul_add_div hpos, mul_comm _ (256 ^ b.length), hx, hy] using this
    rw [hxy] at h
    rw [UInt8.toNat_inj.mp hxy, ih hab (by omega)]

theorem be_val (b : Bytes) : be b.length (val b) = b :=
  val_injective (by simp) (by rw [val_be, Nat.mod_eq_of_lt (val_lt b)])

/-- A number fits any width its bytes fit. -/
theorem val_be_val {k : Nat} {b : Bytes} (h : b.length ≤ k) : val (be k (val b)) = val b :=
  val_be_of_lt ((val_lt b).trans_le (Nat.pow_le_pow_right (by decide) h))

theorem be_injective {k m n : Nat} (hm : m < 256 ^ k) (hn : n < 256 ^ k)
    (h : be k m = be k n) : m = n := by
  rw [← val_be_of_lt hm, h, val_be_of_lt hn]

theorem be_toNat_injective {a b : UInt64} (h : be 8 a.toNat = be 8 b.toNat) : a = b :=
  UInt64.toNat_inj.mp (be_injective a.toNat_lt b.toNat_lt h)

/-- Only the residue modulo the width is written. -/
theorem be_congr {k m n : Nat} (h : m % 256 ^ k = n % 256 ^ k) : be k m = be k n :=
  val_injective (by simp) (by rw [val_be, val_be, h])

/-- Skipping the leading bytes keeps the low ones. -/
theorem drop_be (j k n : Nat) : (be (j + k) n).drop j = be k n := by
  induction j with
  | zero => simp
  | succ j ih => rw [Nat.add_right_comm, be, List.drop_succ_cons, ih]

/-! ## Two's complement -/

/-- The two's complement value of a byte string. -/
def sval (b : Bytes) : Int := Int.bmod (val b) (256 ^ b.length)

theorem pow_length_even {b : Bytes} (hb : b ≠ []) : 256 ^ b.length % 2 = 0 := by
  cases b with
  | nil => contradiction
  | cons x b => rw [List.length_cons, pow_succ]; omega

theorem sval_bounds {b : Bytes} (hb : b ≠ []) :
    -(256 ^ b.length : Int) ≤ 2 * sval b ∧ 2 * sval b < 256 ^ b.length := by
  have hpos : 0 < 256 ^ b.length := by positivity
  have heven := pow_length_even hb
  have hlo := Int.le_bmod (x := val b) hpos
  have hhi := Int.bmod_lt (x := val b) hpos
  have hcast : ((256 ^ b.length : Nat) : Int) = (256 : Int) ^ b.length := by push_cast; rfl
  rw [← hcast]
  unfold sval
  omega

/-- The unsigned value is the two's complement value modulo the width. -/
theorem val_eq_sval_emod (b : Bytes) : (val b : Int) = sval b % (256 ^ b.length : Nat) := by
  rw [sval, Int.bmod_emod, Int.emod_eq_of_lt (by positivity) (by exact_mod_cast val_lt b)]

theorem sval_injective {a b : Bytes} (hlen : a.length = b.length) (h : sval a = sval b) :
    a = b := by
  refine val_injective hlen ?_
  have ha := val_eq_sval_emod a
  rw [h, hlen, ← val_eq_sval_emod b] at ha
  exact_mod_cast ha

/-- The low `k` bytes of the two's complement form of `n`, most significant first. -/
def sbe (k : Nat) (n : Int) : Bytes := be k (n % (256 ^ k : Nat)).toNat

@[simp] theorem length_sbe (k : Nat) (n : Int) : (sbe k n).length = k := length_be k _

theorem sval_sbe {k : Nat} {n : Int} (hlo : -(256 ^ k : Int) ≤ 2 * n) (hhi : 2 * n < 256 ^ k) :
    sval (sbe k n) = n := by
  have hpos : (0 : Int) < (256 ^ k : Nat) := by positivity
  have hnonneg := Int.emod_nonneg n hpos.ne'
  have hlt := Int.emod_lt_of_pos n hpos
  have hval : (val (sbe k n) : Int) = n % (256 ^ k : Nat) := by
    rw [sbe, val_be_of_lt (by omega), Int.toNat_of_nonneg hnonneg]
  have hcast : ((256 ^ k : Nat) : Int) = (256 : Int) ^ k := by push_cast; rfl
  rw [sval, hval, length_sbe, Int.emod_bmod]
  exact Int.bmod_eq_of_le (by omega) (by omega)

theorem drop_sbe (j k : Nat) (n : Int) : (sbe (j + k) n).drop j = sbe k n := by
  rw [sbe, drop_be]
  refine be_congr ?_
  have hk : (0 : Int) < (256 ^ k : Nat) := by positivity
  have hjk : (0 : Int) < (256 ^ (j + k) : Nat) := by positivity
  have hdvd : ((256 ^ k : Nat) : Int) ∣ (256 ^ (j + k) : Nat) := by
    exact_mod_cast Nat.pow_dvd_pow 256 (Nat.le_add_left k j)
  have hcast : (((n % (256 ^ (j + k) : Nat)).toNat % 256 ^ k : Nat) : Int) =
      ((n % (256 ^ k : Nat)).toNat % 256 ^ k : Nat) := by
    rw [Int.natCast_emod, Int.natCast_emod, Int.toNat_of_nonneg (Int.emod_nonneg n hk.ne'),
      Int.toNat_of_nonneg (Int.emod_nonneg n hjk.ne'), Int.emod_emod_of_dvd n hdvd, Int.emod_emod]
  exact_mod_cast hcast

/-- Appending a byte multiplies by 256 and adds it: the sign stays in the first byte. -/
theorem sval_concat {b : Bytes} (hb : b ≠ []) (x : UInt8) :
    sval (b ++ [x]) = sval b * 256 + x.toNat := by
  obtain ⟨hlo, hhi⟩ := sval_bounds hb
  have heven : (256 ^ b.length : Int) % 2 = 0 := by exact_mod_cast pow_length_even hb
  have hx : (x.toNat : Int) < 256 := by exact_mod_cast x.toNat_lt
  have hx0 : (0 : Int) ≤ x.toNat := by positivity
  have hcast : ((256 ^ (b ++ [x]).length : Nat) : Int) = 256 ^ b.length * 256 := by
    rw [List.length_append, List.length_singleton, pow_succ]; push_cast; rfl
  have hmod : ((val b * 256 + x.toNat : Nat) : Int).bmod (256 ^ (b ++ [x]).length)
      = (sval b * 256 + x.toNat).bmod (256 ^ (b ++ [x]).length) := by
    refine Int.bmod_eq_bmod_iff_bmod_sub_eq_zero.mpr ?_
    have hdvd : ((256 ^ (b ++ [x]).length : Nat) : Int) ∣
        ((val b * 256 + x.toNat : Nat) : Int) - (sval b * 256 + x.toNat) := by
      have h := Int.emod_add_mul_ediv (sval b) (256 ^ b.length : Nat)
      rw [← val_eq_sval_emod] at h
      refine ⟨-(sval b / (256 ^ b.length : Nat)), ?_⟩
      rw [hcast]
      push_cast at h ⊢
      linear_combination 256 * h
    exact Int.bmod_eq_zero_of_dvd hdvd
  rw [sval, val_concat, hmod]
  exact Int.bmod_eq_of_le (by omega) (by omega)

end Bytes

/-! ## Parts of a byte string -/

namespace Bytes

/-- The bytes from `start` up to `stop`, if the string reaches that far. -/
def slice? (b : Bytes) (start stop : Nat) : Option Bytes :=
  if start ≤ stop ∧ stop ≤ b.length then some ((b.take stop).drop start) else none

theorem slice?_append {b a x c : Bytes} {start stop : Nat} (h : b = a ++ (x ++ c))
    (hstart : a.length = start) (hstop : start + x.length = stop) :
    b.slice? start stop = some x := by
  subst h hstart hstop
  have htake : (a ++ (x ++ c)).take (a.length + x.length) = a ++ x := by
    rw [← List.append_assoc, ← List.length_append, List.take_left]
  rw [slice?, if_pos (by simp), htake, List.drop_left]

/-- The rest behind the offset. -/
theorem slice?_length {a b : Bytes} {start : Nat} (ha : a.length = start) :
    (a ++ b).slice? start (a ++ b).length = some b :=
  slice?_append (c := []) (by simp) ha (by simp [ha])

@[simp] theorem slice?_zero_length (b : Bytes) : b.slice? 0 b.length = some b := by
  simp [slice?]

/-- A part continues what stands before it. -/
theorem take_append_slice? {b x : Bytes} {start stop : Nat} (h : b.slice? start stop = some x) :
    b.take start ++ x = b.take stop := by
  unfold slice? at h
  split at h
  case isTrue hle =>
    obtain rfl := Option.some.inj h
    have htake : (b.take stop).take start = b.take start := by
      rw [List.take_take, Nat.min_eq_left hle.1]
    rw [← htake]
    exact List.take_append_drop start (b.take stop)
  case isFalse => contradiction

/-- The string cut into pieces of `n` bytes; the last one may be shorter. -/
def chunks (n : Nat) (b : Bytes) : List Bytes :=
  if _h : b = [] ∨ n = 0 then [] else b.take n :: chunks n (b.drop n)
termination_by b.length
decreasing_by
  have := List.length_pos_iff.mpr (not_or.mp _h).1
  simp
  omega

/-- Pieces of one length are found again. -/
theorem chunks_flatten {n : Nat} (hn : 0 < n) {pieces : List Bytes}
    (h : ∀ piece ∈ pieces, piece.length = n) : chunks n pieces.flatten = pieces := by
  induction pieces with
  | nil => simp [chunks]
  | cons piece pieces ih =>
    have hlen := h piece List.mem_cons_self
    have hne : piece ≠ [] := List.length_pos_iff.mp (by omega)
    rw [chunks, dif_neg (by simp [hne, hn.ne']), List.flatten_cons, List.take_left' hlen,
      List.drop_left' hlen, ih fun other hmem => h other (List.mem_cons_of_mem _ hmem)]

/-- The pieces are the whole string. -/
theorem flatten_chunks {n : Nat} (hn : 0 < n) (b : Bytes) : (chunks n b).flatten = b := by
  fun_induction chunks n b with
  | case1 b h =>
    obtain rfl : b = [] := h.resolve_right hn.ne'
    rfl
  | case2 b h ih => rw [List.flatten_cons, ih, List.take_append_drop]

end Bytes

/-! ## Fixed-size arrays -/

namespace Octets

variable {n : Nat}

/-- A byte string as an array of `n` bytes, when it has that length. -/
def ofBytes? (b : Bytes) : Option (Octets n) :=
  if h : b.length = n then some ⟨b.toArray, by simpa using h⟩ else none

theorem ofBytes?_eq_some {b : Bytes} {v : Octets n} : ofBytes? b = some v ↔ v.toList = b := by
  unfold ofBytes?
  split
  case isTrue h =>
    rw [Option.some.injEq]
    constructor
    · rintro rfl
      rfl
    · rintro rfl
      exact Vector.toList_inj.mp rfl
  case isFalse h =>
    constructor
    · intro hv
      contradiction
    · rintro rfl
      simp at h

@[simp] theorem ofBytes?_toList (v : Octets n) : ofBytes? v.toList = some v :=
  ofBytes?_eq_some.mpr rfl

theorem exists_toList {b : Bytes} (hlen : b.length = n) : ∃ v : Octets n, v.toList = b :=
  ⟨⟨b.toArray, by simpa using hlen⟩, rfl⟩

/-- The `n` bytes of a byte string at an offset, if it reaches that far. -/
def slice? (n : Nat) (b : Bytes) (offset : Nat) : Option (Octets n) :=
  (b.slice? offset (offset + n)).bind ofBytes?

theorem slice?_append {b a c : Bytes} {v : Octets n} {offset : Nat}
    (h : b = a ++ (v.toList ++ c)) (hoffset : a.length = offset) :
    slice? n b offset = some v := by
  have hslice : b.slice? offset (offset + n) = some v.toList :=
    Bytes.slice?_append h hoffset (by simp)
  simp [slice?, hslice]

/-- One array after the other is taken off a byte string. -/
theorem take_slice? {b a : Bytes} {v : Octets n} {offset : Nat}
    (h : slice? n b offset = some v) (ha : b.take offset = a) :
    b.take (offset + n) = a ++ v.toList := by
  obtain ⟨bytes, hslice, hv⟩ := Option.bind_eq_some_iff.mp h
  obtain rfl := ofBytes?_eq_some.mp hv
  rw [← ha, Bytes.take_append_slice? hslice]

@[simp] theorem slice?_toList_append (v : Octets n) (rest : Bytes) :
    slice? n (v.toList ++ rest) 0 = some v :=
  slice?_append (a := []) (c := rest) (by simp) rfl

theorem exists_append_of_slice? {b : Bytes} {v : Octets n} (h : slice? n b 0 = some v) :
    ∃ rest, v.toList ++ rest = b := by
  have htake : b.take n = v.toList := by simpa using take_slice? h List.take_zero
  exact ⟨b.drop n, by rw [← htake, List.take_append_drop]⟩

/-- An array at the end is the rest. -/
theorem slice?_eq_rest {b : Bytes} {v : Octets n} {offset : Nat} (hlen : b.length = offset + n) :
    slice? n b offset = some v ↔ b.slice? offset b.length = some v.toList := by
  rw [slice?, ← hlen, Option.bind_eq_some_iff]
  simp [ofBytes?_eq_some]

/-- An array and the rest are the whole. -/
theorem slice?_rest {b rest : Bytes} {v : Octets n} :
    slice? n b 0 = some v ∧ b.slice? n b.length = some rest ↔ v.toList ++ rest = b := by
  constructor
  · rintro ⟨hv, hrest⟩
    have htake : b.take n = v.toList := by simpa using take_slice? hv List.take_zero
    simpa [htake] using Bytes.take_append_slice? hrest
  · rintro rfl
    exact ⟨slice?_toList_append v rest, Bytes.slice?_length (by simp)⟩

/-- Two arrays and the rest are the whole. -/
theorem slice?_slice?_rest {m : Nat} {b rest : Bytes} {v : Octets n} {w : Octets m} :
    slice? n b 0 = some v ∧ slice? m b n = some w ∧ b.slice? (n + m) b.length = some rest ↔
      v.toList ++ (w.toList ++ rest) = b := by
  constructor
  · rintro ⟨hv, hw, hrest⟩
    have hfirst : b.take n = v.toList := by simpa using take_slice? hv List.take_zero
    have hsecond := take_slice? hw hfirst
    simpa [hsecond] using Bytes.take_append_slice? hrest
  · rintro rfl
    refine ⟨slice?_toList_append v _, slice?_append rfl (by simp), ?_⟩
    rw [← List.append_assoc]
    exact Bytes.slice?_length (by simp)

/-- An array is the whole of a byte string of its length. -/
theorem slice?_whole {b : Bytes} {v : Octets n} :
    b.length = n ∧ slice? n b 0 = some v ↔ v.toList = b := by
  constructor
  · rintro ⟨rfl, hv⟩
    rw [slice?_eq_rest (Nat.zero_add _).symm, Bytes.slice?_zero_length] at hv
    exact (Option.some.inj hv).symm
  · rintro rfl
    exact ⟨by simp, by simpa using slice?_toList_append v []⟩

/-- Two arrays are the whole of a byte string of their lengths. -/
theorem slice?_slice?_whole {m : Nat} {b : Bytes} {v : Octets n} {w : Octets m} :
    b.length = n + m ∧ slice? n b 0 = some v ∧ slice? m b n = some w ↔
      v.toList ++ w.toList = b := by
  rw [← slice?_rest]
  constructor
  · rintro ⟨hlen, hv, hw⟩
    exact ⟨hv, (slice?_eq_rest hlen).mp hw⟩
  · intro h
    have hlen : b.length = n + m := by simp [← slice?_rest.mp h]
    exact ⟨hlen, h.1, (slice?_eq_rest hlen).mpr h.2⟩

/-- Three arrays are the whole of a byte string of their lengths. -/
theorem slice?_slice?_slice?_whole {m k : Nat} {b : Bytes} {u : Octets n} {v : Octets m}
    {w : Octets k} :
    b.length = n + m + k ∧ slice? n b 0 = some u ∧ slice? m b n = some v ∧
        slice? k b (n + m) = some w ↔ u.toList ++ (v.toList ++ w.toList) = b := by
  rw [← slice?_slice?_rest]
  constructor
  · rintro ⟨hlen, hu, hv, hw⟩
    exact ⟨hu, hv, (slice?_eq_rest hlen).mp hw⟩
  · intro h
    have hlen : b.length = n + m + k := by simp [← slice?_slice?_rest.mp h, Nat.add_assoc]
    exact ⟨hlen, h.1, h.2.1, (slice?_eq_rest hlen).mpr h.2.2⟩

/-- The low `n` bytes of a number, as an array. -/
def be (n m : Nat) : Octets n := ⟨(Bytes.be n m).toArray, by simp⟩

/-- An array that starts with the bytes, cut off or filled up with zeroes. -/
def fill (n : Nat) (b : Bytes) : Octets n := Vector.ofFn fun i => b.getD i 0

theorem toList_fill (n : Nat) (b : Bytes) :
    (fill n b).toList = b.take n ++ .replicate (n - b.length) 0 := by
  apply List.ext_getElem
  · simp
    omega
  · intro i hi _
    simp [fill, List.getElem_append]
    grind

theorem toList_fill_of_length {b : Bytes} (h : b.length = n) : (fill n b).toList = b := by
  simp [toList_fill, ← h]

theorem fill_append (v : Octets n) (rest : Bytes) : fill n (v.toList ++ rest) = v := by
  apply Vector.toList_inj.mp
  simp [toList_fill]

/-- Nothing is cut off where the bytes fit. -/
theorem fill_injective {a b : Bytes} (hlen : a.length = b.length) (hfit : b.length ≤ n)
    (h : fill n a = fill n b) : a = b := by
  have hlist := congrArg Vector.toList h
  rw [toList_fill, toList_fill, List.take_of_length_le (hlen.trans_le hfit),
    List.take_of_length_le hfit] at hlist
  exact List.append_inj_left hlist hlen

end Octets

/-! ## Text -/

namespace Bytes

/-- The UTF-8 bytes of a string. -/
def utf8 (s : String) : Bytes := s.toByteArray.data.toList

/-- The string a byte string is the UTF-8 encoding of, if it is one. -/
def text? (b : Bytes) : Option String := String.fromUTF8? ⟨b.toArray⟩

theorem text?_eq_some {b : Bytes} {s : String} : text? b = some s ↔ utf8 s = b := by
  unfold text? utf8 String.fromUTF8?
  split
  case isTrue h =>
    rw [Option.some.injEq]
    constructor
    · rintro rfl
      rfl
    · rintro rfl
      rfl
  case isFalse h =>
    constructor
    · intro hs
      contradiction
    · rintro rfl
      exact absurd s.isValidUTF8 h

@[simp] theorem text?_utf8 (s : String) : text? (utf8 s) = some s := text?_eq_some.mpr rfl

theorem utf8_injective {s t : String} (h : utf8 s = utf8 t) : s = t :=
  Option.some.inj ((text?_utf8 s).symm.trans ((congrArg text? h).trans (text?_utf8 t)))

/-- The three-way comparison of byte strings agrees with their lexicographic order. -/
theorem compare_eq_lt {a b : Bytes} : compare a b = .lt ↔ a < b := by
  induction a generalizing b with
  | nil => cases b <;> simp
  | cons x a ih =>
    cases b with
    | nil => simp
    | cons y b =>
      rw [List.compare_cons_cons, Ordering.then_eq_lt, ih, List.cons_lt_cons_iff,
        Std.compare_eq_lt, Std.compare_eq_eq_iff_eq]

theorem compare_eq_gt {a b : Bytes} : compare a b = .gt ↔ b < a := by
  rw [← compare_eq_lt, Std.OrientedOrd.eq_swap (a := a)]
  cases compare b a <;> decide

end Bytes
