import Mathlib

/-!
# Digits regrouped

A string of digits of `w` bits is read into digits of `v` bits, with the bits that do not fill a
digit yet held back. Nothing is lost on the way: the numbers that are read and written are the same
number, and lengths and digits of a regrouping determine each other.

## Main definitions

* `Regroup.value` — the number that digits are read as, the most significant first.
* `Regroup.Regrouped` — what was read, what was written and what is held back.
* `Regroup.Padded` — digits that are other digits and some zero bits.
* `Regroup.Held` — the same with what is held back in a 32-bit buffer.

## Main results

* `Regrouped.feed`, `Regrouped.emit` — one more digit is read, or written.
* `Regrouped.eq_of_padded` — what is padded and read is what is written.
* `Held.push`, `Held.shift` — the same by shifts of the buffer.
* `Padded.unique` — the padding and the digits that are padded determine the digits.
-/

namespace Regroup

variable {b w v : Nat}

/-- Digits as a number, the most significant first. -/
def value (b : Nat) (ds : List Nat) : Nat := Nat.ofDigits b ds.reverse

@[simp] theorem value_nil : value b [] = 0 := rfl

@[simp] theorem value_concat (ds : List Nat) (d : Nat) :
    value b (ds ++ [d]) = value b ds * b + d := by
  rw [value, List.reverse_append, List.reverse_singleton, List.singleton_append, Nat.ofDigits_cons,
    Nat.mul_comm, Nat.add_comm]
  rfl

theorem forall_mem_concat {p : Nat → Prop} {ds : List Nat} {d : Nat} :
    (∀ e ∈ ds ++ [d], p e) ↔ (∀ e ∈ ds, p e) ∧ p d := by
  rw [List.forall_mem_append, List.forall_mem_singleton]

/-- Digits of one length are determined by their value. -/
theorem value_injective {ds es : List Nat} (hb : 1 < b) (hds : ∀ d ∈ ds, d < b)
    (hes : ∀ e ∈ es, e < b) (hlen : ds.length = es.length) (h : value b ds = value b es) :
    ds = es := by
  apply List.reverse_injective
  apply Nat.ofDigits_inj_of_len_eq hb
  · simp [hlen]
  · simpa using hds
  · simpa using hes
  · exact h

/-- The digits `ds` of `w` bits were read, the digits `out` of `v` bits written, and the number
`rest` of `bits` bits is held back. -/
structure Regrouped (w v : Nat) (ds out : List Nat) (rest bits : Nat) : Prop where
  out_lt : ∀ d ∈ out, d < 2 ^ v
  rest_lt : rest < 2 ^ bits
  length_eq : w * ds.length = v * out.length + bits
  value_eq : value (2 ^ w) ds = value (2 ^ v) out * 2 ^ bits + rest

/-- The digits `es` of `v` bits are the digits `ds` of `w` bits and `pad` zero bits. -/
structure Padded (w v : Nat) (ds es : List Nat) (pad : Nat) : Prop where
  es_lt : ∀ e ∈ es, e < 2 ^ v
  length_eq : v * es.length = w * ds.length + pad
  value_eq : value (2 ^ v) es = value (2 ^ w) ds * 2 ^ pad

namespace Regrouped

variable {ds out : List Nat} {rest bits d : Nat}

theorem nil : Regrouped w v [] [] 0 0 := ⟨by simp, by simp, by simp, by simp⟩

/-- A digit is read behind what is held back. -/
theorem feed (h : Regrouped w v ds out rest bits) (hd : d < 2 ^ w) :
    Regrouped w v (ds ++ [d]) out (rest * 2 ^ w + d) (bits + w) where
  out_lt := h.out_lt
  rest_lt := by
    calc rest * 2 ^ w + d < (rest + 1) * 2 ^ w := by rw [Nat.add_mul, Nat.one_mul]; omega
      _ ≤ 2 ^ bits * 2 ^ w := Nat.mul_le_mul_right _ h.rest_lt
      _ = 2 ^ (bits + w) := (Nat.pow_add 2 bits w).symm
  length_eq := by
    have hlen := h.length_eq
    rw [List.length_append, List.length_singleton, Nat.mul_add, hlen]
    omega
  value_eq := by
    rw [value_concat, h.value_eq, Nat.pow_add]
    ring

/-- The first bits held back are written as a digit. -/
theorem emit (h : Regrouped w v ds out rest (bits + v)) :
    Regrouped w v ds (out ++ [rest / 2 ^ bits]) (rest % 2 ^ bits) bits where
  out_lt := by
    rw [forall_mem_concat]
    refine ⟨h.out_lt, ?_⟩
    apply Nat.div_lt_of_lt_mul
    rw [← Nat.pow_add]
    exact h.rest_lt
  rest_lt := Nat.mod_lt _ (by positivity)
  length_eq := by
    have hlen := h.length_eq
    rw [List.length_append, List.length_singleton, hlen]
    ring
  value_eq := by
    have hdiv : rest = 2 ^ bits * (rest / 2 ^ bits) + rest % 2 ^ bits :=
      (Nat.div_add_mod rest (2 ^ bits)).symm
    calc value (2 ^ w) ds = value (2 ^ v) out * 2 ^ (bits + v) + rest := h.value_eq
      _ = value (2 ^ v) out * 2 ^ (bits + v) +
          (2 ^ bits * (rest / 2 ^ bits) + rest % 2 ^ bits) := by rw [← hdiv]
      _ = (value (2 ^ v) out * 2 ^ v + rest / 2 ^ bits) * 2 ^ bits + rest % 2 ^ bits := by
          rw [Nat.pow_add]
          ring
      _ = value (2 ^ v) (out ++ [rest / 2 ^ bits]) * 2 ^ bits + rest % 2 ^ bits := by
          rw [value_concat]

/-- What is held back is written in the high bits of a last digit. -/
theorem pad (h : Regrouped w v ds out rest bits) (hbits : bits ≤ v) :
    Padded w v ds (out ++ [rest * 2 ^ (v - bits)]) (v - bits) where
  es_lt := by
    rw [forall_mem_concat]
    refine ⟨h.out_lt, ?_⟩
    calc rest * 2 ^ (v - bits) < 2 ^ bits * 2 ^ (v - bits) :=
          Nat.mul_lt_mul_of_pos_right h.rest_lt (by positivity)
      _ = 2 ^ v := by rw [← Nat.pow_add, Nat.add_sub_cancel' hbits]
  length_eq := by
    have hlen := h.length_eq
    rw [List.length_append, List.length_singleton, Nat.mul_add, hlen]
    omega
  value_eq := by
    have hpow : 2 ^ v = 2 ^ bits * 2 ^ (v - bits) := by
      rw [← Nat.pow_add, Nat.add_sub_cancel' hbits]
    rw [value_concat, h.value_eq, hpow]
    ring

/-- With nothing held back nothing is padded. -/
theorem padded (h : Regrouped w v ds out rest 0) : Padded w v ds out 0 where
  es_lt := h.out_lt
  length_eq := h.length_eq.symm
  value_eq := by
    have hrest := h.rest_lt
    rw [h.value_eq]
    simp_all

/-- Where only zero bits are held back, what was read is what was written, padded. -/
theorem padded_in (h : Regrouped w v ds out 0 bits) (hds : ∀ d ∈ ds, d < 2 ^ w) :
    Padded v w out ds bits where
  es_lt := hds
  length_eq := h.length_eq
  value_eq := by rw [h.value_eq, Nat.add_zero]

/-- Reading digits that are others with less than a digit of zero bits writes the others, and holds
the zero bits back. -/
theorem eq_of_padded {es : List Nat} {pad : Nat} (h : Regrouped w v ds out rest bits)
    (hbits : bits < v) (hpad : pad < v) (hes : ∀ e ∈ es, e < 2 ^ v)
    (hpadded : Padded v w es ds pad) : out = es ∧ rest = 0 := by
  have hlength : v * out.length + bits = v * es.length + pad :=
    h.length_eq.symm.trans hpadded.length_eq
  have hvalue : value (2 ^ v) out * 2 ^ bits + rest = value (2 ^ v) es * 2 ^ pad :=
    h.value_eq.symm.trans hpadded.value_eq
  have hsame : bits = pad := by
    have hmod := congrArg (· % v) hlength
    simpa [Nat.mul_add_mod, Nat.mod_eq_of_lt hbits, Nat.mod_eq_of_lt hpad] using hmod
  subst hsame
  have hrest : rest = 0 := by
    have hmod := congrArg (· % 2 ^ bits) hvalue
    simpa [Nat.mul_add_mod', Nat.mod_eq_of_lt h.rest_lt] using hmod
  have hlen : out.length = es.length :=
    Nat.eq_of_mul_eq_mul_left (Nat.zero_lt_of_lt hbits) (Nat.add_right_cancel hlength)
  rw [hrest, Nat.add_zero] at hvalue
  have heq := Nat.eq_of_mul_eq_mul_right (by positivity) hvalue
  have hone : 1 < 2 ^ v := Nat.one_lt_two_pow (Nat.ne_zero_of_lt hbits)
  exact ⟨value_injective hone h.out_lt hes hlen heq, hrest⟩

end Regrouped

/-- The padding and the digits that are padded determine the digits. -/
theorem Padded.unique {ds es es' : List Nat} {pad : Nat} (hv : 0 < v)
    (h : Padded w v ds es pad) (h' : Padded w v ds es' pad) : es = es' := by
  have hlen : es.length = es'.length :=
    Nat.eq_of_mul_eq_mul_left hv (h.length_eq.trans h'.length_eq.symm)
  apply value_injective (Nat.one_lt_two_pow hv.ne') h.es_lt h'.es_lt hlen
  rw [h.value_eq, h'.value_eq]

/-! ## In a 32-bit buffer -/

/-- What is held back is in the low bits of a buffer; the bits above are of digits that were
written. -/
def Held (w v : Nat) (ds out : List Nat) (buffer : UInt32) (bits : Nat) : Prop :=
  Regrouped w v ds out (buffer.toNat % 2 ^ bits) bits

variable {ds out : List Nat} {buffer mask d : UInt32} {bits : Nat}

theorem toNat_ofNat {k : Nat} (h : k < 32) : (UInt32.ofNat k).toNat = k := by
  apply UInt32.toNat_ofNat_of_lt'
  simp only [UInt32.size]
  omega

/-- A shift by less than the width of the buffer. -/
theorem toNat_ofNat_mod {k : Nat} (h : k < 32) : (UInt32.ofNat k).toNat % 32 = k := by
  rw [toNat_ofNat h, Nat.mod_eq_of_lt h]

/-- Shifting a digit in is reading it, as long as the buffer has room for it. -/
theorem Held.push (h : Held w v ds out buffer bits) (hw : w < 32) (hfit : bits + w ≤ 32)
    (hd : d.toNat < 2 ^ w) :
    Held w v (ds ++ [d.toNat]) out (buffer <<< UInt32.ofNat w ||| d) (bits + w) := by
  have hshift : (buffer <<< UInt32.ofNat w).toNat = 2 ^ w * (buffer.toNat % 2 ^ (32 - w)) := by
    have hpow : 2 ^ 32 = 2 ^ w * 2 ^ (32 - w) := by
      rw [← Nat.pow_add, Nat.add_sub_cancel' hw.le]
    rw [UInt32.toNat_shiftLeft, toNat_ofNat_mod hw, Nat.shiftLeft_eq, hpow,
      Nat.mul_comm buffer.toNat, Nat.mul_mod_mul_left]
  have hor : (buffer <<< UInt32.ofNat w ||| d).toNat =
      2 ^ w * (buffer.toNat % 2 ^ (32 - w)) + d.toNat := by
    rw [UInt32.toNat_or, hshift, Nat.two_pow_add_eq_or_of_lt hd]
  have hlow : buffer.toNat % 2 ^ (32 - w) % 2 ^ bits = buffer.toNat % 2 ^ bits :=
    Nat.mod_mod_of_dvd _ (Nat.pow_dvd_pow 2 (by omega))
  have hrest : (buffer <<< UInt32.ofNat w ||| d).toNat % 2 ^ (bits + w) =
      buffer.toNat % 2 ^ bits * 2 ^ w + d.toNat := by
    rw [hor, Nat.add_comm bits, Nat.pow_add, Nat.mod_mul, Nat.mul_add_mod, Nat.mod_eq_of_lt hd,
      Nat.mul_add_div (by positivity), Nat.div_eq_of_lt hd, Nat.add_zero, hlow]
    ring
  rw [Held, hrest]
  exact Regrouped.feed h hd

/-- Masking the bits above the last ones out is writing a digit. -/
theorem Held.shift (h : Held w v ds out buffer (bits + v)) (hbits : bits < 32)
    (hmask : mask.toNat = 2 ^ v - 1) :
    Held w v ds (out ++ [((buffer >>> UInt32.ofNat bits) &&& mask).toNat]) buffer bits := by
  have hdigit : ((buffer >>> UInt32.ofNat bits) &&& mask).toNat =
      buffer.toNat % 2 ^ (bits + v) / 2 ^ bits := by
    rw [UInt32.toNat_and, hmask, Nat.and_two_pow_sub_one_eq_mod, UInt32.toNat_shiftRight,
      toNat_ofNat_mod hbits, Nat.shiftRight_eq_div_pow, Nat.pow_add, Nat.mod_mul_right_div_self]
  have hrest : buffer.toNat % 2 ^ bits = buffer.toNat % 2 ^ (bits + v) % 2 ^ bits :=
    (Nat.mod_mod_of_dvd _ (Nat.pow_dvd_pow 2 (by omega))).symm
  rw [Held, hdigit, hrest]
  exact Regrouped.emit h

/-- What is held back, in the high bits of a digit. -/
theorem toNat_shiftLeft_and (hbits : bits ≤ v) (hv : v < 32) (hmask : mask.toNat = 2 ^ v - 1) :
    ((buffer <<< UInt32.ofNat (v - bits)) &&& mask).toNat =
      buffer.toNat % 2 ^ bits * 2 ^ (v - bits) := by
  have hpow : 2 ^ v = 2 ^ bits * 2 ^ (v - bits) := by
    rw [← Nat.pow_add, Nat.add_sub_cancel' hbits]
  rw [UInt32.toNat_and, hmask, Nat.and_two_pow_sub_one_eq_mod, UInt32.toNat_shiftLeft,
    toNat_ofNat_mod (by omega), Nat.shiftLeft_eq,
    Nat.mod_mod_of_dvd _ (Nat.pow_dvd_pow 2 hv.le), hpow, Nat.mul_mod_mul_right]

/-- Whether anything but zero bits is held back. -/
theorem and_mask_eq_zero (hbits : bits < 32) :
    buffer &&& ((1 <<< UInt32.ofNat bits) - 1) = 0 ↔ buffer.toNat % 2 ^ bits = 0 := by
  have hone : ((1 : UInt32) <<< UInt32.ofNat bits).toNat = 2 ^ bits := by
    have hlt : 2 ^ bits < 2 ^ 32 := Nat.pow_lt_pow_right (by decide) hbits
    rw [UInt32.toNat_shiftLeft, toNat_ofNat_mod hbits, UInt32.toNat_one, Nat.one_shiftLeft,
      Nat.mod_eq_of_lt hlt]
  have hle : 1 ≤ (1 : UInt32) <<< UInt32.ofNat bits := by
    rw [UInt32.le_iff_toNat_le, hone]
    exact Nat.one_le_two_pow
  rw [← UInt32.toNat_inj, UInt32.toNat_and, UInt32.toNat_sub_of_le _ _ hle, hone, UInt32.toNat_one,
    Nat.and_two_pow_sub_one_eq_mod, UInt32.toNat_zero]

end Regroup
