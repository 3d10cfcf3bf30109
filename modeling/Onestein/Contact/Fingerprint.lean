import Onestein.Contact.Link

/-!
# Fingerprints

An identity identifier is read out as 13 groups of four characters. What is heard or copied may be
reflowed further, and is still the identifier.

## Main definitions

* `chunks` — a list in groups of one length.
* `fingerprint` — an identifier for a person to read out.

## Main results

* `decode_of_reflows` — an encoding is decoded after it was reflowed.
* `reflows_fingerprint` — a fingerprint is a reflowed encoding, so it is decoded too.
-/

namespace Onestein.Contact

open Crypto
open Base32 (decode encode isWhitespace)

/-! ## Groups -/

section Chunks

variable {α : Type*}

/-- The groups of `size` elements that a list is made of. The last one may be shorter, and none of
them is empty. -/
def chunks (size : Nat) : List α → List (List α)
  | [] => []
  | x :: xs => (x :: xs.take (size - 1)) :: chunks size (xs.drop (size - 1))
termination_by xs => xs.length
decreasing_by
  rw [List.length_drop, List.length_cons]
  omega

theorem flatten_chunks (size : Nat) (xs : List α) : (chunks size xs).flatten = xs := by
  fun_induction chunks size xs with
  | case1 => rfl
  | case2 x xs ih => rw [List.flatten_cons, ih, List.cons_append, List.take_append_drop]

/-- A list of whole groups has no shorter one. -/
theorem length_chunks {size count : Nat} (hsize : 0 < size) {xs : List α}
    (h : xs.length = count * size) :
    (chunks size xs).length = count ∧ ∀ group ∈ chunks size xs, group.length = size := by
  fun_induction chunks size xs generalizing count with
  | case1 =>
    obtain hcount | hzero := Nat.mul_eq_zero.mp h.symm
    · simp [hcount]
    · omega
  | case2 x xs ih =>
    rw [List.length_cons] at h
    cases count with
    | zero => omega
    | succ count =>
      rw [Nat.succ_mul] at h
      have hrest : (xs.drop (size - 1)).length = count * size := by
        rw [List.length_drop]
        omega
      have hfirst : (x :: xs.take (size - 1)).length = size := by
        rw [List.length_cons, List.length_take]
        omega
      obtain ⟨hlength, hall⟩ := ih hrest
      exact ⟨by rw [List.length_cons, hlength], List.forall_mem_cons.mpr ⟨hfirst, hall⟩⟩

end Chunks

/-! ## Encodings -/

variable {bytes : Bytes}

/-- An encoding is as many symbols as its bits fill. -/
theorem length_encode (bytes : Bytes) : (encode bytes).length = (8 * bytes.length) ⌈/⌉ 5 := by
  obtain ⟨pad, hpad, hspells⟩ := Base32.encode_padded bytes
  have hlength := hspells.length_eq
  rw [String.length_toList] at hlength
  rw [Nat.ceilDiv_eq_add_pred_div]
  omega

theorem plain_encode (bytes : Bytes) : ∀ c ∈ (encode bytes).toList, Reflows.Plain c :=
  Base32.forall_mem_encode (by decide +kernel)

/-- An encoding is decoded after white space was put in and letters were put in lower case. -/
theorem decode_of_reflows {text : String} (h : Reflows (encode bytes).toList text.toList) :
    decode text = .ok bytes := by
  obtain ⟨pad, hpad, hspells⟩ := Base32.encode_padded bytes
  refine Base32.decode_eq_ok_iff.mpr ⟨pad, by omega, ?_⟩
  rwa [Base32.normalised, String.toList_ofList, h.significant_eq (plain_encode bytes),
    ContactLink.map_toUpper_encode]

/-! ## Fingerprints -/

/-- Formats an identity identifier for a person to read out. -/
def fingerprint (identityId : Digest) : String :=
  let characters := (encode identityId.toList).toList
  " ".intercalate ((chunks 4 characters).map String.ofList)

theorem toList_fingerprint (identityId : Digest) :
    (fingerprint identityId).toList =
      [' '].intercalate (chunks 4 (encode identityId.toList).toList) := by
  have htoList : String.toList ∘ String.ofList = id := funext fun _ => String.toList_ofList
  rw [fingerprint, String.toList_intercalate, List.map_map, htoList, List.map_id]
  rfl

/-- The groups are joined by white space, so a fingerprint is a reflowed encoding. -/
theorem reflows_fingerprint (identityId : Digest) :
    Reflows (encode identityId.toList).toList (fingerprint identityId).toList := by
  have hspace : ∀ c ∈ [' '], isWhitespace c := List.forall_mem_singleton.mpr rfl
  have hreflows := Reflows.intercalate hspace (chunks 4 (encode identityId.toList).toList)
  rwa [flatten_chunks, ← toList_fingerprint] at hreflows

/-- Bytes are encoded as symbols of the alphabet, as many as their bits fill, and every reflowed
encoding is decoded to them. A fingerprint is one: 13 groups of four symbols with a space between
them. -/
theorem decode_reflowed :
    (∀ bytes, (encode bytes).length = (8 * bytes.length) ⌈/⌉ 5 ∧
      (∀ c ∈ (encode bytes).toList, c ∈ Base32.alphabet.map fun byte => Char.ofNat byte.toNat) ∧
      ∀ text : String, Reflows (encode bytes).toList text.toList → decode text = .ok bytes) ∧
    ∀ identityId : Digest, decode (fingerprint identityId) = .ok identityId.toList ∧
      ∃ groups : List (List Char), groups.length = 13 ∧ (∀ group ∈ groups, group.length = 4) ∧
        groups.flatten = (encode identityId.toList).toList ∧
        fingerprint identityId = String.ofList ([' '].intercalate groups) := by
  constructor
  · intro bytes
    exact ⟨length_encode bytes, Base32.forall_mem_encode (by decide +kernel),
      fun text h => decode_of_reflows h⟩
  · intro identityId
    have hlength : (encode identityId.toList).toList.length = 13 * 4 := by
      rw [String.length_toList, length_encode, Vector.length_toList]
      rfl
    obtain ⟨hcount, hfour⟩ := length_chunks (by decide) hlength
    refine ⟨decode_of_reflows (reflows_fingerprint identityId), _, hcount, hfour,
      flatten_chunks _ _, ?_⟩
    rw [← toList_fingerprint, String.ofList_toList]

end Onestein.Contact
