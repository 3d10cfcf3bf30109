import Onestein.Bdf.Canonical

/-!
# Dictionaries

In a canonical dictionary the keys ascend, so no key is there twice and the entries are fixed by
what is looked up.

## Main results

* `find?_key_eq_some`, `exists_find?_eq_some` — looking a key up finds the entry with that key.
* `lookup_raw_eq_ok` — the same for a lookup that takes raw bytes only.
* `eq_of_keys_subset`, `eq_of_length_le` — entries that hold others, and no more keys or no more
  entries, are the others.
* `fromBytesCanonical_toBytes_flat` — a dictionary without containers reads back.
-/

namespace Onestein.Bdf

open Bytes

variable {entries expected : List (String × Value)} {entry : String × Value} {key : String}

theorem keysSorted_iff_isChain :
    keysSorted entries ↔ entries.IsChain fun left right => utf8 left.1 < utf8 right.1 := by
  induction entries with
  | nil => simp [keysSorted]
  | cons left rest ih =>
    cases rest with
    | nil => simp [keysSorted]
    | cons right rest => rw [keysSorted_cons_cons, List.isChain_cons_cons, ih]

theorem keysSorted_iff_pairwise :
    keysSorted entries ↔ entries.Pairwise fun left right => utf8 left.1 < utf8 right.1 := by
  have htrans : IsTrans (String × Value) fun left right => utf8 left.1 < utf8 right.1 :=
    ⟨fun _ _ _ => List.lt_trans⟩
  rw [keysSorted_iff_isChain, List.isChain_iff_pairwise]

/-- No key is there twice. -/
theorem nodup_keys (h : keysSorted entries) : (entries.map Prod.fst).Nodup := by
  rw [List.Nodup, List.pairwise_map]
  apply (keysSorted_iff_pairwise.mp h).imp
  intro left right hlt heq
  rw [heq] at hlt
  exact List.lt_irrefl _ hlt

/-- Looking a key up finds the entry with that key. -/
theorem find?_key_eq_some (h : keysSorted entries) :
    entries.find? (·.1 == key) = some entry ↔ entry ∈ entries ∧ entry.1 = key := by
  constructor
  · intro hfind
    exact ⟨List.mem_of_find?_eq_some hfind, by simpa using List.find?_some hfind⟩
  · rintro ⟨hmem, hkey⟩
    have hsome : (entries.find? (·.1 == key)).isSome := by
      rw [List.find?_isSome]
      exact ⟨entry, hmem, by simpa using hkey⟩
    obtain ⟨found, hfound⟩ := Option.isSome_iff_exists.mp hsome
    have hsame : found.1 = entry.1 := by simpa [hkey] using List.find?_some hfound
    rw [hfound, List.inj_on_of_nodup_map (nodup_keys h) (List.mem_of_find?_eq_some hfound) hmem
      hsame]

/-- What a lookup finds under a key is what stands under it. -/
theorem exists_find?_eq_some (h : keysSorted entries) {value : Value} :
    (∃ name, entries.find? (·.1 == key) = some (name, value)) ↔ (key, value) ∈ entries := by
  simp [find?_key_eq_some h]

/-- A lookup that takes raw bytes only gives the bytes of the entry with the key. -/
theorem lookup_raw_eq_ok {ε : Type} {e : ε} (h : keysSorted entries) {bytes : Bytes} :
    (match entries.find? (·.1 == key) with
      | some (_, .raw found) => .ok found
      | _ => .error e : Except ε Bytes) = .ok bytes ↔ (key, .raw bytes) ∈ entries := by
  rw [← exists_find?_eq_some h]
  cases entries.find? (·.1 == key) with
  | none => simp
  | some entry =>
    obtain ⟨name, value⟩ := entry
    cases value <;> simp

theorem fits_of_mem (hfit : FitEntries entries) (h : entry ∈ entries) : entry.2.Fits := by
  induction entries with
  | nil => simp at h
  | cons first entries ih =>
    obtain ⟨-, hfirst, hrest⟩ := hfit
    rcases List.mem_cons.mp h with rfl | hmem
    · exact hfirst
    · exact ih hrest hmem

/-- The order of the entries is fixed. -/
theorem eq_of_perm (h : keysSorted entries) (h' : keysSorted expected)
    (hperm : entries.Perm expected) : entries = expected := by
  apply hperm.eq_of_pairwise _ (keysSorted_iff_pairwise.mp h) (keysSorted_iff_pairwise.mp h')
  intro left right _ _ hlt hgt
  exact absurd hlt (List.lt_asymm hgt)

/-- Entries that hold others and no more keys are the others. -/
theorem eq_of_keys_subset (h : keysSorted entries) (h' : keysSorted expected)
    (hsub : expected ⊆ entries) (hkeys : ∀ entry ∈ entries, entry.1 ∈ expected.map Prod.fst) :
    entries = expected := by
  have hmem : ∀ entry, entry ∈ entries ↔ entry ∈ expected := by
    intro entry
    constructor
    · intro hentry
      obtain ⟨other, hother, hkey⟩ := List.mem_map.mp (hkeys entry hentry)
      have heq := List.inj_on_of_nodup_map (nodup_keys h) (hsub hother) hentry hkey
      rwa [← heq]
    · exact fun hentry => hsub hentry
  exact eq_of_perm h h' ((List.perm_ext_iff_of_nodup (List.Nodup.of_map _ (nodup_keys h))
    (List.Nodup.of_map _ (nodup_keys h'))).mpr hmem)

/-- Entries that hold others and are not more than they are the others. -/
theorem eq_of_length_le (h : keysSorted entries) (h' : keysSorted expected)
    (hsub : expected ⊆ entries) (hlen : entries.length ≤ expected.length) :
    entries = expected := by
  have hsubperm := List.subperm_of_subset (List.Nodup.of_map _ (nodup_keys h')) hsub
  exact eq_of_perm h h' (hsubperm.perm_of_length_le hlen).symm

/-- A dictionary without containers reads back if its keys are in order. -/
theorem fromBytesCanonical_toBytes_flat (names : List String)
    (hnames : entries.map Prod.fst = names)
    (hsorted : (names.zip (names.drop 1)).all fun (left, right) =>
      decide (utf8 left < utf8 right))
    (hflat : nestingEntries entries = 0) (hfit : FitEntries entries) :
    fromBytesCanonical (toBytes (.dict entries)) = .ok (.dict entries) := by
  have hkeys : keysSorted entries := by rwa [keysSorted_eq, hnames]
  have hvalues := allCanonicalEntries_of_flat hflat
  have hnesting : (Value.dict entries).nesting ≤ maxNesting := by
    rw [Value.nesting, hflat]
    decide
  rw [fromBytesCanonical_eq_ok]
  refine ⟨encodes_toBytes _ hfit fun _ => ?_, hnesting⟩
  simp [Value.isCanonical, hkeys, hvalues]

end Onestein.Bdf
