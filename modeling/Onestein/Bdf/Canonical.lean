import Onestein.Bdf.Halting

/-!
# Round trips and the canonical form

## Main results

* `fromBytesCanonical_iff` — the strict decoder accepts one encoding of each canonical value,
  the one the writer writes.
* `fromBytes_toBytes` — decoding undoes encoding, up to the nesting limit.
-/

namespace Onestein.Bdf

open Bytes

/-- What a decoder returns has sizes that fit. -/
theorem fits_of_fromBytes {input : Bytes} {v : Value} (h : fromBytes input = .ok v) : v.Fits :=
  Encodes.fits v (fromBytes_eq_ok.mp h).1

theorem fromBytesCanonical_eq_ok_iff {input : Bytes} {v : Value} :
    fromBytesCanonical input = .ok v ↔
      fromBytes input = .ok v ∧ v.isCanonical ∧ toBytes v = input := by
  rw [fromBytesCanonical_eq_ok, fromBytes_eq_ok]
  constructor
  · rintro ⟨henc, hn⟩
    obtain ⟨rfl, hc⟩ := Encodes.eq_toBytes v henc
    exact ⟨⟨Encodes.relax v henc, hn⟩, hc, rfl⟩
  · rintro ⟨⟨henc, hn⟩, hc, rfl⟩
    exact ⟨encodes_toBytes v (Encodes.fits v henc) fun _ => hc, hn⟩

/-- Canonical BDF has one encoding per value, and the strict decoder accepts exactly it. -/
theorem fromBytesCanonical_iff :
    (∀ (input : Bytes) (v : Value), fromBytesCanonical input = .ok v ↔
      fromBytes input = .ok v ∧ v.isCanonical ∧ toBytes v = input) ∧
    ∀ (a b : Bytes) (v : Value),
      fromBytesCanonical a = .ok v → fromBytesCanonical b = .ok v → a = b := by
  refine ⟨fun _ _ => fromBytesCanonical_eq_ok_iff, fun a b v ha hb => ?_⟩
  rw [← (fromBytesCanonical_eq_ok_iff.mp ha).2.2, (fromBytesCanonical_eq_ok_iff.mp hb).2.2]

/-- A value that fits is encoded by what the writer writes. -/
theorem encodes_toBytes_false {v : Value} (hfit : v.Fits) : Encodes false v (toBytes v) :=
  encodes_toBytes v hfit (by simp)

/-- A written value decodes to itself or not at all. -/
theorem eq_of_fromBytes_toBytes {v w : Value} (hfit : v.Fits)
    (h : fromBytes (toBytes v) = .ok w) : v = w ∧ v.nesting ≤ maxNesting := by
  obtain ⟨henc, hn⟩ := fromBytes_eq_ok.mp h
  obtain rfl := (encodes_toBytes_false hfit).unique henc
  exact ⟨rfl, hn⟩

/-- Decoding undoes encoding exactly up to the nesting limit; the strict decoder also demands
the canonical form. `hfit` is what Rust promises of every `Vec` and `String`. -/
theorem fromBytes_toBytes (v : Value) (hfit : v.Fits) :
    (v.nesting ≤ maxNesting → fromBytes (toBytes v) = .ok v) ∧
    (maxNesting < v.nesting → ∃ e, fromBytes (toBytes v) = .error e) ∧
    (fromBytesCanonical (toBytes v) = .ok v ↔ v.nesting ≤ maxNesting ∧ v.isCanonical) := by
  have hdec (hn : v.nesting ≤ maxNesting) : fromBytes (toBytes v) = .ok v :=
    fromBytes_eq_ok.mpr ⟨encodes_toBytes_false hfit, hn⟩
  refine ⟨hdec, fun hn => ?_, ?_⟩
  · cases h : fromBytes (toBytes v) with
    | error e => exact ⟨e, rfl⟩
    | ok w =>
      have := (eq_of_fromBytes_toBytes hfit h).2
      omega
  · rw [fromBytesCanonical_eq_ok_iff]
    constructor
    · rintro ⟨h, hc, -⟩
      exact ⟨(eq_of_fromBytes_toBytes hfit h).2, hc⟩
    · rintro ⟨hn, hc⟩
      exact ⟨hdec hn, hc, rfl⟩

/-- A dictionary whose keys are out of order decodes, but not in strict mode. -/
theorem fromBytes_toBytes_unsorted :
    fromBytes (toBytes (.dict [("b", .null), ("a", .list [.int 128])])) =
        .ok (.dict [("b", .null), ("a", .list [.int 128])]) ∧
      fromBytesCanonical (toBytes (.dict [("b", .null), ("a", .list [.int 128])])) ≠
        .ok (.dict [("b", .null), ("a", .list [.int 128])]) := by
  have hfit : Value.Fits (.dict [("b", .null), ("a", .list [.int 128])]) := by
    simp only [Value.Fits, FitEntries, FitItems, maxLen]
    decide
  obtain ⟨hok, -, hstrict⟩ := fromBytes_toBytes _ hfit
  refine ⟨hok (by decide), fun h => ?_⟩
  have hc := (hstrict.mp h).2
  exact absurd hc (by decide)

end Onestein.Bdf
