import Onestein.Lib.Fallible
import Onestein.Transport.Keys

/-!
# Once per period

A rotation is to derive every key once for each period it moves forward, under the number of that
period. The loop starts behind the period of the keys, unless there is nothing behind it.

## Main definitions

* `rotateKey` — one derivation of one key.
* `counters` — the periods behind one, up to another.
* `PeriodKeys.OncePerPeriod` — all four keys were derived once for each period.

## Main results

* `foldl_rotateKeys` — the loop derives each of the four keys on its own.
* `PeriodKeys.rotateTo_once_iff` — when a rotation derives once per period.
-/

namespace Onestein.Transport

open Crypto

/-- The periods behind one, up to another. -/
def counters (start period : UInt64) : List UInt64 :=
  (List.range' (start.toNat + 1) (period.toNat - start.toNat)).map UInt64.ofNat

theorem rangeInclusive_saturatingAdd {start : UInt64} (h : start < UInt64.last) (period : UInt64) :
    UInt64.rangeInclusive (start.saturatingAdd 1) period = counters start period := by
  rw [UInt64.saturatingAdd_one h, UInt64.rangeInclusive, UInt64.toNat_add_one h, counters,
    Nat.add_sub_add_right]

/-- Behind the last period the range starts at it, and still holds it. -/
theorem rangeInclusive_last :
    UInt64.rangeInclusive (UInt64.last.saturatingAdd 1) UInt64.last = [UInt64.last] := by
  decide

section Keys

variable [Blake2b]

/-- One derivation of one key. -/
def rotateKey (key : Digest) (next : UInt64) : Digest := kdf key [rotate, Bytes.be 8 next.toNat]

namespace PeriodKeys

variable {keys rotated : PeriodKeys} {period : UInt64}

/-- All four keys were derived once for each period on the way, in order. -/
structure OncePerPeriod (keys rotated : PeriodKeys) (period : UInt64) : Prop where
  period_eq : rotated.period = period
  outgoing_tagKey : rotated.outgoing.tagKey =
    (counters keys.period period).foldl rotateKey keys.outgoing.tagKey
  outgoing_headerKey : rotated.outgoing.headerKey =
    (counters keys.period period).foldl rotateKey keys.outgoing.headerKey
  incoming_tagKey : rotated.incoming.tagKey =
    (counters keys.period period).foldl rotateKey keys.incoming.tagKey
  incoming_headerKey : rotated.incoming.headerKey =
    (counters keys.period period).foldl rotateKey keys.incoming.headerKey

/-- The loop derives each of the four keys on its own. -/
theorem foldl_rotateKeys (keys : PeriodKeys) (periods : List UInt64) :
    periods.foldl rotateKeys keys =
      ⟨keys.period,
        ⟨periods.foldl rotateKey keys.outgoing.tagKey,
          periods.foldl rotateKey keys.outgoing.headerKey⟩,
        ⟨periods.foldl rotateKey keys.incoming.tagKey,
          periods.foldl rotateKey keys.incoming.headerKey⟩⟩ := by
  induction periods generalizing keys with
  | nil => rfl
  | cons next periods ih => exact ih (keys.rotateKeys next)

/-- What a rotation gives: the loop over its range. -/
theorem rotateTo_eq_ok_iff :
    keys.rotateTo period = .ok rotated ↔
      keys.period ≤ period ∧ period.toNat - keys.period.toNat ≤ maxRotations.toNat ∧
        rotated = ⟨period,
          ((UInt64.rangeInclusive (keys.period.saturatingAdd 1) period).foldl rotateKeys
            keys).outgoing,
          ((UInt64.rangeInclusive (keys.period.saturatingAdd 1) period).foldl rotateKeys
            keys).incoming⟩ := by
  rw [rotateTo, Except.ite_error_eq_ok, UInt64.not_lt]
  dsimp only
  rw [Except.ite_error_eq_ok, UInt64.not_lt, UInt64.le_iff_toNat_le (a := period.saturatingSub _),
    UInt64.toNat_saturatingSub, Except.ok.injEq, @eq_comm _ rotated]

theorem oncePerPeriod_of_lt (hlast : keys.period < UInt64.last)
    (h : keys.rotateTo period = .ok rotated) : keys.OncePerPeriod rotated period := by
  obtain ⟨-, -, rfl⟩ := rotateTo_eq_ok_iff.mp h
  rw [rangeInclusive_saturatingAdd hlast, foldl_rotateKeys]
  exact ⟨rfl, rfl, rfl, rfl, rfl⟩

/-- Keys of the last period are rotated to it by one derivation too many. -/
theorem rotateTo_last (hlast : keys.period = UInt64.last) :
    keys.rotateTo period = .ok rotated ↔
      period = UInt64.last ∧ rotated = keys.rotateKeys UInt64.last := by
  have hkeys : keys.rotateKeys UInt64.last = ⟨UInt64.last,
      (keys.rotateKeys UInt64.last).outgoing, (keys.rotateKeys UInt64.last).incoming⟩ :=
    hlast ▸ rfl
  rw [rotateTo_eq_ok_iff, hlast]
  constructor
  · rintro ⟨hle, -, rfl⟩
    obtain rfl := UInt64.le_antisymm (UInt64.le_last period) hle
    rw [rangeInclusive_last]
    exact ⟨rfl, hkeys.symm⟩
  · rintro ⟨rfl, rfl⟩
    rw [rangeInclusive_last]
    exact ⟨UInt64.le_refl _, by simp, hkeys⟩

theorem OncePerPeriod.eq_self (h : keys.OncePerPeriod rotated keys.period) : rotated = keys := by
  have hnone : counters keys.period keys.period = [] := by simp [counters]
  obtain ⟨hperiod, houtTag, houtHeader, hinTag, hinHeader⟩ := h
  rw [hnone, List.foldl_nil] at houtTag houtHeader hinTag hinHeader
  obtain ⟨_, ⟨_, _⟩, _, _⟩ := rotated
  obtain ⟨_, ⟨_, _⟩, _, _⟩ := keys
  subst hperiod houtTag houtHeader hinTag hinHeader
  rfl

end PeriodKeys

end Keys

namespace PeriodKeys

/-- A stand-in that derives no key to itself. -/
abbrev moving : Blake2b where
  digest _ := .replicate 32 0
  keyed key _ := key.map (· + 1)

theorem map_add_one_ne (key : Digest) : key.map (· + 1) ≠ key := by
  intro h
  have hfirst : key[0] + (1 : UInt8) = key[0] := by
    rw [← Vector.getElem_map (fun byte : UInt8 => byte + 1), h]
  simp at hfirst

/-- A rotation derives every key once for each period it moves forward, whatever BLAKE2b makes of
it, exactly if it does not rotate keys of the last period to that period. Then rotating to the
period of the keys leaves them as they are. -/
theorem rotateTo_once_iff (keys : PeriodKeys) (period : UInt64) :
    (∀ [Blake2b] (rotated : PeriodKeys), keys.rotateTo period = .ok rotated →
      keys.OncePerPeriod rotated period ∧ (period = keys.period → rotated = keys)) ↔
      ¬ (keys.period = UInt64.last ∧ period = UInt64.last) := by
  constructor
  · rintro h ⟨hlast, rfl⟩
    let _ := moving
    obtain ⟨-, hsame⟩ := h _ ((rotateTo_last hlast).mpr ⟨rfl, rfl⟩)
    exact map_add_one_ne _ (congrArg (·.outgoing.tagKey) (hsame hlast.symm))
  · intro hnot _ rotated h
    have hlt : keys.period < UInt64.last := by
      by_contra hlt
      have hlast := UInt64.le_antisymm (UInt64.le_last _) (UInt64.not_lt.mp hlt)
      exact hnot ⟨hlast, ((rotateTo_last hlast).mp h).1⟩
    have honce := oncePerPeriod_of_lt hlt h
    refine ⟨honce, ?_⟩
    rintro rfl
    exact honce.eq_self

/-- Keys of the last period. -/
def atLast : PeriodKeys where
  period := UInt64.last
  outgoing := ⟨.replicate 32 1, .replicate 32 2⟩
  incoming := ⟨.replicate 32 3, .replicate 32 4⟩

/-- Rotating keys of the last period to the period they are in changes them. -/
theorem rotateTo_atLast :
    let _ := checksum
    ∃ rotated, atLast.rotateTo atLast.period = .ok rotated ∧
      ¬ atLast.OncePerPeriod rotated atLast.period ∧ rotated ≠ atLast := by
  intro _
  have hne : atLast.rotateKeys UInt64.last ≠ atLast := by decide +kernel
  refine ⟨_, (rotateTo_last rfl).mpr ⟨rfl, rfl⟩, fun h => hne h.eq_self, hne⟩

end PeriodKeys

end Onestein.Transport
