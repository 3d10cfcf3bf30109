import Onestein.Handshake.Derivations
import Onestein.Lib.Chain
import Onestein.Transport.Rotation

/-!
# Keys and tags do not repeat

The keys of a period are chains of derivations: one from the root key, for a sender and a kind of
key, and then one for each period on the way. So no key of a pair is a key of another period, of the
other direction or of another pair, and the tag of a stream is that of no other stream.

## Main definitions

* `Start` — what the two peers of a pair start from on a transport.
* `Start.Reaches` — the keys of a later period, by any rotations.
* `Start.chain` — the derivations of a key.

## Main results

* `Start.keyOf_eq` — every key of a period is the end of its chain.
* `Start.keys_apart` — keys that are the same are of one chain.
-/

namespace Onestein.Transport

open Crypto

/-- The key of a direction. -/
def DirectionKeys.get (keys : DirectionKeys) : KeyKind → Digest
  | .tag => keys.tagKey
  | .header => keys.headerKey

/-- What one peer of a pair starts from on a transport. -/
structure Start where
  rootKey : Digest
  transport : Transport
  role : Role
  agreedMs : UInt64

/-- Where nothing is passed through it does not matter from where to where. Else the first and the
last counter are fixed. -/
theorem counters_eq_iff {start start' period period' : UInt64} (hle : start ≤ period)
    (hle' : start' ≤ period') : counters start period = counters start' period' ↔
      start = start' ∧ period = period' ∨ period = start ∧ period' = start' := by
  rw [UInt64.le_iff_toNat_le] at hle hle'
  constructor
  · intro h
    have hlength := congrArg List.length h
    simp only [counters, List.length_map, List.length_range'] at hlength
    by_cases hnone : period = start
    · subst hnone
      exact .inr ⟨rfl, UInt64.toNat_inj.mp (by omega)⟩
    · have hsome : period.toNat ≠ start.toNat := fun h => hnone (UInt64.toNat_inj.mp h)
      have hhead := congrArg List.head? h
      have hpos : period.toNat - start.toNat ≠ 0 := by omega
      have hpos' : period'.toNat - start'.toNat ≠ 0 := by omega
      simp only [counters, List.head?_map, List.head?_range', hpos, hpos', if_false,
        Option.map_some, Option.some.injEq] at hhead
      have hfirst := congrArg UInt64.toNat hhead
      have hlt := period.toNat_lt
      have hlt' := period'.toNat_lt
      rw [UInt64.toNat_ofNat_of_lt' (by simp [UInt64.size]; omega),
        UInt64.toNat_ofNat_of_lt' (by simp [UInt64.size]; omega)] at hfirst
      exact .inl ⟨UInt64.toNat_inj.mp (by omega), UInt64.toNat_inj.mp (by omega)⟩
  · rintro (⟨rfl, rfl⟩ | ⟨rfl, rfl⟩)
    · rfl
    · simp [counters]

namespace Start

/-- The period that the initial keys belong to. -/
def firstPeriod (start : Start) : UInt64 := start.transport.periodAt start.agreedMs - 1

/-- The derivations of a key of a period, in order. -/
def chain (start : Start) (sender : Role) (kind : KeyKind) (period : UInt64) : List Derivation :=
  .initial sender kind start.transport.id ::
    (counters start.firstPeriod period).map Derivation.rotation

section Keys

variable [Blake2b]

/-- The peer holds these keys after rotations that all succeeded, short of the last period. -/
def Reaches (start : Start) (keys : PeriodKeys) : Prop :=
  ∃ initial periods,
    PeriodKeys.initial start.rootKey start.transport start.role start.agreedMs = .ok initial ∧
      initial.rotateChain periods = .ok keys ∧ keys.period < UInt64.last

/-- The key that a peer holds for a sender. -/
def keyOf (start : Start) (keys : PeriodKeys) (sender : Role) (kind : KeyKind) : Digest :=
  (if sender = start.role then keys.outgoing else keys.incoming).get kind

/-- One derivation of a chain. -/
def derive (key : Digest) (derivation : Derivation) : Digest := derivation.derived key

/-- What keyed BLAKE2b is fed for a key of a period, with the keys it is fed under. -/
def fed (start : Start) (sender : Role) (kind : KeyKind) (period : UInt64) :
    List (Digest × Bytes) :=
  (Chain.uses derive start.rootKey (start.chain sender kind period)).map
    fun use => (use.1, use.2.input)

variable {start start' : Start} {keys keys' : PeriodKeys} {sender sender' : Role}
  {kind kind' : KeyKind} {period period' : UInt64}

theorem derive_rotation (key : Digest) (next : UInt64) :
    derive key (.rotation next) = rotateKey key next :=
  (Derivation.kdf_eq key rfl rfl).symm

theorem reached_rotations (key : Digest) (periods : List UInt64) :
    Chain.reached derive key (periods.map Derivation.rotation) = periods.foldl rotateKey key := by
  simp [Chain.reached, List.foldl_map, derive_rotation]

theorem firstPeriod_eq {initial : PeriodKeys}
    (h : PeriodKeys.initial start.rootKey start.transport start.role start.agreedMs = .ok initial) :
    start.firstPeriod = initial.period := by
  have hperiod := PeriodKeys.period_initial h
  have hone : 1 ≤ start.transport.periodAt start.agreedMs := by
    rw [UInt64.le_iff_toNat_le, ← hperiod]
    simp
  rw [← UInt64.toNat_inj, firstPeriod, UInt64.toNat_sub_of_le _ _ hone, ← hperiod]
  simp

theorem Reaches.firstPeriod_le (h : start.Reaches keys) : start.firstPeriod ≤ keys.period := by
  obtain ⟨initial, periods, hinitial, hchain, hlast⟩ := h
  rw [firstPeriod_eq hinitial]
  exact (PeriodKeys.eq_keysAt_of_rotateChain hchain hlast).1

/-- Every key of a period is the end of its chain. -/
theorem keyOf_eq (h : start.Reaches keys) (sender : Role) (kind : KeyKind) :
    start.keyOf keys sender kind =
      Chain.reached derive start.rootKey (start.chain sender kind keys.period) := by
  obtain ⟨initial, periods, hinitial, hchain, hlast⟩ := h
  obtain ⟨hle, hkeys⟩ := PeriodKeys.eq_keysAt_of_rotateChain hchain hlast
  have hfirst : start.firstPeriod = initial.period := firstPeriod_eq hinitial
  have hlt : initial.period < UInt64.last := UInt64.lt_of_le_of_lt hle hlast
  have hcounters : UInt64.rangeInclusive (initial.period + 1) keys.period =
      counters start.firstPeriod keys.period := by
    rw [hfirst, ← rangeInclusive_saturatingAdd hlt, UInt64.saturatingAdd_one hlt]
  obtain ⟨hout, hin⟩ := Derivation.initial_eq start.rootKey hinitial
  rw [PeriodKeys.keysAt, PeriodKeys.foldl_rotateKeys, hcounters, hout, hin] at hkeys
  have hreached (sender : Role) (kind : KeyKind) :
      Chain.reached derive start.rootKey (start.chain sender kind keys.period) =
        (counters start.firstPeriod keys.period).foldl rotateKey
          ((Derivation.initial sender kind start.transport.id).derived start.rootKey) :=
    reached_rotations _ _
  rw [hreached, keyOf]
  generalize counters _ _ = rotations at hkeys ⊢
  rw [hkeys]
  cases hrole : start.role <;> cases sender <;> cases kind <;> rfl

omit [Blake2b] in
/-- Only the first derivation of a chain is one of initial keys. -/
theorem startsOnly_chain (start : Start) (sender : Role) (kind : KeyKind) (period : UInt64) :
    Chain.StartsOnly (fun derivation => ∃ sender kind id, derivation = .initial sender kind id)
      (start.chain sender kind period) := by
  refine ⟨_, _, rfl, ⟨_, _, _, rfl⟩, fun derivation hmem => ?_⟩
  obtain ⟨next, -, rfl⟩ := List.mem_map.mp hmem
  rintro ⟨_, _, _, h⟩
  cases h

omit [Blake2b] in
/-- Chains are the same where what they are for is, and what they have passed through. -/
theorem chain_eq_iff (hle : start.firstPeriod ≤ period) (hle' : start'.firstPeriod ≤ period') :
    start.chain sender kind period = start'.chain sender' kind' period' ↔
      start.transport.id = start'.transport.id ∧ sender = sender' ∧ kind = kind' ∧
        (start.firstPeriod = start'.firstPeriod ∧ period = period' ∨
          period = start.firstPeriod ∧ period' = start'.firstPeriod) := by
  rw [chain, chain, List.cons.injEq, Derivation.initial.injEq,
    List.map_inj_right fun _ _ h => Derivation.rotation.inj h, counters_eq_iff hle hle']
  grind

/-- Where what keyed BLAKE2b is fed has no collision, neither have the derivations. -/
theorem injOn_derive {fed : Set (Digest × Bytes)}
    (hcollision : Set.InjOn (fun use : Digest × Bytes => Blake2b.keyed use.1 use.2) fed) :
    Set.InjOn (fun use : Digest × Derivation => derive use.1 use.2)
      {use | (use.1, use.2.input) ∈ fed} := by
  intro use huse use' huse' h
  obtain ⟨hkey, hinput⟩ := Prod.mk.inj (hcollision huse huse' h)
  exact Prod.ext hkey (Derivation.input_injective hinput)

/-- A key of a pair is the key of no other pair, no other transport, no other direction, no other
kind and no other period, whatever rotations led to it; but for keys that were never rotated, which
are the same whatever time was agreed. Nor is the tag of a stream that of another stream, or of one
under another key. Among what is derived on the way to the two keys there is no collision, and among
the two tags there is none. -/
theorem keys_apart (start start' : Start) (keys keys' : PeriodKeys) (hreaches : start.Reaches keys)
    (hreaches' : start'.Reaches keys') (sender sender' : Role) (kind kind' : KeyKind)
    (hcollision : Set.InjOn (fun use : Digest × Bytes => Blake2b.keyed use.1 use.2)
      {use | use ∈ start.fed sender kind keys.period ∨
        use ∈ start'.fed sender' kind' keys'.period}) :
    let key := start.keyOf keys sender kind
    let key' := start'.keyOf keys' sender' kind'
    let Same := start.rootKey = start'.rootKey ∧ start.transport.id = start'.transport.id ∧
      sender = sender' ∧ kind = kind' ∧
        (start.firstPeriod = start'.firstPeriod ∧ keys.period = keys'.period ∨
          keys.period = start.firstPeriod ∧ keys'.period = start'.firstPeriod)
    (key = key' ↔ Same) ∧
      ∀ n n', Set.InjOn (fun use : Digest × UInt64 => tag use.1 use.2) {(key, n), (key', n')} →
        (tag key n = tag key' n' ↔ n = n' ∧ Same) := by
  intro key key' Same
  have hkeys : key = key' ↔ Same := by
    rw [show key = _ from keyOf_eq hreaches sender kind,
      show key' = _ from keyOf_eq hreaches' sender' kind']
    have hsame := @chain_eq_iff start start' sender sender' kind kind' keys.period keys'.period
      hreaches.firstPeriod_le hreaches'.firstPeriod_le
    constructor
    · intro h
      obtain ⟨hroot, hchain⟩ := Chain.reached_injective (injOn_derive hcollision)
        (fun use huse => .inl (List.mem_map_of_mem huse))
        (fun use huse => .inr (List.mem_map_of_mem huse))
        (startsOnly_chain start sender kind keys.period)
        (startsOnly_chain start' sender' kind' keys'.period) h
      exact ⟨hroot, hsame.mp hchain⟩
    · rintro ⟨hroot, hchain⟩
      rw [hroot, hsame.mpr hchain]
  refine ⟨hkeys, fun n n' htags => ?_⟩
  rw [← hkeys]
  constructor
  · intro h
    have huse : (key, n) = (key', n') := htags (.inl rfl) (.inr rfl) h
    exact ⟨congrArg Prod.snd huse, congrArg Prod.fst huse⟩
  · rintro ⟨rfl, hkey⟩
    rw [hkey]

/-- The keys of a period up to the bound are reached. -/
theorem exists_reaches (period : UInt64) (start : Start)
    (hone : 1 ≤ start.transport.periodAt start.agreedMs) (hlast : period < UInt64.last)
    (hle : (start.transport.periodAt start.agreedMs).toNat ≤ period.toNat + 1)
    (hfar : period.toNat - (start.transport.periodAt start.agreedMs).toNat ≤ 1023) :
    ∃ keys, start.Reaches keys ∧ keys.period = period := by
  obtain ⟨initial, hinitial⟩ := PeriodKeys.initial_ok start.rootKey start.role hone
  obtain ⟨keys, hkeys⟩ := PeriodKeys.exists_rotateTo_initial period hinitial hle hfar
  obtain ⟨-, hperiod, -⟩ := PeriodKeys.rotateTo_eq_ok hkeys
  refine ⟨keys, ⟨initial, [period], hinitial, ?_, hperiod ▸ hlast⟩, hperiod⟩
  simp [PeriodKeys.rotateChain, hkeys]

end Keys

namespace Sample

/-- A pair on a routed network, from its second period on. -/
def pair : Start := ⟨.replicate 32 0x44, tor, .a, 90000000⟩

attribute [local instance] checksum

theorem injOn_fed : Set.InjOn (fun use : Digest × Bytes => Blake2b.keyed use.1 use.2)
    {use | use ∈ pair.fed .a .tag 1 ∨ use ∈ pair.fed .a .tag 2} := by
  have hnodup : (((pair.fed .a .tag 2).map fun use => Blake2b.keyed use.1 use.2)).Nodup := by
    decide +kernel
  have hsub : ∀ use ∈ pair.fed .a .tag 1, use ∈ pair.fed .a .tag 2 := by decide +kernel
  intro use huse use' huse' h
  exact List.inj_on_of_nodup_map hnodup (huse.elim (hsub use) id) (huse'.elim (hsub use') id) h

/-- The tag key of a period is not that of the next one. -/
theorem keys_apart_pair : ∃ keys keys', (pair.Reaches keys ∧ keys.period = 1) ∧
    (pair.Reaches keys' ∧ keys'.period = 2) ∧
    pair.keyOf keys .a .tag ≠ pair.keyOf keys' .a .tag := by
  obtain ⟨keys, hkeys, hperiod⟩ := exists_reaches 1 pair (by decide) (by decide)
    (by decide) (by decide)
  obtain ⟨keys', hkeys', hperiod'⟩ := exists_reaches 2 pair (by decide) (by decide)
    (by decide) (by decide)
  refine ⟨keys, keys', ⟨hkeys, hperiod⟩, ⟨hkeys', hperiod'⟩, fun h => ?_⟩
  obtain ⟨hsame, -⟩ := keys_apart pair pair keys keys' hkeys hkeys' .a .a .tag .tag
    (by rw [hperiod, hperiod']; exact injOn_fed)
  obtain ⟨-, -, -, -, ⟨-, hperiods⟩ | ⟨hfirst, -⟩⟩ := hsame.mp h
  · rw [hperiod, hperiod'] at hperiods
    exact absurd hperiods (by decide)
  · rw [hperiod] at hfirst
    exact absurd hfirst (by decide)

end Sample

end Start

end Onestein.Transport
