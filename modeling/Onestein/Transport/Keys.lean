import Onestein.Crypto.Hash
import Onestein.Lib.Word

/-!
# Time-based keys

Both peers derive two keys for each direction from a root key, and rotate them once per time
period. A rotation in one step derives every period on the way.

## Main definitions

* `PeriodKeys.initial` and `PeriodKeys.rotateTo` — derivation and rotation.
* `tag` — the tag of a stream.
* `PeriodKeys.keysAt` — the keys of a later period, however they are reached.

## Main results

* `PeriodKeys.eq_keysAt_of_rotateChain` — a chain of rotations ends in the keys of its last
  period.
* `PeriodKeys.mirrored` — two peers that start as mirror images stay mirror images.
-/

set_option linter.dupNamespace false

namespace Onestein.Transport

open Crypto

/-- The bytes of a key derivation label. -/
def label (name : String) : Bytes := Bytes.utf8 ("org.onestein.transport/" ++ name)

def aTagKey : Bytes := label "A_TAG_KEY"
def aHeaderKey : Bytes := label "A_HEADER_KEY"
def bTagKey : Bytes := label "B_TAG_KEY"
def bHeaderKey : Bytes := label "B_HEADER_KEY"
def rotate : Bytes := label "ROTATE"

/-- Transport layer version. -/
def transportVersion : UInt8 := 1

/-- Length of a stream tag. -/
abbrev tagLen : Nat := 16

/-- The largest number of periods rotated in one step. -/
def maxRotations : UInt64 := 1024

/-- A transport, with the length of its periods. -/
structure Transport where
  id : String
  periodSeconds : UInt64
  periodSeconds_pos : 0 < periodSeconds

/-- Tor, or any routed network. -/
def tor : Transport := ⟨"org.onestein.transport.tor", 25 * 3600, by decide⟩

/-- A local network. -/
def lan : Transport := ⟨"org.onestein.transport.lan", 25 * 3600, by decide⟩

def bluetooth : Transport := ⟨"org.onestein.transport.bluetooth", 25 * 3600, by decide⟩

/-- Removable media. -/
def media : Transport := ⟨"org.onestein.transport.media", 31 * 24 * 3600, by decide⟩

def relay : Transport := ⟨"org.onestein.transport.relay", 31 * 24 * 3600, by decide⟩

/-- The period a timestamp falls in. -/
def Transport.periodAt (t : Transport) (timestampMs : UInt64) : UInt64 :=
  timestampMs / 1000 / t.periodSeconds

/-- Which side of the pair a device is. -/
inductive Role where
  | a
  | b
  deriving DecidableEq

/-- Why keys could not be derived. -/
inductive Error where
  | timestampTooEarly
  | periodInThePast (current requested : UInt64)
  | tooFarAhead (periods : UInt64)
  deriving DecidableEq

/-- The two keys for one direction. -/
structure DirectionKeys where
  tagKey : Digest
  headerKey : Digest
  deriving DecidableEq

/-- Both directions' keys for one period. -/
structure PeriodKeys where
  period : UInt64
  outgoing : DirectionKeys
  incoming : DirectionKeys
  deriving DecidableEq

variable [Blake2b]

/-- What the tag of a stream is derived from. -/
def tagMessage (streamNumber : UInt64) : Bytes :=
  Bytes.be 2 transportVersion.toNat ++ Bytes.be 8 streamNumber.toNat

/-- The tag that starts a stream. -/
def tag (tagKey : Digest) (streamNumber : UInt64) : Octets tagLen :=
  (prf tagKey (tagMessage streamNumber)).take tagLen

/-- One rotation of the keys of one direction, under the counter of the new period. -/
def DirectionKeys.rotateOnce (keys : DirectionKeys) (next : UInt64) : DirectionKeys where
  tagKey := kdf keys.tagKey [rotate, Bytes.be 8 next.toNat]
  headerKey := kdf keys.headerKey [rotate, Bytes.be 8 next.toNat]

namespace PeriodKeys

/-- The initial keys, of the period before the one containing the agreed timestamp. -/
def initial (rootKey : Digest) (transport : Transport) (role : Role) (timestampMs : UInt64) :
    Except Error PeriodKeys :=
  match (transport.periodAt timestampMs).checkedSub 1 with
  | none => .error .timestampTooEarly
  | some period =>
    let mine := match role with
      | .a => (aTagKey, aHeaderKey)
      | .b => (bTagKey, bHeaderKey)
    let theirs := match role with
      | .a => (bTagKey, bHeaderKey)
      | .b => (aTagKey, aHeaderKey)
    let id := Bytes.utf8 transport.id
    .ok {
      period := period
      outgoing := ⟨kdf rootKey [mine.1, id], kdf rootKey [mine.2, id]⟩
      incoming := ⟨kdf rootKey [theirs.1, id], kdf rootKey [theirs.2, id]⟩ }

/-- The body of the rotation loop: all four keys, under one counter. -/
def rotateKeys (keys : PeriodKeys) (next : UInt64) : PeriodKeys :=
  { keys with
    outgoing := keys.outgoing.rotateOnce next
    incoming := keys.incoming.rotateOnce next }

/-- Rotates forward to a later period. -/
def rotateTo (keys : PeriodKeys) (period : UInt64) : Except Error PeriodKeys :=
  if period < keys.period then
    .error (.periodInThePast keys.period period)
  else
    let steps := period.saturatingSub keys.period
    if maxRotations < steps then
      .error (.tooFarAhead steps)
    else
      let rotated :=
        (UInt64.rangeInclusive (keys.period.saturatingAdd 1) period).foldl rotateKeys keys
      .ok { rotated with period := period }

/-- Rotations one after the other, each of which has to succeed. -/
def rotateChain (keys : PeriodKeys) (periods : List UInt64) : Except Error PeriodKeys :=
  periods.foldlM rotateTo keys

/-- The keys of a later period: rotated under every counter up to it. -/
def keysAt (keys : PeriodKeys) (period : UInt64) : PeriodKeys :=
  { (UInt64.rangeInclusive (keys.period + 1) period).foldl rotateKeys keys with period := period }

/-- The same keys as the peer holds them. -/
def mirror (keys : PeriodKeys) : PeriodKeys :=
  { keys with outgoing := keys.incoming, incoming := keys.outgoing }

end PeriodKeys

namespace PeriodKeys

variable {keys keys' : PeriodKeys}

/-- Rotating does not look at the period the keys carry. -/
theorem foldl_rotateKeys_period (keys : PeriodKeys) (p : UInt64) (ps : List UInt64) :
    ps.foldl rotateKeys { keys with period := p } =
      { ps.foldl rotateKeys keys with period := p } := by
  induction ps generalizing keys with
  | nil => rfl
  | cons next ps ih => exact ih (keys.rotateKeys next)

theorem keysAt_self (h : keys.period < UInt64.last) : keys.keysAt keys.period = keys := by
  rw [keysAt, UInt64.rangeInclusive_self h]
  rfl

/-- Rotating on from a later period gives the keys of the period reached. -/
theorem keysAt_keysAt {p q : UInt64} (hp : keys.period ≤ p) (hpq : p ≤ q)
    (hq : q < UInt64.last) : (keys.keysAt p).keysAt q = keys.keysAt q := by
  rw [keysAt, keysAt, keysAt, foldl_rotateKeys_period, ← List.foldl_append,
    UInt64.rangeInclusive_append hp hpq hq]

/-- A rotation never goes back, and short of the last period it gives the keys of the period
asked for. -/
theorem rotateTo_eq_ok {p : UInt64} (h : keys.rotateTo p = .ok keys') :
    keys.period ≤ p ∧ keys'.period = p ∧ (p < UInt64.last → keys' = keys.keysAt p) := by
  unfold rotateTo at h
  dsimp only at h
  split_ifs at h with hpast
  have hle : keys.period ≤ p := by simpa using hpast
  obtain rfl := Except.ok.inj h
  refine ⟨hle, rfl, fun hlast => ?_⟩
  rw [UInt64.saturatingAdd_one (UInt64.lt_of_le_of_lt hle hlast)]
  rfl

/-- A rotation forward within the bound succeeds. -/
theorem exists_rotateTo {p : UInt64} (hle : keys.period ≤ p)
    (hfar : p.toNat - keys.period.toNat ≤ maxRotations.toNat) :
    ∃ keys', keys.rotateTo p = .ok keys' ∧ keys'.period = p := by
  unfold rotateTo
  have hsteps : ¬ maxRotations < p.saturatingSub keys.period := by
    rw [UInt64.lt_iff_toNat_lt, UInt64.toNat_saturatingSub]
    omega
  rw [if_neg (UInt64.not_lt.mpr hle)]
  dsimp only
  rw [if_neg hsteps]
  exact ⟨_, rfl, rfl⟩

theorem rotateChain_cons {p : UInt64} {ps : List UInt64} (h : keys.rotateTo p = .ok keys') :
    keys.rotateChain (p :: ps) = keys'.rotateChain ps := by
  rw [rotateChain, List.foldlM_cons, h]
  rfl

/-- A chain of rotations that ends short of the last period ends in the keys of its period. -/
theorem eq_keysAt_of_rotateChain {ps : List UInt64} (h : keys.rotateChain ps = .ok keys')
    (hlast : keys'.period < UInt64.last) :
    keys.period ≤ keys'.period ∧ keys' = keys.keysAt keys'.period := by
  induction ps generalizing keys with
  | nil =>
    obtain rfl := Except.ok.inj h
    exact ⟨UInt64.le_refl _, (keysAt_self hlast).symm⟩
  | cons p ps ih =>
    rw [rotateChain, List.foldlM_cons] at h
    cases hstep : keys.rotateTo p with
    | error e =>
      rw [hstep] at h
      cases h
    | ok next =>
      rw [hstep] at h
      obtain ⟨hle, heq⟩ := ih h
      obtain ⟨hpast, hperiod, hnext⟩ := rotateTo_eq_ok hstep
      rw [hperiod] at hle
      have hp : p < UInt64.last := UInt64.lt_of_le_of_lt hle hlast
      refine ⟨UInt64.le_trans hpast hle, ?_⟩
      rw [← keysAt_keysAt hpast hle hlast, ← hnext hp]
      exact heq

/-- Two chains that bring the same keys to the same period agree. -/
theorem rotateChain_confluent {ps qs : List UInt64} {one two : PeriodKeys}
    (hone : keys.rotateChain ps = .ok one) (htwo : keys.rotateChain qs = .ok two)
    (hperiod : one.period = two.period) (hlast : one.period < UInt64.last) : one = two := by
  rw [(eq_keysAt_of_rotateChain hone hlast).2, hperiod]
  exact (eq_keysAt_of_rotateChain htwo (hperiod ▸ hlast)).2.symm

/-! ## Mirror images -/

theorem mirror_foldl_rotateKeys (keys : PeriodKeys) (ps : List UInt64) :
    (ps.foldl rotateKeys keys).mirror = ps.foldl rotateKeys keys.mirror := by
  induction ps generalizing keys with
  | nil => rfl
  | cons next ps ih => exact ih (keys.rotateKeys next)

/-- Mirror images rotate to mirror images. -/
theorem mirror_keysAt (keys : PeriodKeys) (p : UInt64) :
    (keys.keysAt p).mirror = keys.mirror.keysAt p := by
  have h := mirror_foldl_rotateKeys keys (UInt64.rangeInclusive (keys.period + 1) p)
  rw [keysAt, keysAt, show keys.mirror.period = keys.period from rfl, ← h]
  rfl

/-- The two roles start as mirror images. -/
theorem initial_mirror {rootKey : Digest} {transport : Transport} {timestampMs : UInt64}
    {a b : PeriodKeys} (ha : initial rootKey transport .a timestampMs = .ok a)
    (hb : initial rootKey transport .b timestampMs = .ok b) : b = a.mirror := by
  unfold initial at ha hb
  cases hperiod : (transport.periodAt timestampMs).checkedSub 1 with
  | none => simp [hperiod] at ha
  | some period =>
    simp only [hperiod, Except.ok.injEq] at ha hb
    rw [← ha, ← hb]
    rfl

/-- From period 1 on there are initial keys. -/
theorem initial_ok (rootKey : Digest) {transport : Transport} (role : Role) {timestampMs : UInt64}
    (h : 1 ≤ transport.periodAt timestampMs) :
    ∃ keys, initial rootKey transport role timestampMs = .ok keys := by
  unfold initial
  cases hperiod : (transport.periodAt timestampMs).checkedSub 1 with
  | none =>
    rw [UInt64.checkedSub_eq_none] at hperiod
    exact absurd hperiod (UInt64.not_lt.mpr h)
  | some period => exact ⟨_, rfl⟩

/-- Both peers hold mirrored keys, whatever path they rotated by: each side's outgoing keys
are the other's incoming keys. And one side's keys do not depend on the path. -/
theorem mirrored (rootKey : Digest) (transport : Transport) (timestampMs : UInt64)
    (hperiod : 1 ≤ transport.periodAt timestampMs) :
    ∃ a b, initial rootKey transport .a timestampMs = .ok a ∧
      initial rootKey transport .b timestampMs = .ok b ∧
      (∀ (ps qs : List UInt64) (ka kb : PeriodKeys),
        a.rotateChain ps = .ok ka → b.rotateChain qs = .ok kb → ka.period = kb.period →
        ka.period < UInt64.last → ka.outgoing = kb.incoming ∧ ka.incoming = kb.outgoing) ∧
      ∀ start ∈ [a, b], ∀ (p : UInt64) (ps : List UInt64) (long short : PeriodKeys),
        start.rotateTo p = .ok long → start.rotateChain ps = .ok short → short.period = p →
        p < UInt64.last → long = short := by
  obtain ⟨a, ha⟩ := initial_ok rootKey .a hperiod
  obtain ⟨b, hb⟩ := initial_ok rootKey .b hperiod
  refine ⟨a, b, ha, hb, ?_, ?_⟩
  · intro ps qs ka kb hka hkb hsame hlast
    obtain rfl := initial_mirror ha hb
    have hkb' := (eq_keysAt_of_rotateChain hkb (hsame ▸ hlast)).2
    rw [← hsame, ← mirror_keysAt, ← (eq_keysAt_of_rotateChain hka hlast).2] at hkb'
    rw [hkb']
    exact ⟨rfl, rfl⟩
  · intro start _ p ps long short hlong hshort hp hlast
    have hchain : start.rotateChain [p] = .ok long := rotateChain_cons hlong
    have hperiod := (rotateTo_eq_ok hlong).2.1
    exact rotateChain_confluent hchain hshort (hperiod.trans hp.symm) (hperiod ▸ hlast)

/-- From the first period on, the third is reached in two steps or in one. -/
theorem exists_rotateChain_two (h : keys.period = 0) :
    (∃ keys', keys.rotateChain [1, 2] = .ok keys' ∧ keys'.period = 2) ∧
      ∃ keys', keys.rotateChain [2] = .ok keys' ∧ keys'.period = 2 := by
  obtain ⟨k₁, h₁, hp₁⟩ : ∃ k, keys.rotateTo 1 = .ok k ∧ k.period = 1 :=
    exists_rotateTo (by rw [h]; decide) (by rw [h]; decide)
  obtain ⟨k₂, h₂, hp₂⟩ : ∃ k, k₁.rotateTo 2 = .ok k ∧ k.period = 2 :=
    exists_rotateTo (by rw [hp₁]; decide) (by rw [hp₁]; decide)
  obtain ⟨k₃, h₃, hp₃⟩ : ∃ k, keys.rotateTo 2 = .ok k ∧ k.period = 2 :=
    exists_rotateTo (by rw [h]; decide) (by rw [h]; decide)
  exact ⟨⟨k₂, (rotateChain_cons h₁).trans (rotateChain_cons h₂), hp₂⟩,
    k₃, rotateChain_cons h₃, hp₃⟩

/-- On Tor this time is in the period 1, and keys start in the one before. -/
theorem period_of_initial_tor {rootKey : Digest} {role : Role}
    (h : initial rootKey tor role 90000000 = .ok keys) : keys.period = 0 := by
  obtain rfl := Except.ok.inj h
  rfl

omit [Blake2b] in
/-- One peer rotates period by period, the other in one step. -/
theorem mirrored_tor :
    let _ := checksum
    let root : Digest := Octets.be 32 7
    ∃ a b ka kb, initial root tor .a 90000000 = .ok a ∧ initial root tor .b 90000000 = .ok b ∧
      a.rotateChain [1, 2] = .ok ka ∧ b.rotateChain [2] = .ok kb ∧
      ka.outgoing = kb.incoming ∧ ka.incoming = kb.outgoing := by
  intro _ root
  obtain ⟨a, b, ha, hb, hmirror, -⟩ := mirrored root tor 90000000 (by decide)
  obtain ⟨⟨ka, hka, hpa⟩, -⟩ := exists_rotateChain_two (period_of_initial_tor ha)
  obtain ⟨-, kb, hkb, hpb⟩ := exists_rotateChain_two (period_of_initial_tor hb)
  refine ⟨a, b, ka, kb, ha, hb, hka, hkb, ?_⟩
  exact hmirror [1, 2] [2] ka kb hka hkb (hpa.trans hpb.symm) (by rw [hpa]; decide)

end PeriodKeys

end Onestein.Transport
