import Onestein.Transport.Counter
import Onestein.Transport.Keys
import Onestein.Transport.Window

/-!
# The tags a recipient watches for

A stream is recognised by its tag, which the recipient has to hold before the stream arrives. A
window lists the numbers it covers with their tags. It finds them as a range from its base, while
marking a number measures its distance from the base, and the two agree on every number but the
last one: a range with an open end does not reach it.

## Main definitions

* `Window.expected` — the tags that a window lists, with their numbers.
* `Window.recognises` — a number is neither behind the window nor beyond its reach.
* `Window.Watches` — a list is the tags of the recognised numbers, in order.

## Main results

* `Window.mem_expected` — a window lists what it recognises, short of the last number.
* `Window.watches_expected_iff` — nothing is missing if the window ends before the last number.
-/

namespace Onestein.Transport

open Crypto

namespace Window

/-- The tags this window would recognise, with the stream numbers they belong to. -/
def expected [Blake2b] (w : Window) (tagKey : Digest) : List (UInt64 × Octets tagLen) :=
  (UInt64.range w.base (w.base.saturatingAdd windowLen)).map fun number =>
    (number, tag tagKey number)

/-- The window can still recognise the number: it has not passed it and reaches it. -/
def recognises (w : Window) (n : UInt64) : Bool :=
  match (w.markSeen n).2 with
  | .error (.alreadyPassed _ _) => false
  | .error (.outsideWindow _ _) => false
  | _ => true

/-- The list has the tag of every recognised number, once and in increasing order. In particular
it has the tags that a sender may come to use. -/
structure Watches [Blake2b] (w : Window) (tagKey : Digest)
    (tags : List (UInt64 × Octets tagLen)) : Prop where
  mem_iff : ∀ n t, (n, t) ∈ tags ↔ w.recognises n ∧ t = tag tagKey n
  increasing : tags.Pairwise fun p q => p.1 < q.1
  taken : ∀ (c : StreamCounter) (calls : List StreamCounter.Call), ∀ n ∈ c.taken calls,
    w.recognises n → (n, tag tagKey n) ∈ tags

/-! ## What is recognised -/

theorem recognises_iff {w : Window} {n : UInt64} :
    w.recognises n ↔ w.base.toNat ≤ n.toNat ∧ n.toNat < w.base.toNat + 32 := by
  unfold recognises markSeen
  by_cases hbase : n < w.base
  · rw [if_pos hbase]
    rw [UInt64.lt_iff_toNat_lt] at hbase
    simp only [Bool.false_eq_true, false_iff]
    omega
  · rw [if_neg hbase]
    rw [UInt64.lt_iff_toNat_lt] at hbase
    cases hoff : w.offset n with
    | none =>
      simp only [Bool.false_eq_true, false_iff]
      rintro ⟨hle, hlt⟩
      have hsome := isSome_offset hle hlt
      simp [hoff] at hsome
    | some o =>
      obtain ⟨hn, ho⟩ := offset_eq_some.mp hoff
      have hcovered : w.base.toNat ≤ n.toNat ∧ n.toNat < w.base.toNat + 32 := by omega
      rw [iff_true_right hcovered]
      dsimp only
      -- seen or not, the number is recognised
      by_cases hseen : w.seen &&& (1 <<< o) ≠ 0
      · rw [if_pos hseen]
      · rw [if_neg hseen]

/-! ## What is listed -/

variable [Blake2b] {w : Window} {tagKey : Digest}

/-- The range stops short of the last number. -/
theorem mem_expected {n : UInt64} {t : Octets tagLen} :
    (n, t) ∈ w.expected tagKey ↔ w.recognises n ∧ n ≠ UInt64.last ∧ t = tag tagKey n := by
  have hlast : n ≠ UInt64.last ↔ n.toNat ≠ 2 ^ 64 - 1 := UInt64.toNat_inj.symm.not
  have hlen : windowLen.toNat = 32 := rfl
  have hn := n.toNat_lt
  have hrange : n ∈ UInt64.range w.base (w.base.saturatingAdd windowLen) ↔
      w.recognises n ∧ n ≠ UInt64.last := by
    rw [UInt64.mem_range, recognises_iff, hlast, UInt64.le_iff_toNat_le,
      UInt64.lt_iff_toNat_lt, UInt64.toNat_saturatingAdd, hlen]
    omega
  rw [expected, List.mem_map]
  constructor
  · rintro ⟨number, hmem, hpair⟩
    obtain ⟨rfl, rfl⟩ := Prod.mk.inj hpair
    obtain ⟨hrec, hne⟩ := hrange.mp hmem
    exact ⟨hrec, hne, rfl⟩
  · rintro ⟨hrec, hne, rfl⟩
    exact ⟨n, hrange.mpr ⟨hrec, hne⟩, rfl⟩

theorem pairwise_expected (w : Window) (tagKey : Digest) :
    (w.expected tagKey).Pairwise fun p q => p.1 < q.1 := by
  rw [expected, List.pairwise_map]
  exact UInt64.pairwise_range _ _

/-- The tags listed are those of the numbers that are recognised exactly if the window ends before
the last number. -/
theorem watches_expected_iff (w : Window) (tagKey : Digest) :
    w.Watches tagKey (w.expected tagKey) ↔ w.base.toNat + 32 ≤ UInt64.last.toNat := by
  have hbase := w.base.toNat_lt
  rw [UInt64.toNat_last]
  constructor
  · intro hwatches
    by_contra hend
    have hrec : w.recognises UInt64.last := by
      rw [recognises_iff, UInt64.toNat_last]
      omega
    have hmem := (hwatches.mem_iff _ _).mpr ⟨hrec, rfl⟩
    exact (mem_expected.mp hmem).2.1 rfl
  · intro hend
    have hlisted : ∀ n t, (n, t) ∈ w.expected tagKey ↔ w.recognises n ∧ t = tag tagKey n := by
      intro n t
      rw [mem_expected]
      constructor
      · rintro ⟨hrec, -, ht⟩
        exact ⟨hrec, ht⟩
      · rintro ⟨hrec, ht⟩
        refine ⟨hrec, ?_, ht⟩
        rintro rfl
        rw [recognises_iff, UInt64.toNat_last] at hrec
        omega
    exact ⟨hlisted, pairwise_expected w tagKey, fun _ _ n _ hrec => (hlisted n _).mpr ⟨hrec, rfl⟩⟩

omit [Blake2b] in
/-- A sender hands out the last number and the window accepts it, and its tag is not listed. -/
theorem not_watches_last :
    let _ := checksum
    let w := restore (UInt64.last - 31) 0
    let tagKey : Digest := Octets.be 32 7
    (StreamCounter.restore UInt64.last).taken [.take] = [UInt64.last] ∧
      (w.markSeen UInt64.last).2 = .ok () ∧
      UInt64.last ∉ (w.expected tagKey).map Prod.fst ∧ ¬ w.Watches tagKey (w.expected tagKey) := by
  intro _ w tagKey
  have hmissing : ∀ t, (UInt64.last, t) ∉ w.expected tagKey := by
    intro t hmem
    exact (mem_expected.mp hmem).2.1 rfl
  refine ⟨by decide, by decide, ?_, ?_⟩
  · intro hmem
    obtain ⟨⟨n, t⟩, hlisted, rfl⟩ := List.mem_map.mp hmem
    exact hmissing t hlisted
  · intro hwatches
    exact hmissing _ ((hwatches.mem_iff _ _).mpr ⟨by decide, rfl⟩)

end Window

end Onestein.Transport
