import Onestein.Lib.Reordering
import Onestein.Transport.Window

/-!
# What a window is for

A window holds 32 bits and slides. What it stands for is a receiver that remembers every number it
ever accepted: it accepts what is new and within reach of its base, and the base is the least place
with room above it.

## Main definitions

* `reference` — the receiver that a window stands for.
* `Window.Holds` — a window is at the base of the receiver and marks what it accepted from there on.
* `Window.recognised` — the numbers that a run of calls accepts.

## Main results

* `Window.holds_markSeen` — a call is answered as by the receiver, and marks what it remembers.
* `Window.refines_reference` — so is every run, from any window.
* `Window.keeps_overtaken` — a stream that was not overtaken by far is recognised.
-/

namespace Onestein.Transport

/-- The reason for a refusal, with the numbers that it names. -/
def reason (r : Reordering) (n : UInt64) : Reordering.Refusal → WindowError
  | .passed => .alreadyPassed n (UInt64.ofNat r.base)
  | .outside => .outsideWindow n (UInt64.ofNat (r.base + 32))
  | .seen => .alreadySeen n

/-- The receiver that a window stands for: 32 numbers are within reach, and there is room for 16
above the base. -/
noncomputable def reference (r : Reordering) (n : UInt64) :
    Reordering × Except WindowError Unit :=
  let (after, answer) := r.offer 32 16 n.toNat
  (after, answer.mapError (reason r n))

namespace Window

/-- The window is at the base of the receiver, and marks what it accepted from there on. -/
structure Holds (w : Window) (r : Reordering) : Prop where
  base_eq : r.base = w.base.toNat
  marked_iff : ∀ n, w.base.toNat ≤ n → (w.Marked n ↔ n ∈ r.accepted)

/-- The base is not near the last number. -/
def FarFromLast (w : Window) : Prop := w.base.toNat + 64 ≤ UInt64.last.toNat

variable {w : Window} {r : Reordering} {n : UInt64}

/-! ## Refusals -/

theorem markSeen_passed (h : n < w.base) :
    w.markSeen n = (w, .error (.alreadyPassed n w.base)) := by
  rw [markSeen, if_pos h]

theorem markSeen_outside (hfar : w.FarFromLast) (h : w.base.toNat + 32 ≤ n.toNat) :
    w.markSeen n = (w, .error (.outsideWindow n (UInt64.ofNat (w.base.toNat + 32)))) := by
  have hnone : w.offset n = none := by
    rw [Option.eq_none_iff_forall_ne_some]
    intro o ho
    obtain ⟨hn, hlt⟩ := offset_eq_some.mp ho
    omega
  have hlimit : w.base.saturatingAdd windowLen = UInt64.ofNat (w.base.toNat + 32) := by
    have hlast : UInt64.last.toNat = 2 ^ 64 - 1 := rfl
    have hlen : windowLen.toNat = 32 := rfl
    unfold FarFromLast at hfar
    apply UInt64.toNat_inj.mp
    rw [UInt64.toNat_saturatingAdd, UInt64.toNat_ofNat_of_lt' (by simp [UInt64.size]; omega)]
    omega
  have hbase : ¬ n < w.base := by
    rw [UInt64.lt_iff_toNat_lt]
    omega
  rw [markSeen, if_neg hbase, hnone, hlimit]

theorem markSeen_seen (hlt : n.toNat < w.base.toNat + 32) (h : w.Marked n.toNat) :
    w.markSeen n = (w, .error (.alreadySeen n)) := by
  obtain ⟨o, ho⟩ := Option.isSome_iff_exists.mp (isSome_offset h.1 hlt)
  obtain ⟨hn, ho32⟩ := offset_eq_some.mp ho
  have hbase : ¬ n < w.base := by
    rw [UInt64.lt_iff_toNat_lt]
    omega
  have hbit : w.seen &&& (1 <<< o) ≠ 0 := by
    rw [UInt32.and_bit_ne_zero ho32]
    simpa [Marked, hn] using h
  rw [markSeen, if_neg hbase, ho]
  dsimp only
  rw [if_pos hbit]

/-! ## One call -/

/-- A place is settled exactly if the base may be there. -/
theorem settled_iff_free {accepted : Set Nat}
    (h : ∀ n, w.base.toNat ≤ n → (w.Marked n ↔ n ∈ accepted)) {b : Nat} (hb : w.base.toNat ≤ b) :
    w.Settled (b - w.base.toNat) ↔ Reordering.Free 16 accepted b := by
  constructor
  · rintro ⟨hroom, hunseen⟩
    refine ⟨fun hmem => hunseen ((h b hb).mpr hmem).2, fun a ha => ?_⟩
    by_contra hfar
    have hmark := (h a (by omega)).mpr ha
    exact hroom _ (by omega) hmark.2
  · rintro ⟨hnew, hroom⟩
    refine settled_of_room hb (fun hmark => hnew ((h b hb).mp hmark)) fun m hm => ?_
    exact hroom m ((h m hm.1).mp hm)

/-- No more than the width of the window is slid. -/
theorem settled_width (w : Window) : w.Settled 32 :=
  ⟨fun i hi hbit => absurd (UInt32.testBit_lt hbit) (by omega),
    fun hbit => absurd (UInt32.testBit_lt hbit) (by omega)⟩

/-- Sliding to the least settled place brings the window to the next place that is free. -/
theorem holds_slides {accepted : Set Nat} {k : Nat}
    (hlast : w.base.toNat + k ≤ UInt64.last.toNat)
    (hmarked : ∀ n, w.base.toNat ≤ n → (w.Marked n ↔ n ∈ accepted)) (hsettled : w.Settled k)
    (hleast : ∀ j, w.Settled j → k ≤ j) :
    (slide^[k] w).Holds
      ⟨sInf {b | w.base.toNat ≤ b ∧ Reordering.Free 16 accepted b}, accepted⟩ := by
  have hnext : sInf {b | w.base.toNat ≤ b ∧ Reordering.Free 16 accepted b} =
      w.base.toNat + k := by
    apply IsLeast.csInf_eq
    constructor
    · refine ⟨Nat.le_add_right _ _, ?_⟩
      rwa [← settled_iff_free hmarked (Nat.le_add_right _ _), Nat.add_sub_cancel_left]
    · rintro b ⟨hb, hfree⟩
      have := hleast _ ((settled_iff_free hmarked hb).mpr hfree)
      omega
  have hslid : (slide^[k] w).base.toNat = w.base.toNat + k := by
    rw [UInt64.toNat_last] at hlast
    rw [toNat_base_slides, Nat.min_eq_left hlast]
  refine ⟨hnext.trans hslid.symm, fun m hm => ?_⟩
  rw [hslid] at hm
  rw [marked_slides hlast, and_iff_right hm]
  exact hmarked m (by omega)

/-- A call is answered as by the receiver, and the window goes on to hold what it remembers. -/
theorem holds_markSeen (h : w.Holds r) (hfar : w.FarFromLast) (n : UInt64) :
    (w.markSeen n).1.Holds (reference r n).1 ∧ (w.markSeen n).2 = (reference r n).2 := by
  have hmarked := h.marked_iff
  have hbase := h.base_eq
  have hsame : UInt64.ofNat r.base = w.base := by rw [hbase, UInt64.ofNat_toNat]
  unfold reference Reordering.offer
  split_ifs with hpassed houtside hseen
  · rw [hbase, ← UInt64.lt_iff_toNat_lt] at hpassed
    rw [markSeen_passed hpassed]
    exact ⟨h, by rw [← hsame]; rfl⟩
  · rw [hbase] at houtside
    rw [markSeen_outside hfar houtside, ← hbase]
    exact ⟨h, rfl⟩
  · have hmark := (hmarked n.toNat (by omega)).mpr hseen
    rw [markSeen_seen (by omega) hmark]
    exact ⟨h, rfl⟩
  · have hmark := (hmarked n.toNat (by omega)).not.mpr hseen
    obtain ⟨e, -, hrefused⟩ | ⟨w₁, k, -, -, -, hbase₁, hmarks, heq, hsettled, hleast⟩ :=
      w.markSeen_cases n
    · exact absurd (hrefused (isSome_offset (by omega) (by omega))) hmark
    · have haccepted : ∀ m, w₁.base.toNat ≤ m → (w₁.Marked m ↔ m ∈ insert n.toNat r.accepted) := by
        intro m hm
        rw [hbase₁] at hm
        rw [hmarks, hmarked m hm, Set.mem_insert_iff, or_comm]
      have hlast : w₁.base.toNat + k ≤ UInt64.last.toNat := by
        have hk : k ≤ 32 := hleast 32 w₁.settled_width
        rw [hbase₁]
        exact (Nat.add_le_add_left (hk.trans (by decide)) _).trans hfar
      rw [heq, hbase, ← hbase₁]
      exact ⟨holds_slides hlast haccepted hsettled hleast, rfl⟩

/-! ## Runs -/

/-- The receiver that a restored window stands for: it accepted the numbers at the bits. -/
def restored (base : UInt64) (seen : UInt32) : Reordering :=
  ⟨base.toNat, {n | ∃ i, seen.toNat.testBit i ∧ n = base.toNat + i}⟩

theorem holds_restored (base : UInt64) (seen : UInt32) :
    (restore base seen).Holds (restored base seen) := by
  refine ⟨rfl, fun n hn => ?_⟩
  have hbase : (restore base seen).base.toNat = base.toNat := rfl
  rw [hbase] at hn
  constructor
  · rintro ⟨-, hbit⟩
    exact ⟨n - base.toNat, hbit, (Nat.add_sub_cancel' hn).symm⟩
  · rintro ⟨i, hbit, rfl⟩
    exact ⟨hn, by rwa [hbase, Nat.add_sub_cancel_left]⟩

theorem Holds.isSeen_iff (h : w.Holds r) (hle : r.base ≤ n.toNat) :
    w.isSeen n ↔ n.toNat ∈ r.accepted := by
  rw [Window.isSeen_iff]
  exact h.marked_iff _ (h.base_eq ▸ hle)

theorem fst_markSeen_of_error {e : WindowError} (h : (w.markSeen n).2 = .error e) :
    (w.markSeen n).1 = w := by
  obtain ⟨e', heq, -⟩ | ⟨w₁, k, -, -, -, -, -, heq, -⟩ := w.markSeen_cases n
  · rw [heq]
  · simp [heq] at h

/-- A window answers every run of calls as the receiver it stands for: it accepts and refuses the
same, for the same reasons. Its base is that of the receiver, within its reach it has seen what the
receiver accepted, and a refused call leaves it as it is. -/
theorem refines_reference (base : UInt64) (seen : UInt32) (numbers : List UInt64)
    (hfar : Run.Steps markSeen (fun w _ => w.FarFromLast) (restore base seen) numbers) :
    Run.outputs markSeen (restore base seen) numbers =
        Run.outputs reference (restored base seen) numbers ∧
      ∀ i,
        let w := Run.stateAt markSeen (restore base seen) numbers i
        let r := Run.stateAt reference (restored base seen) numbers i
        r.base = w.base.toNat ∧
          (∀ n : UInt64, r.base ≤ n.toNat → n.toNat < r.base + 32 →
            (w.isSeen n ↔ n.toNat ∈ r.accepted)) ∧
          ∀ n e, (w.markSeen n).2 = .error e → (w.markSeen n).1 = w := by
  have hmatch (w : Window) (r : Reordering) (n : UInt64) (h : Holds w r) (hfar : w.FarFromLast) :
      Holds (w.markSeen n).1 (reference r n).1 ∧ (w.markSeen n).2 = (reference r n).2 :=
    holds_markSeen h hfar n
  obtain ⟨houtputs, hholds⟩ := hfar.simulates hmatch (holds_restored base seen)
  refine ⟨houtputs, fun i => ⟨(hholds i).base_eq, fun n hle _ => (hholds i).isSeen_iff hle, ?_⟩⟩
  exact fun n e => fst_markSeen_of_error

/-- A window that is restored with a gap in it, and then slides over it. -/
theorem refines_reference_gap :
    Run.outputs markSeen (restore 7 0b100110) [8, 7, 40, 12] =
      Run.outputs reference (restored 7 0b100110) [8, 7, 40, 12] := by
  refine (refines_reference 7 0b100110 [8, 7, 40, 12] ?_).1
  refine ⟨?_, ?_, ?_, ?_, trivial⟩ <;> unfold FarFromLast <;> decide +kernel

/-! ## Streams that were overtaken -/

/-- The numbers that a run of calls accepts, in order. -/
def recognised (w : Window) (numbers : List UInt64) : List UInt64 :=
  ((numbers.zip (Run.outputs markSeen w numbers)).filter (·.2.isOk)).map Prod.fst

theorem mem_recognised_cons {numbers : List UInt64} {m : UInt64} :
    m ∈ recognised w (n :: numbers) ↔
      (w.markSeen n).2.isOk ∧ m = n ∨ m ∈ recognised (w.markSeen n).1 numbers := by
  by_cases hok : (w.markSeen n).2.isOk <;> simp [recognised, hok]

/-- The window holds what a receiver remembers that started with nothing, and whose numbers are
small. -/
structure Small (w : Window) (r : Reordering) : Prop where
  holds : w.Holds r
  tight : r.Tight 16
  accepted_lt : ∀ a ∈ r.accepted, a < 2 ^ 63

theorem restored_zero : restored 0 0 = .start := by simp [restored, Reordering.start]

theorem small_new : new.Small .start where
  holds := restored_zero ▸ holds_restored 0 0
  tight := Reordering.tight_start
  accepted_lt := by simp [Reordering.start]

theorem Small.farFromLast (h : w.Small r) : w.FarFromLast := by
  have hle := h.tight.base_le h.accepted_lt
  rw [h.holds.base_eq] at hle
  rw [FarFromLast, UInt64.toNat_last]
  omega

theorem mem_accepted_reference (r : Reordering) (n : UInt64) (m : Nat) :
    m ∈ (reference r n).1.accepted ↔ m ∈ r.accepted ∨ (reference r n).2.isOk ∧ m = n.toNat := by
  have hanswer : (reference r n).2.isOk ↔ (r.offer 32 16 n.toNat).2 = .ok () := by
    rw [reference]
    dsimp only
    generalize (r.offer 32 16 n.toNat).2 = answer
    cases answer <;> simp [Except.mapError, Except.isOk, Except.toBool]
  rw [hanswer, reference]
  dsimp only
  rw [Reordering.accepted_offer]
  split_ifs with hok
  · rw [Set.mem_insert_iff, and_iff_right hok, or_comm]
  · simp [hok]

theorem Small.markSeen (h : w.Small r) (hn : n.toNat < 2 ^ 63) :
    (w.markSeen n).1.Small (reference r n).1 where
  holds := (holds_markSeen h.holds h.farFromLast n).1
  tight := Reordering.tight_offer h.tight n.toNat
  accepted_lt a ha := by
    rcases (mem_accepted_reference r n a).mp ha with ha | ⟨-, rfl⟩
    · exact h.accepted_lt a ha
    · exact hn

/-- After a run the receiver remembers what it did before, and what the window accepted. -/
theorem Small.run {numbers : List UInt64} (h : w.Small r)
    (hsmall : ∀ n ∈ numbers, n.toNat < 2 ^ 63) :
    (Run.final Window.markSeen w numbers).Small (Run.final reference r numbers) ∧
      ∀ m : UInt64, m.toNat ∈ (Run.final reference r numbers).accepted ↔
        m.toNat ∈ r.accepted ∨ m ∈ recognised w numbers := by
  induction numbers generalizing w r with
  | nil => exact ⟨h, fun m => by simp [recognised]⟩
  | cons n numbers ih =>
    rw [List.forall_mem_cons] at hsmall
    obtain ⟨hfinal, haccepted⟩ := ih (h.markSeen hsmall.1) hsmall.2
    refine ⟨hfinal, fun m => ?_⟩
    rw [Run.final_cons, haccepted, mem_accepted_reference, mem_recognised_cons,
      (holds_markSeen h.holds h.farFromLast n).2, UInt64.toNat_inj, or_assoc]

/-- The window recognises a new number that nothing overtook by far, and that is not itself far
ahead. -/
theorem markSeen_of_recognised {numbers : List UInt64} {m : UInt64}
    (hsmall : ∀ n ∈ numbers, n.toNat < 2 ^ 63) (hnew : m ∉ recognised new numbers)
    (hlow : ∀ n ∈ recognised new numbers, n.toNat < m.toNat + 16)
    (hhigh : m.toNat < 32 ∨ ∃ n ∈ recognised new numbers, m.toNat ≤ n.toNat + 16) :
    ((Run.final markSeen new numbers).markSeen m).2 = .ok () := by
  obtain ⟨hfinal, haccepted⟩ := small_new.run hsmall
  have hmem (n : UInt64) : n.toNat ∈ (Run.final reference .start numbers).accepted ↔
      n ∈ recognised new numbers := by
    rw [haccepted]
    exact or_iff_right (Set.notMem_empty _)
  have hword {a : Nat} (ha : a ∈ (Run.final reference .start numbers).accepted) :
      (UInt64.ofNat a).toNat = a := by
    have hlt := hfinal.accepted_lt a ha
    exact UInt64.toNat_ofNat_of_lt' (hlt.trans (by decide))
  rw [(holds_markSeen hfinal.holds hfinal.farFromLast m).2, reference]
  dsimp only
  rw [Reordering.offer_of_tight (by decide) hfinal.tight ((hmem m).not.mpr hnew)]
  · rfl
  · intro a ha
    have hmost := hlow (UInt64.ofNat a) ((hmem _).mp (by rwa [hword ha]))
    rwa [hword ha] at hmost
  · refine hhigh.imp_right ?_
    rintro ⟨n, hn, hle⟩
    exact ⟨n.toNat, (hmem n).mpr hn, hle⟩

/-- Moderate reordering loses no stream. A number that is not accepted yet is accepted next if it is
no more than 15 below the largest one that was and no more than 16 above it, and before anything was
accepted if it is below 32. So a stream that was overtaken by no more than 15 is recognised. -/
theorem keeps_overtaken (numbers : List UInt64) (hsmall : ∀ n ∈ numbers, n.toNat < 2 ^ 63)
    (m : UInt64) (hnew : m ∉ recognised new numbers) :
    (∀ largest ∈ recognised new numbers, (∀ n ∈ recognised new numbers, n ≤ largest) →
      largest.toNat ≤ m.toNat + 15 → m.toNat ≤ largest.toNat + 16 →
        ((Run.final markSeen new numbers).markSeen m).2 = .ok ()) ∧
    (recognised new numbers = [] → m.toNat < 32 →
      ((Run.final markSeen new numbers).markSeen m).2 = .ok ()) ∧
    ((∃ later ∈ recognised new numbers, m < later) →
      (∀ later ∈ recognised new numbers, later.toNat ≤ m.toNat + 15) →
        ((Run.final markSeen new numbers).markSeen m).2 = .ok ()) := by
  refine ⟨fun largest hlargest hmax hlow hhigh => ?_, fun hnone hlt => ?_, ?_⟩
  · refine markSeen_of_recognised hsmall hnew (fun n hn => ?_) (.inr ⟨largest, hlargest, hhigh⟩)
    have hle := UInt64.le_iff_toNat_le.mp (hmax n hn)
    omega
  · exact markSeen_of_recognised hsmall hnew (by simp [hnone]) (.inl hlt)
  · rintro ⟨later, hlater, hlt⟩ hall
    rw [UInt64.lt_iff_toNat_lt] at hlt
    exact markSeen_of_recognised hsmall hnew (fun n hn => Nat.lt_succ_of_le (hall n hn))
      (.inr ⟨later, hlater, by omega⟩)

/-- The first stream comes last, when a later one is 15 ahead. -/
theorem keeps_overtaken_first :
    ((Run.final markSeen new [15, 3, 15]).markSeen 0).2 = .ok () := by
  have hrecognised : recognised new [15, 3, 15] = [15, 3] := by decide +kernel
  obtain ⟨hlargest, -⟩ := keeps_overtaken [15, 3, 15] (by simp) 0 (by simp [hrecognised])
  rw [hrecognised] at hlargest
  exact hlargest 15 (by simp) (by simp) (by decide) (by decide)

end Window

end Onestein.Transport
