import Mathlib

/-!
# Numbers that overtake each other

Numbered things arrive in another order than they were sent, and some of them more than once. A
receiver remembers every number it accepted, and a base that it accepts nothing below. The base goes
up to where there is room again above what was accepted.

## Main definitions

* `Reordering` — what a receiver remembers.
* `Reordering.offer` — a number is accepted, or refused for one of three reasons.
* `Reordering.Free` — a place where the base may be.

## Main results

* `Reordering.tight_offer` — from the start on, the base is the least place where it may be.
* `Reordering.offer_of_tight` — then a number that was not overtaken by far is accepted.
-/

/-- What a receiver remembers: a base that it accepts nothing below, and what it accepted. -/
structure Reordering where
  base : Nat
  accepted : Set Nat

namespace Reordering

/-- Why a number is not accepted: it is below the base, too far above it, or not new. -/
inductive Refusal where
  | passed
  | outside
  | seen
  deriving DecidableEq

/-- A place where the base may be: it is not accepted, and nothing that is lies far above it. -/
def Free (half : Nat) (accepted : Set Nat) (b : Nat) : Prop :=
  b ∉ accepted ∧ ∀ n ∈ accepted, n < b + half

/-- Nothing was accepted. -/
def start : Reordering := ⟨0, ∅⟩

open Classical in
/-- A new number within the width is accepted, and the base goes up to the next place that is
free. -/
noncomputable def offer (width half : Nat) (r : Reordering) (n : Nat) :
    Reordering × Except Refusal Unit :=
  if n < r.base then (r, .error .passed)
  else if r.base + width ≤ n then (r, .error .outside)
  else if n ∈ r.accepted then (r, .error .seen)
  else
    let accepted := insert n r.accepted
    (⟨sInf {b | r.base ≤ b ∧ Free half accepted b}, accepted⟩, .ok ())

/-- The base is the least place where it may be. -/
def Tight (half : Nat) (r : Reordering) : Prop := IsLeast {b | Free half r.accepted b} r.base

variable {width half : Nat} {r : Reordering} {n : Nat}

theorem Free.anti {accepted accepted' : Set Nat} {b : Nat} (hsub : accepted ⊆ accepted')
    (h : Free half accepted' b) : Free half accepted b :=
  ⟨fun hb => h.1 (hsub hb), fun a ha => h.2 a (hsub ha)⟩

/-- Above all that was accepted there is a free place. -/
theorem free_of_lt {accepted : Set Nat} {b : Nat} (h : ∀ a ∈ accepted, a < b) :
    Free half accepted b :=
  ⟨fun hb => Nat.lt_irrefl b (h b hb), fun a ha => Nat.lt_add_right half (h a ha)⟩

/-- Where what was accepted is bounded, there is a next place that is free. -/
theorem isLeast_free {accepted : Set Nat} (hbound : BddAbove accepted) (base : Nat) :
    IsLeast {b | base ≤ b ∧ Free half accepted b}
      (sInf {b | base ≤ b ∧ Free half accepted b}) := by
  obtain ⟨bound, hle⟩ := hbound
  have hfree : Free half accepted (base + bound + 1) :=
    free_of_lt fun a ha => (hle ha).trans_lt (by omega)
  exact ⟨Nat.sInf_mem ⟨_, by omega, hfree⟩, fun b hb => Nat.sInf_le hb⟩

theorem tight_start : Tight half start :=
  ⟨free_of_lt (by simp [start]), fun b _ => Nat.zero_le b⟩

theorem Tight.base_le {b : Nat} (h : Tight half r) (hb : ∀ a ∈ r.accepted, a < b) : r.base ≤ b :=
  h.2 (free_of_lt hb)

theorem Tight.bddAbove (h : Tight half r) : BddAbove r.accepted :=
  ⟨r.base + half, fun a ha => (h.1.2 a ha).le⟩

/-- What is offered keeps the base tight. -/
theorem tight_offer (h : Tight half r) (n : Nat) : Tight half (r.offer width half n).1 := by
  unfold offer
  split_ifs with hpassed houtside hseen
  · exact h
  · exact h
  · exact h
  · have hsame : {b | r.base ≤ b ∧ Free half (insert n r.accepted) b} =
        {b | Free half (insert n r.accepted) b} := by
      ext b
      exact and_iff_right_of_imp fun hb => h.2 (hb.anti (Set.subset_insert n r.accepted))
    have hleast : IsLeast {b | r.base ≤ b ∧ Free half (insert n r.accepted) b} _ :=
      isLeast_free (h.bddAbove.insert n) r.base
    rw [hsame] at hleast
    rw [Tight]
    dsimp only
    rwa [hsame]

/-- A number that is new, that nothing overtook by far and that is not itself far ahead, is
accepted. -/
theorem offer_of_tight (hwidth : 2 * half ≤ width) (h : Tight half r) (hnew : n ∉ r.accepted)
    (hlow : ∀ a ∈ r.accepted, a < n + half)
    (hhigh : n < width ∨ ∃ a ∈ r.accepted, n ≤ a + half) :
    (r.offer width half n).2 = .ok () := by
  have hbase : r.base ≤ n := h.2 ⟨hnew, hlow⟩
  have hinside : n < r.base + width := by
    rcases hhigh with hn | ⟨a, ha, hn⟩
    · omega
    · have := h.1.2 a ha
      omega
  simp [offer, hbase.not_gt, hinside.not_ge, hnew]

/-- What is accepted is remembered beside what was. -/
theorem accepted_offer (r : Reordering) (n : Nat) :
    (r.offer width half n).1.accepted =
      if (r.offer width half n).2 = .ok () then insert n r.accepted else r.accepted := by
  unfold offer
  split_ifs <;> simp_all

end Reordering
