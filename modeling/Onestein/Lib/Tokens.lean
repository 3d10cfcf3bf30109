import Onestein.Lib.Run

/-!
# One-time tokens

Slots hold tokens. A step may put a token into one slot, over what is there, and a step may
take the token out of one slot. Every token that is taken is then matched with the step that
put it, and no two takings are matched with one putting.

## Main definitions

* `Slots` — a system with slots.

## Main results

* `Slots.exists_matching` — takings are matched with distinct earlier puttings.
-/

namespace Run

variable {σ ι ω : Type*} {step : σ → ι → σ × ω}

/-- Slots of a system, with what its steps do to them. -/
structure Slots (step : σ → ι → σ × ω) (κ τ : Type*) where
  /-- What a slot holds. -/
  slot : σ → κ → Option τ
  /-- The step puts a token into a slot. -/
  Puts : σ → ι → κ → τ → Prop
  /-- The step takes what is in a slot. -/
  Takes : σ → ι → κ → Prop
  puts_unique : ∀ {s s' i k k' t t'}, Puts s i k t → Puts s' i k' t' → k = k'
  takes_unique : ∀ {s s' i k k'}, Takes s i k → Takes s' i k' → k = k'
  slot_step : ∀ {s i k t}, slot (step s i).1 k = some t →
    Puts s i k t ∨ slot s k = some t ∧ ¬ Takes s i k

namespace Slots

variable {κ τ : Type*} (S : Slots step κ τ) {s : σ} {is : List ι}

/-- What a slot holds was put there by an earlier step, and not taken since. -/
theorem exists_origin (hs : ∀ k, S.slot s k = none) (n : Nat) {k : κ} {t : τ}
    (h : S.slot (stateAt step s is n) k = some t) :
    ∃ m i, m < n ∧ is[m]? = some i ∧ S.Puts (stateAt step s is m) i k t ∧
      ∀ l j, m < l → l < n → is[l]? = some j → ¬ S.Takes (stateAt step s is l) j k := by
  refine Run.exists_origin (H := fun s held => S.slot s held.1 = some held.2)
    (P := fun s i held => S.Puts s i held.1 held.2) (L := fun s i held => S.Takes s i held.1)
    (a := (k, t)) (fun _ _ _ => S.slot_step) ?_ n h
  simp [hs]

/-- The step at an index takes a token. -/
def TakesAt (s : σ) (is : List ι) (n : Nat) (k : κ) (t : τ) : Prop :=
  ∃ i, is[n]? = some i ∧ S.Takes (stateAt step s is n) i k ∧
    S.slot (stateAt step s is n) k = some t

/-- The step at an index puts a token. -/
def PutsAt (s : σ) (is : List ι) (n : Nat) (k : κ) (t : τ) : Prop :=
  ∃ i, is[n]? = some i ∧ S.Puts (stateAt step s is n) i k t

/-- Every taking of a token is matched with the step that put it, and no two with the same. -/
theorem exists_matching (hs : ∀ k, S.slot s k = none) :
    ∃ m : Nat → Nat, (∀ n k t, S.TakesAt s is n k t → m n < n ∧ S.PutsAt s is (m n) k t) ∧
      Set.InjOn m {n | ∃ k t, S.TakesAt s is n k t} := by
  classical
  have horigin (n : Nat) : ∃ m, ∀ k t, S.TakesAt s is n k t → m < n ∧ S.PutsAt s is m k t ∧
      ∀ l j, m < l → l < n → is[l]? = some j → ¬ S.Takes (stateAt step s is l) j k := by
    by_cases htakes : ∃ k t, S.TakesAt s is n k t
    · obtain ⟨k, t, i, hi, htake, hslot⟩ := htakes
      obtain ⟨m, i', hm, him, hput, hkeep⟩ := S.exists_origin hs n hslot
      refine ⟨m, ?_⟩
      rintro k' t' ⟨j, hj, htake', hslot'⟩
      obtain rfl := Option.some.inj (hi.symm.trans hj)
      obtain rfl := S.takes_unique htake htake'
      obtain rfl := Option.some.inj (hslot.symm.trans hslot')
      exact ⟨hm, ⟨i', him, hput⟩, hkeep⟩
    · exact ⟨0, fun k t h => absurd ⟨k, t, h⟩ htakes⟩
  choose m hm using horigin
  refine ⟨m, fun n k t h => ⟨(hm n k t h).1, (hm n k t h).2.1⟩, ?_⟩
  -- of two takings with one origin, the earlier one would have emptied the slot
  have hlt {n n' : Nat} {k k' : κ} {t t' : τ} (h : S.TakesAt s is n k t)
      (h' : S.TakesAt s is n' k' t') (heq : m n = m n') : ¬ n < n' := by
    intro hnn
    obtain ⟨hmn, ⟨i, hi, hput⟩, -⟩ := hm n k t h
    obtain ⟨-, ⟨i', hi', hput'⟩, hkeep⟩ := hm n' k' t' h'
    rw [← heq] at hi' hput' hkeep
    obtain rfl := Option.some.inj (hi.symm.trans hi')
    obtain rfl := S.puts_unique hput hput'
    obtain ⟨j, hj, htake, -⟩ := h
    exact hkeep n j hmn hnn hj htake
  rintro n ⟨k, t, h⟩ n' ⟨k', t', h'⟩ heq
  have := hlt h h' heq
  have := hlt h' h heq.symm
  omega

end Slots

end Run
