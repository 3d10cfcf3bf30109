import Mathlib

/-!
# Picking until nothing is left

A rule says what may be picked next, given what was picked before. Where having more never forbids
a pick, the order of the picks does not matter in the end.

## Main definitions

* `Saturation` — a rule that more picks never forbid.
* `Saturation.Run`, `Saturation.Maximal` — picking one after the other, and until nothing is left.
* `Saturation.step` — all that is enabled, as a monotone map of sets.

## Main results

* `Saturation.Maximal.mem_iff` — two maximal runs pick the same.
* `Saturation.Run.enabled` — what a run picks was enabled by what stands before it.
* `Saturation.Run.exists_maximal` — every run can be continued to a maximal one.
* `Saturation.Maximal.setOf_eq_lfp` — a maximal run picks the least fixed point.
* `exists_outside_or_cycle` — where each element has a successor, a path leaves or closes.
-/

/-- A rule for what may be picked next, which more picks never forbid. -/
structure Saturation (α : Type*) where
  Enabled : Set α → α → Prop
  mono : ∀ {s t a}, s ⊆ t → Enabled s a → Enabled t a

namespace Saturation

variable {α : Type*} (S : Saturation α)

/-- A run, in the order of its picks. Nothing is picked twice. -/
inductive Run : List α → Prop
  | nil : Run []
  | concat {picked : List α} {a : α} (h : Run picked) (hnew : a ∉ picked)
      (henabled : S.Enabled {b | b ∈ picked} a) : Run (picked ++ [a])

/-- A run after which nothing is left to pick. -/
def Maximal (picked : List α) : Prop :=
  S.Run picked ∧ ∀ a ∉ picked, ¬ S.Enabled {b | b ∈ picked} a

variable {S} {a : α} {picked other : List α}

theorem run_concat :
    S.Run (picked ++ [a]) ↔ S.Run picked ∧ a ∉ picked ∧ S.Enabled {b | b ∈ picked} a := by
  constructor
  · intro h
    generalize hall : picked ++ [a] = all at h
    cases h with
    | nil => simp at hall
    | concat h hnew henabled =>
      obtain ⟨rfl, hlast⟩ := List.append_inj' hall rfl
      obtain rfl := List.singleton_injective hlast
      exact ⟨h, hnew, henabled⟩
  · rintro ⟨h, hnew, henabled⟩
    exact .concat h hnew henabled

/-- A maximal run has picked whatever any run picks. -/
theorem Run.subset_maximal (h : S.Run picked) (hmax : S.Maximal other) : picked ⊆ other := by
  induction h with
  | nil => exact List.nil_subset other
  | @concat picked a h hnew henabled ih =>
    have ha : a ∈ other := by
      by_contra hmem
      exact hmax.2 a hmem (S.mono (fun b hb => ih hb) henabled)
    exact List.append_subset.mpr ⟨ih, by simpa using ha⟩

/-- Two maximal runs pick the same. -/
theorem Maximal.mem_iff (h : S.Maximal picked) (hmax : S.Maximal other) :
    a ∈ picked ↔ a ∈ other :=
  ⟨fun ha => h.1.subset_maximal hmax ha, fun ha => hmax.1.subset_maximal h ha⟩

/-- What a run picks was enabled by what stands before it. -/
theorem Run.enabled {before after : List α} (h : S.Run (before ++ a :: after)) :
    S.Enabled {b | b ∈ before} a := by
  induction after using List.reverseRecOn with
  | nil => exact (run_concat.mp h).2.2
  | append_singleton after b ih =>
    rw [← List.cons_append, ← List.append_assoc] at h
    exact ih (run_concat.mp h).1

/-- Where there is only so much to pick, every run can be continued to a maximal one. -/
theorem Run.exists_maximal (hfinite : {a | ∃ s, S.Enabled s a}.Finite) (h : S.Run picked) :
    ∃ rest, S.Maximal (picked ++ rest) := by
  classical
  -- what can still be picked gets less with every pick
  induction hn : (hfinite.toFinset \ picked.toFinset).card using Nat.strong_induction_on
    generalizing picked with
  | _ n ih =>
    by_cases hmax : ∀ a ∉ picked, ¬ S.Enabled {b | b ∈ picked} a
    · exact ⟨[], by rw [List.append_nil]; exact ⟨h, hmax⟩⟩
    · push Not at hmax
      obtain ⟨a, hnew, henabled⟩ := hmax
      have hless : hfinite.toFinset \ (picked ++ [a]).toFinset ⊂
          hfinite.toFinset \ picked.toFinset := by
        have hsubset : picked.toFinset ⊆ (picked ++ [a]).toFinset := by simp
        refine Finset.ssubset_iff_subset_ne.mpr
          ⟨Finset.sdiff_subset_sdiff subset_rfl hsubset, fun heq => ?_⟩
        have ha : a ∈ hfinite.toFinset \ picked.toFinset := by
          simpa [hnew] using ⟨_, henabled⟩
        simp [← heq] at ha
      obtain ⟨rest, hrest⟩ := ih _ (hn ▸ Finset.card_lt_card hless)
        (.concat h hnew henabled) rfl
      exact ⟨a :: rest, by simpa using hrest⟩

/-- All that is enabled by a set. -/
def step (S : Saturation α) : Set α →o Set α where
  toFun s := {a | S.Enabled s a}
  monotone' _ _ hst _ henabled := S.mono hst henabled

/-- What a run picks is in every set that holds all it enables. -/
theorem Run.subset_of_closed {s : Set α} (hclosed : S.step s ≤ s) (h : S.Run picked) :
    {b | b ∈ picked} ⊆ s := by
  induction h with
  | nil => simp
  | @concat picked a h hnew henabled ih =>
    intro b hb
    rcases List.mem_append.mp hb with hb | hb
    · exact ih hb
    · obtain rfl := List.mem_singleton.mp hb
      exact hclosed (S.mono ih henabled)

/-- A maximal run picks the least fixed point. -/
theorem Maximal.setOf_eq_lfp (h : S.Maximal picked) : {b | b ∈ picked} = S.step.lfp := by
  apply le_antisymm
  · exact h.1.subset_of_closed S.step.map_lfp.le
  · apply OrderHom.lfp_le
    intro a henabled
    by_contra hnew
    exact h.2 a hnew henabled

end Saturation

/-- Where every element of a set has a successor in it unless it lies outside of some finite set, a
path leaves the finite set or closes. -/
theorem exists_outside_or_cycle {α : Type*} {r : α → α → Prop} {s waiting : Set α} (hs : s.Finite)
    (hnext : ∀ a ∈ waiting, a ∈ s → ∃ b ∈ waiting, r a b) {a : α} (ha : a ∈ waiting) :
    ∃ b ∈ waiting, Relation.ReflTransGen r a b ∧ (b ∉ s ∨ Relation.TransGen r b b) := by
  by_contra! hnone
  let reached : Set α := {b | b ∈ waiting ∧ Relation.ReflTransGen r a b}
  have : Finite reached := (hs.subset fun b hb => (hnone b hb.1 hb.2).1).to_subtype
  let later (c b : reached) : Prop := Relation.TransGen r b.1 c.1
  have : IsTrans reached later := ⟨fun _ _ _ hab hbc => hbc.trans hab⟩
  have : Std.Irrefl later := ⟨fun b => (hnone b.1 b.2.1 b.2.2).2⟩
  -- The last element that is reached has a successor all the same.
  obtain ⟨⟨b, hb, hpath⟩, -, hlast⟩ := (Finite.wellFounded_of_trans_of_irrefl later).has_min
    Set.univ ⟨⟨a, ha, .refl⟩, trivial⟩
  obtain ⟨c, hc, hstep⟩ := hnext b hb (hnone b hb hpath).1
  exact hlast ⟨c, hc, hpath.tail hstep⟩ trivial (.single hstep)
