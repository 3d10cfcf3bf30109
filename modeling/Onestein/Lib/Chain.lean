import Mathlib

/-!
# Chains of derivations

A key is derived from a root by one input and then, key by key, by others. Where the derivations on
the way have no collision and the first input is of a kind that no other one is of, the key fixes
the whole chain: its length, its root and every input.

## Main definitions

* `Chain.reached` — the key that a chain ends in.
* `Chain.uses` — the keys and inputs of the derivations on the way.

## Main results

* `Chain.reached_injective` — chains to the same key are the same.
-/

namespace Chain

variable {κ ι : Type*} {derive : κ → ι → κ} {root root' : κ} {inputs inputs' : List ι}

/-- The key that a chain of inputs ends in. -/
def reached (derive : κ → ι → κ) (root : κ) (inputs : List ι) : κ := inputs.foldl derive root

/-- The keys and the inputs of the derivations of a chain. -/
def uses (derive : κ → ι → κ) : κ → List ι → List (κ × ι)
  | _, [] => []
  | root, input :: inputs => (root, input) :: uses derive (derive root input) inputs

@[simp] theorem reached_concat (input : ι) :
    reached derive root (inputs ++ [input]) = derive (reached derive root inputs) input := by
  simp [reached]

@[simp] theorem uses_concat (input : ι) : uses derive root (inputs ++ [input]) =
    uses derive root inputs ++ [(reached derive root inputs, input)] := by
  induction inputs generalizing root with
  | nil => rfl
  | cons first inputs ih => simp [uses, ih, reached]

/-- The first input of a chain, and none behind it, is of a kind. -/
def StartsOnly (kind : ι → Prop) (inputs : List ι) : Prop :=
  ∃ first rest, inputs = first :: rest ∧ kind first ∧ ∀ input ∈ rest, ¬ kind input

variable {kind : ι → Prop} {input : ι}

theorem not_startsOnly_nil : ¬ StartsOnly kind ([] : List ι) := by
  rintro ⟨first, rest, h, -⟩
  cases h

/-- A chain that is one input longer starts a chain, or starts as the shorter one does. -/
theorem startsOnly_concat : StartsOnly kind (inputs ++ [input]) ↔
    (inputs = [] ∧ kind input) ∨ StartsOnly kind inputs ∧ ¬ kind input := by
  cases inputs with
  | nil => simp [StartsOnly]
  | cons head tail => simp [StartsOnly]; grind

/-- Without collisions among the derivations on the way, chains to the same key are the same. -/
theorem reached_injective {among : Set (κ × ι)}
    (hcollision : Set.InjOn (fun use : κ × ι => derive use.1 use.2) among)
    (huses : ∀ use ∈ uses derive root inputs, use ∈ among)
    (huses' : ∀ use ∈ uses derive root' inputs', use ∈ among)
    (hstart : StartsOnly kind inputs) (hstart' : StartsOnly kind inputs')
    (h : reached derive root inputs = reached derive root' inputs') :
    root = root' ∧ inputs = inputs' := by
  induction inputs using List.reverseRecOn generalizing inputs' with
  | nil => exact absurd hstart not_startsOnly_nil
  | append_singleton inputs input ih =>
    cases inputs' using List.reverseRecOn with
    | nil => exact absurd hstart' not_startsOnly_nil
    | append_singleton inputs' input' =>
      simp only [uses_concat, List.forall_mem_append, List.forall_mem_singleton] at huses huses'
      rw [reached_concat, reached_concat] at h
      obtain ⟨hkey, rfl⟩ := Prod.mk.inj (hcollision huses.2 huses'.2 h)
      -- The last input is the first of both chains, or of neither.
      obtain ⟨rfl, hfirst⟩ | ⟨hstart, hlast⟩ := startsOnly_concat.mp hstart <;>
        obtain ⟨rfl, hfirst'⟩ | ⟨hstart', hlast'⟩ := startsOnly_concat.mp hstart'
      · exact ⟨hkey, rfl⟩
      · exact absurd hfirst hlast'
      · exact absurd hfirst' hlast
      · obtain ⟨rfl, rfl⟩ := ih huses.1 huses'.1 hstart hstart' hkey
        exact ⟨rfl, rfl⟩

end Chain
