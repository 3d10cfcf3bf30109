import Mathlib

/-!
# Runs of a deterministic system

A system takes an input in a state and goes to a new state with an output. A run feeds it a
list of inputs.

## Main definitions

* `Run.final` and `Run.outputs` — where a run ends and what it says on the way.
* `Run.stateAt` — the state before the input at an index.
* `Run.Steps` — a condition on every step of a run, in the state the step is taken from.
* `Run.Since` — something happened in a run, and something else has not happened since.

## Main results

* `Run.invariant` — what every step preserves, every run preserves.
* `Run.Steps.invariant` — the same under a condition on the steps.
* `Run.forall_stateAt_iff_steps` — an invariant that holds exactly under a condition on the steps.
* `Run.Steps.simulates` — where each step is matched by one of another system, so is every run.
* `Run.exists_origin`, `Run.flag_iff_since` — what a state holds was put there, and not taken away
  since.
* `Run.filter_related`, `Run.filter_related_at` — leaving out inputs that do not matter.
* `Run.nodup_of_remembers` — a system that remembers what it emitted emits nothing twice.
-/

namespace Run

variable {σ ι ω α : Type*} (step : σ → ι → σ × ω)

/-- The state a run ends in. -/
def final : σ → List ι → σ
  | s, [] => s
  | s, i :: is => final (step s i).1 is

/-- The outputs of a run, in order. -/
def outputs : σ → List ι → List ω
  | _, [] => []
  | s, i :: is => (step s i).2 :: outputs (step s i).1 is

/-- The state a run is in after its first `n` inputs. -/
def stateAt (s : σ) (is : List ι) (n : Nat) : σ := final step s (is.take n)

/-- Every step of a run meets the condition. -/
def Steps (P : σ → ι → Prop) : σ → List ι → Prop
  | _, [] => True
  | s, i :: is => P s i ∧ Steps P (step s i).1 is

variable {step} {s : σ} {i : ι} {is : List ι}

@[simp] theorem final_nil : final step s [] = s := rfl
@[simp] theorem final_cons : final step s (i :: is) = final step (step s i).1 is := rfl
@[simp] theorem outputs_nil : outputs step s [] = [] := rfl

@[simp] theorem outputs_cons :
    outputs step s (i :: is) = (step s i).2 :: outputs step (step s i).1 is := rfl

theorem length_outputs (s : σ) (is : List ι) : (outputs step s is).length = is.length := by
  induction is generalizing s with
  | nil => rfl
  | cons i is ih => rw [outputs_cons, List.length_cons, List.length_cons, ih]

theorem final_append (is js : List ι) :
    final step s (is ++ js) = final step (final step s is) js := by
  induction is generalizing s with
  | nil => rfl
  | cons i is ih => exact ih

@[simp] theorem stateAt_zero : stateAt step s is 0 = s := rfl

theorem stateAt_succ {n : Nat} (h : is[n]? = some i) :
    stateAt step s is (n + 1) = (step (stateAt step s is n) i).1 := by
  rw [stateAt, List.take_add_one, h, Option.toList_some, final_append]
  rfl

theorem stateAt_succ_of_none {n : Nat} (h : is[n]? = none) :
    stateAt step s is (n + 1) = stateAt step s is n := by
  rw [stateAt, List.take_add_one, h, Option.toList_none, List.append_nil]
  rfl

/-- The output at an index is the one given in the state before it. -/
theorem outputs_getElem? {n : Nat} (h : is[n]? = some i) :
    (outputs step s is)[n]? = some (step (stateAt step s is n) i).2 := by
  induction is generalizing s n with
  | nil => simp at h
  | cons j is ih =>
    cases n with
    | zero =>
      obtain rfl : j = i := by simpa using h
      rfl
    | succ n => exact ih (by simpa using h)

/-- What is said at an index is said to the input there. -/
theorem exists_of_outputs {n : Nat} {o : ω} (h : (outputs step s is)[n]? = some o) :
    ∃ i, is[n]? = some i ∧ (step (stateAt step s is n) i).2 = o := by
  have hlt : n < is.length := by
    rw [← length_outputs s is]
    exact (List.getElem?_eq_some_iff.mp h).1
  have hi := List.getElem?_eq_getElem hlt
  exact ⟨is[n], hi, Option.some.inj ((outputs_getElem? hi).symm.trans h)⟩

/-- What is said to an input is what a step on it says. -/
theorem of_mem_zip_outputs {o : ω} (h : (i, o) ∈ is.zip (outputs step s is)) :
    ∃ s', o = (step s' i).2 := by
  induction is generalizing s with
  | nil => simp at h
  | cons j is ih =>
    rw [outputs_cons, List.zip_cons_cons, List.mem_cons] at h
    obtain hfirst | hrest := h
    · obtain ⟨rfl, rfl⟩ := Prod.mk.inj hfirst
      exact ⟨s, rfl⟩
    · exact ih hrest

/-- What every step preserves holds at the end of a run. -/
theorem invariant {I : σ → Prop} (hstep : ∀ s i, I s → I (step s i).1) (hs : I s)
    (is : List ι) : I (final step s is) := by
  induction is generalizing s with
  | nil => exact hs
  | cons i is ih => exact ih (hstep s i hs)

theorem Steps.of_forall {P : σ → ι → Prop} (h : ∀ i ∈ is, ∀ s, P s i) : Steps step P s is := by
  induction is generalizing s with
  | nil => exact trivial
  | cons i is ih =>
    exact ⟨h i List.mem_cons_self s, ih fun j hj => h j (List.mem_cons_of_mem _ hj)⟩

/-- The condition on every step, at an index. -/
theorem Steps.getElem? {P : σ → ι → Prop} (h : Steps step P s is) {n : Nat}
    (hi : is[n]? = some i) : P (stateAt step s is n) i := by
  induction is generalizing s n with
  | nil => simp at hi
  | cons j is ih =>
    cases n with
    | zero =>
      obtain rfl : j = i := by simpa using hi
      exact h.1
    | succ n => exact ih h.2 (by simpa using hi)

/-- What a step keeps under a condition, a run whose steps all meet the condition keeps. -/
theorem Steps.invariant {I : σ → Prop} {P : σ → ι → Prop}
    (hstep : ∀ s i, I s → P s i → I (step s i).1) (hs : I s) (h : Steps step P s is) (n : Nat) :
    I (stateAt step s is n) := by
  induction is generalizing s n with
  | nil => simpa [stateAt] using hs
  | cons i is ih =>
    obtain ⟨hi, hrest⟩ := h
    cases n with
    | zero => exact hs
    | succ n => exact ih (hstep s i hs hi) hrest n

/-- What a step keeps under a condition and under no other, every state of a run has exactly if all
its steps meet the condition. -/
theorem forall_stateAt_iff_steps {I : σ → Prop} {P : σ → ι → Prop}
    (hstep : ∀ s i, I s → (I (step s i).1 ↔ P s i)) (hs : I s) (is : List ι) :
    (∀ n, I (stateAt step s is n)) ↔ Steps step P s is := by
  induction is generalizing s with
  | nil => simpa [stateAt, Steps] using hs
  | cons i is ih =>
    have hsplit : (∀ n, I (stateAt step s (i :: is) n)) ↔
        I s ∧ ∀ n, I (stateAt step (step s i).1 is n) :=
      ⟨fun h => ⟨h 0, fun n => h (n + 1)⟩, fun h n => n.casesOn h.1 h.2⟩
    rw [hsplit, and_iff_right hs, Steps]
    constructor
    · intro h
      exact ⟨(hstep s i hs).mp (h 0), (ih (h 0)).mp h⟩
    · rintro ⟨hi, hrest⟩
      exact (ih ((hstep s i hs).mpr hi)).mpr hrest

/-- Where each step that meets a condition is matched by a step of another system, a run of such
steps is matched by the run of the other system on the same inputs. -/
theorem Steps.simulates {σ' : Type*} {step' : σ' → ι → σ' × ω} {R : σ → σ' → Prop}
    {P : σ → ι → Prop} (hstep : ∀ s s' i, R s s' → P s i →
      R (step s i).1 (step' s' i).1 ∧ (step s i).2 = (step' s' i).2)
    {s' : σ'} (hs : R s s') (h : Steps step P s is) :
    outputs step s is = outputs step' s' is ∧
      ∀ n, R (stateAt step s is n) (stateAt step' s' is n) := by
  induction is generalizing s s' with
  | nil => exact ⟨rfl, fun n => by simpa [stateAt] using hs⟩
  | cons i is ih =>
    obtain ⟨hi, hrest⟩ := h
    obtain ⟨hnext, hsame⟩ := hstep s s' i hs hi
    obtain ⟨hsaid, hstate⟩ := ih hnext hrest
    refine ⟨by rw [outputs_cons, outputs_cons, hsame, hsaid], fun n => ?_⟩
    cases n with
    | zero => exact hs
    | succ n => exact hstate n

/-- What every step from a state of the invariant says holds of all that a run says. -/
theorem forall_outputs {I : σ → Prop} {Q : ω → Prop} (hstep : ∀ s i, I s → I (step s i).1)
    (hout : ∀ s i, I s → Q (step s i).2) (hs : I s) (is : List ι) :
    ∀ output ∈ outputs step s is, Q output := by
  induction is generalizing s with
  | nil => simp
  | cons i is ih => exact List.forall_mem_cons.mpr ⟨hout s i hs, ih (hstep s i hs)⟩

section Since

variable {P L : σ → ι → Prop}

/-- Before step `n` a step of the run met `P`, and since then none met `L`. -/
def Since (step : σ → ι → σ × ω) (P L : σ → ι → Prop) (s : σ) (is : List ι) (n : Nat) : Prop :=
  ∃ m i, m < n ∧ is[m]? = some i ∧ P (stateAt step s is m) i ∧
    ∀ l j, m < l → l < n → is[l]? = some j → ¬ L (stateAt step s is l) j

theorem not_since_zero : ¬ Since step P L s is 0 := by
  rintro ⟨m, i, hm, -⟩
  exact Nat.not_lt_zero m hm

theorem since_succ {n : Nat} (hi : is[n]? = some i) :
    Since step P L s is (n + 1) ↔
      P (stateAt step s is n) i ∨ Since step P L s is n ∧ ¬ L (stateAt step s is n) i := by
  constructor
  · rintro ⟨m, j, hm, hj, hp, hkeep⟩
    by_cases hmn : m = n
    · subst hmn
      obtain rfl := Option.some.inj (hi.symm.trans hj)
      exact .inl hp
    · refine .inr ⟨⟨m, j, by omega, hj, hp, fun l k hml hl => hkeep l k hml (by omega)⟩, ?_⟩
      exact hkeep n i (by omega) (Nat.lt_succ_self n) hi
  · rintro (hp | ⟨⟨m, j, hm, hj, hp, hkeep⟩, hl⟩)
    · exact ⟨n, i, Nat.lt_succ_self n, hi, hp, fun l j hml hl => by omega⟩
    · refine ⟨m, j, by omega, hj, hp, fun l k hml hln hk => ?_⟩
      by_cases hlast : l = n
      · subst hlast
        obtain rfl := Option.some.inj (hi.symm.trans hk)
        exact hl
      · exact hkeep l k hml (by omega) hk

theorem since_succ_of_none {n : Nat} (hi : is[n]? = none) :
    Since step P L s is (n + 1) ↔ Since step P L s is n := by
  constructor
  · rintro ⟨m, j, hm, hj, hp, hkeep⟩
    have hmn : m ≠ n := by
      rintro rfl
      simp [hi] at hj
    exact ⟨m, j, by omega, hj, hp, fun l k hml hl => hkeep l k hml (by omega)⟩
  · rintro ⟨m, j, hm, hj, hp, hkeep⟩
    refine ⟨m, j, by omega, hj, hp, fun l k hml hl hk => hkeep l k hml ?_ hk⟩
    have hln : l ≠ n := by
      rintro rfl
      simp [hi] at hk
    omega

/-- What a state holds and the first one did not was put there by a step, and no later one took it
away. -/
theorem exists_origin {H : σ → α → Prop} {P L : σ → ι → α → Prop}
    (hstep : ∀ s i a, H (step s i).1 a → P s i a ∨ H s a ∧ ¬ L s i a) {a : α}
    (hs : ¬ H s a) (n : Nat) (h : H (stateAt step s is n) a) :
    Since step (fun s i => P s i a) (fun s i => L s i a) s is n := by
  induction n with
  | zero => exact absurd h hs
  | succ n ih =>
    cases hi : is[n]? with
    | none =>
      rw [stateAt_succ_of_none hi] at h
      exact (since_succ_of_none hi).mpr (ih h)
    | some i =>
      rw [stateAt_succ hi] at h
      exact (since_succ hi).mpr ((hstep _ i a h).imp_right (And.imp_left ih))

/-- A flag that every step sets, clears or leaves, and that is down at first, is up exactly if it
was set and not cleared since. -/
theorem flag_iff_since {F : σ → Prop}
    (hstep : ∀ s i, F (step s i).1 ↔ P s i ∨ F s ∧ ¬ L s i) (hs : ¬ F s) (n : Nat) :
    F (stateAt step s is n) ↔ Since step P L s is n := by
  induction n with
  | zero => exact iff_of_false hs not_since_zero
  | succ n ih =>
    cases hi : is[n]? with
    | none => rw [stateAt_succ_of_none hi, since_succ_of_none hi, ih]
    | some i => rw [stateAt_succ hi, since_succ hi, hstep, ih]

end Since

section Remembers

variable {P : σ → ι → Prop} {emit : ω → Option α}

/-- What is in the past of a state stays there and is never emitted. -/
theorem not_mem_of_past (Past : σ → α → Prop)
    (hkeep : ∀ s i a, P s i → Past s a → Past (step s i).1 a)
    (hnew : ∀ s i a, P s i → emit (step s i).2 = some a → ¬ Past s a)
    (hrun : Steps step P s is) {a : α} (ha : Past s a) :
    a ∉ (outputs step s is).filterMap emit := by
  induction is generalizing s with
  | nil => simp
  | cons i is ih =>
    obtain ⟨hi, hrun⟩ := hrun
    intro hmem
    rw [outputs_cons, List.filterMap_cons] at hmem
    have hrest := ih hrun (hkeep s i a hi ha)
    cases hemit : emit (step s i).2 with
    | none => exact hrest (by simpa [hemit] using hmem)
    | some b =>
      rcases (by simpa [hemit] using hmem : a = b ∨ _) with rfl | hmem
      · exact hnew s i a hi hemit ha
      · exact hrest (by simpa using hmem)

/-- A system that puts what it emits into its past, and emits nothing that is there already,
emits nothing twice. -/
theorem nodup_of_remembers (Past : σ → α → Prop)
    (hkeep : ∀ s i a, P s i → Past s a → Past (step s i).1 a)
    (hnew : ∀ s i a, P s i → emit (step s i).2 = some a → ¬ Past s a)
    (hput : ∀ s i a, P s i → emit (step s i).2 = some a → Past (step s i).1 a)
    (hrun : Steps step P s is) : ((outputs step s is).filterMap emit).Nodup := by
  induction is generalizing s with
  | nil => simp
  | cons i is ih =>
    obtain ⟨hi, hrun⟩ := hrun
    rw [outputs_cons, List.filterMap_cons]
    cases hemit : emit (step s i).2 with
    | none => exact ih hrun
    | some a =>
      exact List.nodup_cons.mpr
        ⟨not_mem_of_past Past hkeep hnew hrun (hput s i a hi hemit), ih hrun⟩

end Remembers

section Purging

variable {R : σ → σ → Prop} {keep : ι → Bool}

/-- Where an input that is kept acts alike on related states and one that is not stays within the
relation, leaving out all that is not kept ends in a related state and says the same for the
rest. -/
theorem filter_related
    (hkeep : ∀ s s' i, keep i → R s s' →
      R (step s i).1 (step s' i).1 ∧ (step s i).2 = (step s' i).2)
    (hleave : ∀ s s' i, keep i = false → R s s' → R (step s i).1 s')
    {s s' : σ} (hs : R s s') (is : List ι) :
    R (final step s is) (final step s' (is.filter keep)) ∧
      (is.zip (outputs step s is)).filter (fun said => keep said.1) =
        (is.filter keep).zip (outputs step s' (is.filter keep)) := by
  induction is generalizing s s' with
  | nil => exact ⟨hs, rfl⟩
  | cons i is ih =>
    by_cases hi : keep i
    · obtain ⟨hnext, hsame⟩ := hkeep s s' i hi hs
      obtain ⟨hfinal, hsaid⟩ := ih hnext
      rw [List.filter_cons_of_pos hi]
      refine ⟨hfinal, ?_⟩
      simp [hi, hsaid, hsame]
    · obtain ⟨hfinal, hsaid⟩ := ih (hleave s s' i (by simpa using hi) hs)
      rw [List.filter_cons_of_neg hi]
      refine ⟨hfinal, ?_⟩
      simp [hi, hsaid]

/-- The same under a clock that never goes back, where the relation at a time holds at every later
one. -/
theorem filter_related_at {τ : Type*} [LE τ] {clock : ι → τ} {R : τ → σ → σ → Prop}
    (hkeep : ∀ t s s' i, keep i → t ≤ clock i → R t s s' →
      R (clock i) (step s i).1 (step s' i).1 ∧ (step s i).2 = (step s' i).2)
    (hleave : ∀ t s s' i, keep i = false → t ≤ clock i → R t s s' → R (clock i) (step s i).1 s')
    {t : τ} {s s' : σ} (hs : R t s s') (is : List ι)
    (hmono : (is.map clock).Pairwise (· ≤ ·)) (hlater : ∀ i ∈ is, t ≤ clock i) :
    (∃ t', (t' = t ∨ ∃ i ∈ is, t' = clock i) ∧
        R t' (final step s is) (final step s' (is.filter keep))) ∧
      (is.zip (outputs step s is)).filter (fun said => keep said.1) =
        (is.filter keep).zip (outputs step s' (is.filter keep)) := by
  induction is generalizing t s s' with
  | nil => exact ⟨⟨t, .inl rfl, hs⟩, rfl⟩
  | cons i is ih =>
    obtain ⟨hfirst, hrest⟩ := List.pairwise_cons.mp hmono
    have hi := hlater i List.mem_cons_self
    have hlater' : ∀ j ∈ is, clock i ≤ clock j := fun j hj =>
      hfirst _ (List.mem_map_of_mem hj)
    have hwhen {t' : τ} (h : t' = clock i ∨ ∃ j ∈ is, t' = clock j) :
        t' = t ∨ ∃ j ∈ i :: is, t' = clock j := by
      obtain rfl | ⟨j, hj, rfl⟩ := h
      · exact .inr ⟨i, List.mem_cons_self, rfl⟩
      · exact .inr ⟨j, List.mem_cons_of_mem _ hj, rfl⟩
    by_cases hk : keep i
    · obtain ⟨hnext, hsame⟩ := hkeep t s s' i hk hi hs
      obtain ⟨⟨t', ht', hfinal⟩, hsaid⟩ := ih hnext hrest hlater'
      rw [List.filter_cons_of_pos hk]
      refine ⟨⟨t', hwhen ht', hfinal⟩, ?_⟩
      simp [hk, hsaid, hsame]
    · obtain ⟨⟨t', ht', hfinal⟩, hsaid⟩ :=
        ih (hleave t s s' i (by simpa using hk) hi hs) hrest hlater'
      rw [List.filter_cons_of_neg hk]
      refine ⟨⟨t', hwhen ht', hfinal⟩, ?_⟩
      simp [hk, hsaid]

end Purging

end Run
