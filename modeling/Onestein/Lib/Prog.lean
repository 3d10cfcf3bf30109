import Mathlib

/-!
# Stateful programs with errors and fuel

A `Prog σ ε α` reads and updates a state `σ` and returns an `α` or an error. Loops are
defined on fuel, and `none` says that the fuel ran out: it is no outcome of the program
modelled, and a program is only run once it is known to halt. It also tells which calls of another
program a program makes: those without whose answers it has none.
-/

/-- A program over a state `σ` that may fail with an `ε` or run out of fuel. -/
def Prog (σ ε α : Type) := σ → Option (Except ε (α × σ))

namespace Prog

variable {σ ε α β : Type}

instance : Monad (Prog σ ε) where
  pure a s := some (.ok (a, s))
  bind x f s := match x s with
    | none => none
    | some (.error e) => some (.error e)
    | some (.ok (a, s')) => f a s'

/-- Stop with an error. -/
def fail (e : ε) : Prog σ ε α := fun _ => some (.error e)

/-- Stop because the fuel ran out. -/
def outOfFuel : Prog σ ε α := fun _ => none

/-- The current state. -/
def get : Prog σ ε σ := fun s => some (.ok (s, s))

/-- Replace the state. -/
def set (s : σ) : Prog σ ε Unit := fun _ => some (.ok ((), s))

/-- The program reaches an answer from `s`: a result or an error. -/
def Halts (x : Prog σ ε α) (s : σ) : Prop := x s ≠ none

@[simp] theorem pure_apply (a : α) (s : σ) : (pure a : Prog σ ε α) s = some (.ok (a, s)) := rfl
@[simp] theorem fail_apply (e : ε) (s : σ) : (fail e : Prog σ ε α) s = some (.error e) := rfl
@[simp] theorem outOfFuel_apply (s : σ) : (outOfFuel : Prog σ ε α) s = none := rfl
@[simp] theorem get_apply (s : σ) : (get : Prog σ ε σ) s = some (.ok (s, s)) := rfl
@[simp] theorem set_apply (s t : σ) : (set t : Prog σ ε Unit) s = some (.ok ((), t)) := rfl

theorem bind_of_ok {x : Prog σ ε α} {s s' : σ} {a : α} (h : x s = some (.ok (a, s')))
    (f : α → Prog σ ε β) : (x >>= f) s = f a s' := by
  simp [Bind.bind, h]

/-- A sequence stops where its first part does. -/
theorem bind_of_error {x : Prog σ ε α} {s : σ} {e : ε} (h : x s = some (.error e))
    (f : α → Prog σ ε β) : (x >>= f) s = some (.error e) := by
  simp [Bind.bind, h]

/-- A sequence returns exactly when both parts do. -/
theorem bind_eq_ok {x : Prog σ ε α} {f : α → Prog σ ε β} {s t : σ} {b : β} :
    (x >>= f) s = some (.ok (b, t)) ↔
      ∃ a s', x s = some (.ok (a, s')) ∧ f a s' = some (.ok (b, t)) := by
  simp only [Bind.bind]
  split
  case h_1 h => simp [h]
  case h_2 h => simp [h]
  case h_3 a s' h =>
    constructor
    · intro hf
      exact ⟨a, s', h, hf⟩
    · rintro ⟨a', s'', hx, hf⟩
      rw [h] at hx
      simp only [Option.some.injEq, Except.ok.injEq, Prod.mk.injEq] at hx
      obtain ⟨rfl, rfl⟩ := hx
      exact hf

/-- A sequence stops where its first part does, or where the rest does once that has returned. -/
theorem bind_eq_error {x : Prog σ ε α} {f : α → Prog σ ε β} {s : σ} {e : ε} :
    (x >>= f) s = some (.error e) ↔
      x s = some (.error e) ∨ ∃ a s', x s = some (.ok (a, s')) ∧ f a s' = some (.error e) := by
  simp only [Bind.bind]
  split
  case h_1 h => simp [h]
  case h_2 h => simp [h]
  case h_3 a s' h =>
    constructor
    · intro hf
      exact .inr ⟨a, s', h, hf⟩
    · intro hf
      obtain hx | ⟨a', s'', hx, hf⟩ := hf
      · simp [h] at hx
      · simp only [h, Option.some.injEq, Except.ok.injEq, Prod.mk.injEq] at hx
        obtain ⟨rfl, rfl⟩ := hx
        exact hf

/-- A guard that fails stops with its own error, one that holds with those of its program. -/
theorem ite_fail_eq_error {c : Prop} [Decidable c] {x : Prog σ ε α} {e e' : ε} {s : σ} :
    (if c then x else fail e) s = some (.error e') ↔
      c ∧ x s = some (.error e') ∨ ¬ c ∧ e = e' := by
  split <;> simp_all

/-- A guard that fails lets through only what its program returns. -/
theorem ite_fail_eq_ok {c : Prop} [Decidable c] {x : Prog σ ε α} {e : ε} {s t : σ} {a : α} :
    (if c then x else fail e) s = some (.ok (a, t)) ↔ c ∧ x s = some (.ok (a, t)) := by
  split <;> simp_all

/-- A sequence halts when its first part does and every continuation it reaches does. -/
theorem halts_bind {x : Prog σ ε α} {f : α → Prog σ ε β} {s : σ} (hx : x.Halts s)
    (hf : ∀ a s', x s = some (.ok (a, s')) → (f a).Halts s') : (x >>= f).Halts s := by
  unfold Halts at *
  simp only [Bind.bind]
  split
  case h_1 h => contradiction
  case h_2 => simp
  case h_3 a s' h => exact hf a s' h

/-- Behind a part that returns, a sequence halts when the rest does. -/
theorem halts_bind_of_ok {x : Prog σ ε α} {f : α → Prog σ ε β} {s s' : σ} {a : α}
    (hx : x s = some (.ok (a, s'))) (hf : (f a).Halts s') : (x >>= f).Halts s := by
  rwa [Halts, bind_of_ok hx]

@[simp] theorem halts_pure (a : α) (s : σ) : (pure a : Prog σ ε α).Halts s := by simp [Halts]
@[simp] theorem halts_fail (e : ε) (s : σ) : (fail e : Prog σ ε α).Halts s := by simp [Halts]
@[simp] theorem halts_get (s : σ) : (get : Prog σ ε σ).Halts s := by simp [Halts]
@[simp] theorem halts_set (s t : σ) : (set t : Prog σ ε Unit).Halts s := by simp [Halts]

theorem halts_ite_fail {c : Prop} [Decidable c] {x : Prog σ ε α} {e : ε} {s : σ}
    (h : c → x.Halts s) : (if c then x else fail e).Halts s := by
  split
  case isTrue hc => exact h hc
  case isFalse => exact halts_fail e s

/-- The answer of a program that halts, its final state forgotten. -/
def answer (x : Prog σ ε α) (s : σ) (h : x.Halts s) : Except ε α :=
  ((x s).get (Option.isSome_iff_ne_none.mpr h)).map Prod.fst

theorem answer_eq_map {x : Prog σ ε α} {s : σ} (h : x.Halts s) {o : Except ε (α × σ)}
    (ho : x s = some o) : x.answer s h = o.map Prod.fst := by
  simp [answer, ho]

theorem answer_eq_ok {x : Prog σ ε α} {s : σ} (h : x.Halts s) {a : α} :
    x.answer s h = .ok a ↔ ∃ s', x s = some (.ok (a, s')) := by
  obtain ⟨o, ho⟩ := Option.ne_none_iff_exists'.mp h
  rw [answer_eq_map h ho, ho]
  cases o <;> simp [Except.map, Prod.ext_iff]

/-! ## Running again and again -/

/-- `x` returns `count` times in a row, first from `s` and last in `t`. -/
inductive Repeated (x : Prog σ ε α) : Nat → σ → σ → Prop
  | zero (s : σ) : Repeated x 0 s s
  | succ {count : Nat} {s s' t : σ} {a : α} (hfirst : x s = some (.ok (a, s')))
      (hrest : Repeated x count s' t) : Repeated x (count + 1) s t

theorem Repeated.mono {x y : Prog σ ε α} {count : Nat} {s t : σ} (h : Repeated x count s t)
    (hxy : ∀ s o, x s = some o → y s = some o) : Repeated y count s t := by
  induction h with
  | zero s => exact zero s
  | succ hfirst _ ih => exact succ (hxy _ _ hfirst) ih

/-- What each return keeps is kept. -/
theorem Repeated.keeps {x : Prog σ ε α} {count : Nat} {s t : σ} {p : σ → Prop}
    (h : Repeated x count s t) (hkeep : ∀ s a s', x s = some (.ok (a, s')) → p s → p s')
    (hs : p s) : p t := by
  induction h with
  | zero s => exact hs
  | succ hfirst _ ih => exact ih (hkeep _ _ _ hfirst hs)

/-- What is lowered each time bounds how often a program returns. -/
theorem Repeated.add_le {x : Prog σ ε α} {count : Nat} {s t : σ} {measure : σ → Nat}
    (h : Repeated x count s t)
    (hlower : ∀ s a s', x s = some (.ok (a, s')) → measure s' < measure s) :
    count + measure t ≤ measure s := by
  induction h with
  | zero s => omega
  | succ hfirst _ ih =>
    have := hlower _ _ _ hfirst
    omega

/-! ## Calls -/

section Calls

variable {γ ι : Type} [DecidableEq ι] [DecidableEq σ] {x : ι → Prog σ ε α} {i j : ι} {s t : σ}

/-- `x`, but the call of `x i` in the state `s` has no answer. -/
def cut (x : ι → Prog σ ε α) (i : ι) (s : σ) : ι → Prog σ ε α := fun j t =>
  if j = i ∧ t = s then none else x j t

theorem cut_self : cut x i s i s = none := if_pos ⟨rfl, rfl⟩

theorem cut_of_ne (h : ¬ (j = i ∧ t = s)) : cut x i s j t = x j t := if_neg h

theorem eq_some_of_cut {o : Except ε (α × σ)} (h : cut x i s j t = some o) : x j t = some o := by
  unfold cut at h
  split at h
  case isTrue => cases h
  case isFalse => exact h

theorem halts_cut (h : (x j).Halts t) (hne : ¬ (j = i ∧ t = s)) : (cut x i s j).Halts t := by
  rwa [Halts, cut_of_ne hne]

/-- Started in `s`, what `f` makes of `x` calls `x i` in the state `t`: it has no answer once that
call has none, as a sequence has no answer when one of its parts has none. -/
def Calls (f : (ι → Prog σ ε α) → Prog σ ε β) (x : ι → Prog σ ε α) (s : σ) (i : ι) (t : σ) : Prop :=
  f (cut x i t) s = none

/-- What `f` makes of a program depends on nothing but the answers to the calls that it makes. -/
def Determined (f : (ι → Prog σ ε α) → Prog σ ε β) : Prop :=
  ∀ x y s, (∀ i t, Calls f x s i t → y i t = x i t) → f y s = f x s

theorem determined_const (p : Prog σ ε β) : Determined fun _ : ι → Prog σ ε α => p :=
  fun _ _ _ _ => rfl

theorem determined_call (i : ι) : Determined fun x : ι → Prog σ ε α => x i :=
  fun _ _ s hsame => hsame i s cut_self

theorem determined_ite {c : Prop} [Decidable c] {f g : (ι → Prog σ ε α) → Prog σ ε β}
    (hf : Determined f) (hg : Determined g) : Determined fun x => if c then f x else g x := by
  by_cases h : c
  · simpa only [h, if_true] using hf
  · simpa only [h, if_false] using hg

theorem determined_bind {f : (ι → Prog σ ε α) → Prog σ ε β}
    {g : β → (ι → Prog σ ε α) → Prog σ ε γ} (hf : Determined f) (hg : ∀ b, Determined (g b)) :
    Determined fun x => f x >>= fun b => g b x := by
  intro x y s hsame
  have hcalls {i : ι} {t : σ} (h : Calls f x s i t) :
      Calls (fun x => f x >>= fun b => g b x) x s i t := by
    simp only [Calls, Bind.bind] at h ⊢
    rw [h]
  have hfirst : f y s = f x s := hf x y s fun i t h => hsame i t (hcalls h)
  cases hx : f x s with
  | none => simp only [Bind.bind, hfirst, hx]
  | some answer =>
    cases answer with
    | error e => simp only [Bind.bind, hfirst, hx]
    | ok result =>
      obtain ⟨b, s'⟩ := result
      dsimp only
      rw [bind_of_ok hx, bind_of_ok (hfirst.trans hx)]
      refine hg b x y s' fun i t h => hsame i t ?_
      by_cases hmade : Calls f x s i t
      · exact hcalls hmade
      · -- the first part does not make the call, so it comes to its end without it
        have hcut : f (cut x i t) s = f x s := by
          refine hf x _ s fun j u hju => cut_of_ne ?_
          rintro ⟨rfl, rfl⟩
          exact hmade hju
        exact (bind_of_ok (hcut.trans hx) _).trans h

end Calls

end Prog
