import Onestein.Lib.Prog

/-!
# Programs that follow each other

A judgement on two programs with errors, with one rule a construct. It speaks of one start only, so
the rule for a sequence knows what the first part has returned. It does not ask that a program comes
to an answer: a run that is out of fuel is not judged.

## Main definitions

* `Prog.Follows` — a second program answers as the first one, unless the first has an excuse.
-/

namespace Prog

variable {σ ε α β γ : Type}

section Follows

variable {excuse : ε → Prop} {rel rel' : σ → σ → Prop} {x y : Prog σ ε α}
  {f g : α → Prog σ ε β} {s t : σ}

/-- Whatever `x` answers from `s`, `y` answers from `t`, and the states they return in are
related. Only where `x` stops with an error that is an `excuse` may `y` do anything. -/
structure Follows (excuse : ε → Prop) (rel : σ → σ → Prop) (x y : Prog σ ε α) (s t : σ) :
    Prop where
  fails : ∀ e, x s = some (.error e) → excuse e ∨ y t = some (.error e)
  returns : ∀ a s', x s = some (.ok (a, s')) → ∃ t', y t = some (.ok (a, t')) ∧ rel s' t'

theorem follows_pure {a : α} (h : rel s t) :
    (pure a : Prog σ ε α).Follows excuse rel (pure a) s t where
  fails _ he := by simp at he
  returns _ _ ha := by
    simp only [pure_apply, Option.some.injEq, Except.ok.injEq, Prod.mk.injEq] at ha
    obtain ⟨rfl, rfl⟩ := ha
    exact ⟨t, rfl, h⟩

theorem follows_fail {e : ε} : (fail e : Prog σ ε α).Follows excuse rel (fail e) s t where
  fails e' he := by
    simp only [fail_apply, Option.some.injEq, Except.error.injEq] at he
    exact .inr (he ▸ rfl)
  returns _ _ ha := by simp at ha

/-- Behind an excuse nothing is asked of the second program. -/
theorem follows_of_excuse {e : ε} (hx : x s = some (.error e)) (h : excuse e) :
    x.Follows excuse rel y s t where
  fails e' he := by
    rw [hx, Option.some.injEq, Except.error.injEq] at he
    exact .inl (he ▸ h)
  returns _ _ ha := by simp [hx] at ha

theorem follows_outOfFuel : (outOfFuel : Prog σ ε α).Follows excuse rel y s t where
  fails _ he := by simp at he
  returns _ _ ha := by simp at ha

theorem follows_bind (hx : x.Follows excuse rel' y s t)
    (hf : ∀ a s' t', x s = some (.ok (a, s')) → rel' s' t' →
      (f a).Follows excuse rel (g a) s' t') :
    (x >>= f).Follows excuse rel (y >>= g) s t := by
  cases h : x s with
  | none => constructor <;> simp [Bind.bind, h]
  | some answer =>
    cases answer with
    | error e =>
      refine ⟨fun e' he' => ?_, fun b s' hb => ?_⟩
      · simp only [Bind.bind, h, Option.some.injEq, Except.error.injEq] at he'
        obtain rfl := he'
        exact (hx.fails e h).imp_right fun hy => by simp only [Bind.bind, hy]
      · simp [Bind.bind, h] at hb
    | ok result =>
      obtain ⟨a, s'⟩ := result
      obtain ⟨t', hy, hrel⟩ := hx.returns a s' h
      have hrest := hf a s' t' h hrel
      constructor <;> rw [bind_of_ok h, bind_of_ok hy]
      · exact hrest.fails
      · exact hrest.returns

/-- Behind parts that return, sequences are compared by their rests. -/
theorem follows_bind_of_ok {x : Prog σ ε α} {y : Prog σ ε γ} {f : α → Prog σ ε β}
    {g : γ → Prog σ ε β} {a : α} {c : γ} {s' t' : σ} (hx : x s = some (.ok (a, s')))
    (hy : y t = some (.ok (c, t'))) (h : (f a).Follows excuse rel (g c) s' t') :
    (x >>= f).Follows excuse rel (y >>= g) s t := by
  constructor <;> rw [bind_of_ok hx, bind_of_ok hy]
  · exact h.fails
  · exact h.returns

theorem follows_get_bind {f g : σ → Prog σ ε β} (h : (f s).Follows excuse rel (g t) s t) :
    (get >>= f).Follows excuse rel (get >>= g) s t := ⟨h.fails, h.returns⟩

theorem follows_set_bind {s' t' : σ} {f g : Unit → Prog σ ε β}
    (h : (f ()).Follows excuse rel (g ()) s' t') :
    (set s' >>= f).Follows excuse rel (set t' >>= g) s t := ⟨h.fails, h.returns⟩

theorem follows_ite {c : Prop} [Decidable c] {x' y' : Prog σ ε α}
    (hx : c → x.Follows excuse rel y s t) (hx' : ¬ c → x'.Follows excuse rel y' s t) :
    (if c then x else x').Follows excuse rel (if c then y else y') s t := by
  split
  case isTrue hc => exact hx hc
  case isFalse hc => exact hx' hc

/-- What programs answer that come to an answer. -/
theorem Follows.answer (h : x.Follows excuse rel y s t) (hx : x.Halts s) (hy : y.Halts t) :
    y.answer t hy = x.answer s hx ∨ ∃ e, x.answer s hx = .error e ∧ excuse e := by
  obtain ⟨o, ho⟩ := Option.ne_none_iff_exists'.mp hx
  rw [answer_eq_map hx ho]
  cases o with
  | error e =>
    obtain he | he := h.fails e ho
    · exact .inr ⟨e, rfl, he⟩
    · exact .inl (answer_eq_map hy he)
  | ok result =>
    obtain ⟨a, s'⟩ := result
    obtain ⟨t', ht, -⟩ := h.returns a s' ho
    exact .inl ((answer_eq_map hy ht).trans rfl)

end Follows

end Prog
