import Mathlib.Logic.Basic

/-!
Runs of a fallible program that counts its steps against a bound. Two runs agree
when they give the same result in related states, unless the second one ran into
the bound.
-/
namespace E5r.BoundedRuns

variable {ε σ α β : Type}

/-- The first result is the second one, up to a relation on states, unless the
    second one stopped at the bound. -/
inductive Agree (bound : ε) (R : σ → σ → Prop) : Except ε (α × σ) → Except ε (α × σ) → Prop where
  | stopped (r : Except ε (α × σ)) : Agree bound R r (.error bound)
  | failed (e : ε) : Agree bound R (.error e) (.error e)
  | done (a : α) {s s' : σ} (related : R s s') : Agree bound R (.ok (a, s)) (.ok (a, s'))

variable {bound : ε} {R : σ → σ → Prop}

theorem Agree.bind {r r' : Except ε (α × σ)} {f f' : α × σ → Except ε (β × σ)} (agree : Agree bound R r r')
    (next : ∀ a s s', R s s' → Agree bound R (f (a, s)) (f' (a, s'))) : Agree bound R (r >>= f) (r' >>= f') := by
  cases agree with
  | stopped r => exact .stopped _
  | failed e => exact .failed e
  | done a related => exact next a _ _ related

theorem Agree.lift {γ : Type} (m : Except ε γ) {f f' : γ → Except ε (β × σ)}
    (next : ∀ c, Agree bound R (f c) (f' c)) : Agree bound R (m >>= f) (m >>= f') := by
  cases m with
  | error e => exact .failed e
  | ok c => exact next c

end E5r.BoundedRuns
