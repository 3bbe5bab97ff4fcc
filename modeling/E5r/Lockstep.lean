import Mathlib.Tactic.Common

/-!
Computations that may panic or return early: what one of them ensures, and two
of them in lockstep, through chains and through loops over the same indices.
-/
namespace E5r.Lockstep

variable {ε δ α β γ κ : Type}

/-- Where the computation returns early the report is `E`, where it goes on the
    state is `P`. -/
inductive Ensures (P : α → Prop) (E : ε → Prop) : ExceptT ε Option α → Prop where
  | panics : Ensures P E (none : Option (Except ε α))
  | stops {e : ε} (report : E e) : Ensures P E (some (.error e) : Option (Except ε α))
  | goes {a : α} (state : P a) : Ensures P E (some (.ok a) : Option (Except ε α))

section
variable {P : α → Prop} {Q : β → Prop} {E : ε → Prop}

theorem Ensures.bind {x : ExceptT ε Option α} {f : α → ExceptT ε Option β} (first : Ensures P E x)
    (rest : ∀ a, P a → Ensures Q E (f a)) : Ensures Q E (x >>= f) := by
  show Ensures Q E (ExceptT.bind x f)
  unfold ExceptT.bind ExceptT.mk
  cases first with
  | panics => exact .panics
  | stops report => exact .stops report
  | goes state => exact rest _ state

/-- A loop over indices keeps what each turn carries from an index to the next. -/
theorem Ensures.range {P : ℕ → α → Prop} {f : α → ℕ → ExceptT ε Option α} (n : ℕ)
    (each : ∀ m < n, ∀ a, P m a → Ensures (P (m + 1)) E (f a m)) {a : α} (start : P 0 a) :
    Ensures (P n) E ((List.range n).foldlM f a) := by
  induction n with
  | zero => exact .goes start
  | succ n ih =>
    rw [List.range_succ, List.foldlM_append]
    apply (ih (fun m inside => each m (by omega))).bind
    intro b reached
    rw [List.foldlM_cons]
    apply (each n (by omega) b reached).bind
    intro c state
    exact .goes state
end

/-- Both panic, both return early with related reports, or both go on with
    related states. -/
inductive Alike (R : α → β → Prop) (E : ε → δ → Prop) : ExceptT ε Option α → ExceptT δ Option β → Prop where
  | panics : Alike R E (none : Option (Except ε α)) (none : Option (Except δ β))
  | stops {e : ε} {d : δ} (reports : E e d) :
      Alike R E (some (.error e) : Option (Except ε α)) (some (.error d) : Option (Except δ β))
  | goes {a : α} {b : β} (states : R a b) :
      Alike R E (some (.ok a) : Option (Except ε α)) (some (.ok b) : Option (Except δ β))

section
variable {R : α → β → Prop} {S : γ → κ → Prop} {E : ε → δ → Prop}

theorem Alike.bind {x : ExceptT ε Option α} {y : ExceptT δ Option β} {f : α → ExceptT ε Option γ}
    {g : β → ExceptT δ Option κ} (first : Alike R E x y) (rest : ∀ a b, R a b → Alike S E (f a) (g b)) :
    Alike S E (x >>= f) (y >>= g) := by
  show Alike S E (ExceptT.bind x f) (ExceptT.bind y g)
  unfold ExceptT.bind ExceptT.mk
  cases first with
  | panics => exact .panics
  | stops reports => exact .stops reports
  | goes states => exact rest _ _ states

theorem Alike.mono {R' : α → β → Prop} {x : ExceptT ε Option α} {y : ExceptT δ Option β} (alike : Alike R E x y)
    (weaker : ∀ a b, R a b → R' a b) : Alike R' E x y := by
  cases alike with
  | panics => exact .panics
  | stops reports => exact .stops reports
  | goes states => exact .goes (weaker _ _ states)

/-- Two loops over the same indices stay in lockstep when their turns do. -/
theorem Alike.range {R : ℕ → α → β → Prop} {f : α → ℕ → ExceptT ε Option α} {g : β → ℕ → ExceptT δ Option β} (n : ℕ)
    (each : ∀ m < n, ∀ a b, R m a b → Alike (R (m + 1)) E (f a m) (g b m)) {a : α} {b : β} (start : R 0 a b) :
    Alike (R n) E ((List.range n).foldlM f a) ((List.range n).foldlM g b) := by
  induction n with
  | zero => exact .goes start
  | succ n ih =>
    rw [List.range_succ, List.foldlM_append, List.foldlM_append]
    apply (ih (fun m inside => each m (by omega))).bind
    intro a b reached
    rw [List.foldlM_cons, List.foldlM_cons]
    apply (each n (by omega) a b reached).bind
    intro c d states
    exact .goes states
end

end E5r.Lockstep
