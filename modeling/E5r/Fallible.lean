import Mathlib.Tactic.Common

/-!
Computations that may fail: when a chain of them, or one over a list, succeeds.
-/
namespace E5r.Fallible

variable {ε α β : Type}

variable {b : β}

theorem bind_ok_iff {x : Except ε α} {f : α → Except ε β} : (x >>= f) = .ok b ↔ ∃ a, x = .ok a ∧ f a = .ok b := by
  cases x with
  | error e => simp [bind, Except.bind]
  | ok a => simp [bind, Except.bind]

theorem pure_ok_iff {a b : α} : (pure a : Except ε α) = .ok b ↔ a = b := by
  simp [pure, Except.pure]

theorem guard_ok_iff {c : Prop} [Decidable c] {e : ε} :
    (if c then throw e else pure () : Except ε Unit) = .ok () ↔ ¬c := by
  by_cases holds : c
  · simp [holds, throw, throwThe, MonadExceptOf.throw]
  · simp [holds, pure, Except.pure]

/-- What stands behind a guard runs when its condition fails. -/
theorem unless_ok_iff {c : Prop} [Decidable c] {e : ε} {f : PUnit → Except ε α} {x : Except ε α} {b : α} :
    (if c then (throw e : Except ε PUnit) >>= f else x) = .ok b ↔ ¬c ∧ x = .ok b := by
  by_cases holds : c
  · simp [holds, throw, throwThe, MonadExceptOf.throw, bind, Except.bind]
  · simp [holds]

variable {xs : List α}

theorem forM_ok_iff {f : α → Except ε Unit} : xs.forM f = .ok () ↔ ∀ x ∈ xs, f x = .ok () := by
  induction xs with
  | nil => simp [pure, Except.pure]
  | cons x xs ih =>
    show (f x >>= fun _ => xs.forM f) = .ok () ↔ _
    rw [List.forall_mem_cons, ← ih, bind_ok_iff]
    constructor
    · rintro ⟨⟨⟩, first, later⟩
      exact ⟨first, later⟩
    · rintro ⟨first, later⟩
      exact ⟨(), first, later⟩

/-- A list is computed when each member is, and from its members only. -/
theorem mapM_ok {f : α → Except ε β} {ys : List β} (all : xs.mapM f = .ok ys) :
    (∀ x ∈ xs, ∃ y, f x = .ok y) ∧ ∀ y, y ∈ ys ↔ ∃ x ∈ xs, f x = .ok y := by
  induction xs generalizing ys with
  | nil =>
    obtain rfl : [] = ys := by simpa [pure, Except.pure] using all
    simp
  | cons x xs ih =>
    rw [List.mapM_cons] at all
    simp only [bind_ok_iff, pure_ok_iff] at all
    obtain ⟨y, first, rest, later, rfl⟩ := all
    obtain ⟨each, members⟩ := ih later
    constructor
    · intro z member
      rcases List.mem_cons.mp member with rfl | inside
      · exact ⟨y, first⟩
      · exact each z inside
    · intro z
      simp [members z, first, eq_comm]

theorem mapM_ok_map {f : α → Except ε β} {g : α → β} (each : ∀ x ∈ xs, f x = .ok (g x)) :
    xs.mapM f = .ok (xs.map g) := by
  induction xs with
  | nil => rfl
  | cons x xs ih =>
    rw [List.mapM_cons, each x (List.mem_cons_self ..), ih fun y member => each y (List.mem_cons_of_mem x member)]
    rfl

variable {f : α → ExceptT ε Option β} {x : ExceptT ε Option α}

/-- A computation that returns runs its parts: the first one fails, or the second
    one returns. -/
theorem bind_some_iff {r : Except ε β} :
    (x >>= f) = some r ↔ (∃ e, x = some (.error e) ∧ r = .error e) ∨ ∃ a, x = some (.ok a) ∧ f a = some r := by
  show ExceptT.bind x f = some r ↔ _
  unfold ExceptT.bind ExceptT.mk
  cases x with
  | none => simp
  | some e =>
    cases e with
    | error e =>
      constructor
      · intro same
        exact .inl ⟨e, rfl, (Option.some_inj.mp same).symm⟩
      · rintro (⟨_, ⟨⟩, rfl⟩ | ⟨_, ⟨⟩, -⟩)
        rfl
    | ok a =>
      constructor
      · intro same
        exact .inr ⟨a, rfl, same⟩
      · rintro (⟨_, ⟨⟩, -⟩ | ⟨_, ⟨⟩, same⟩)
        exact same

theorem bind_some_ok_iff : (x >>= f) = some (.ok b) ↔ ∃ a, x = some (.ok a) ∧ f a = some (.ok b) := by
  rw [bind_some_iff]
  constructor
  · rintro (⟨_, -, ⟨⟩⟩ | parts)
    exact parts
  · exact .inr

/-- A computation that does not return has a part that does not. -/
theorem bind_none_iff : (x >>= f) = none ↔ x = none ∨ ∃ a, x = some (.ok a) ∧ f a = none := by
  show ExceptT.bind x f = none ↔ _
  unfold ExceptT.bind ExceptT.mk
  cases x with
  | none => simp
  | some e =>
    cases e with
    | error e =>
      constructor
      · intro absurd
        cases absurd
      · rintro (absurd | ⟨_, absurd, -⟩)
        · cases absurd
        · cases absurd
    | ok a =>
      constructor
      · intro stops
        exact .inr ⟨a, rfl, stops⟩
      · rintro (absurd | ⟨_, same, stops⟩)
        · cases absurd
        · cases same
          exact stops

/-- Behind a part that returns, it is a later part that does not. -/
theorem bind_stops (returns : x ≠ none) (stops : (x >>= f) = none) : ∃ a, x = some (.ok a) ∧ f a = none := by
  rw [bind_none_iff] at stops
  exact stops.resolve_left returns

/-- What follows a result. -/
theorem bind_ok {a : α} (f : α → ExceptT ε Option β) (ran : x = some (.ok a)) : (x >>= f) = f a := by
  subst ran
  rfl

theorem mapM_eq {g : α → β} (each : ∀ x ∈ xs, f x = some (.ok (g x))) : xs.mapM f = some (.ok (xs.map g)) := by
  induction xs with
  | nil => rfl
  | cons x xs ih =>
    rw [List.mapM_cons, bind_ok _ (each x (List.mem_cons_self ..)),
      bind_ok _ (ih fun y member => each y (List.mem_cons_of_mem x member))]
    rfl

theorem anyM_eq {f : α → ExceptT ε Option Bool} {g : α → Bool} (each : ∀ x ∈ xs, f x = some (.ok (g x))) :
    xs.anyM f = some (.ok (xs.any g)) := by
  induction xs with
  | nil => rfl
  | cons x xs ih =>
    rw [List.anyM, bind_ok _ (each x (List.mem_cons_self ..)), List.any_cons]
    cases g x with
    | true => rfl
    | false => exact ih fun y member => each y (List.mem_cons_of_mem x member)

/-- The members of a kind only are asked. -/
theorem anyM_guarded {p : α → Bool} {f : α → ExceptT ε Option Bool} {g : α → Bool}
    (each : ∀ x ∈ xs, f x = some (.ok (g x))) :
    (xs.anyM fun x => if p x = true then f x else pure false) = some (.ok (xs.any fun x => p x && g x)) := by
  apply anyM_eq
  intro x member
  cases p x with
  | true => exact each x member
  | false => rfl

theorem forM_ok {f : α → ExceptT ε Option Unit} (all : xs.forM f = some (.ok ())) : ∀ x ∈ xs, f x = some (.ok ()) := by
  induction xs with
  | nil =>
    intro x member
    cases member
  | cons y ys ih =>
    intro x member
    change (f y >>= fun _ => ys.forM f) = some (.ok ()) at all
    rw [bind_some_ok_iff] at all
    obtain ⟨_, first, rest⟩ := all
    rcases List.mem_cons.mp member with rfl | later
    · exact first
    · exact ih rest x later

theorem forM_returns {f : α → ExceptT ε Option Unit} (each : ∀ x ∈ xs, f x ≠ none) : xs.forM f ≠ none := by
  induction xs with
  | nil => nofun
  | cons x xs ih =>
    change (f x >>= fun _ => xs.forM f) ≠ none
    rw [ne_eq, bind_none_iff, not_or]
    refine ⟨each x (List.mem_cons_self ..), ?_⟩
    rintro ⟨_, -, panics⟩
    exact ih (fun y member => each y (List.mem_cons_of_mem x member)) panics

/-- A loop over a list panics at a member it reaches. -/
theorem foldlM_none_iff {f : β → α → ExceptT ε Option β} :
    (xs.foldlM f b : ExceptT ε Option β) = none ↔ ∃ before x after c, xs = before ++ x :: after ∧
      (before.foldlM f b : ExceptT ε Option β) = some (.ok c) ∧ f c x = none := by
  induction xs generalizing b with
  | nil =>
    constructor
    · intro absurd
      cases absurd
    · rintro ⟨before, _, _, _, absurd, -⟩
      simp at absurd
  | cons x xs ih =>
    rw [List.foldlM_cons, bind_none_iff]
    constructor
    · rintro (panics | ⟨c, first, later⟩)
      · exact ⟨[], x, xs, b, rfl, rfl, panics⟩
      · obtain ⟨before, y, after, d, rfl, front, panics⟩ := ih.mp later
        exact ⟨x :: before, y, after, d, rfl, by rw [List.foldlM_cons, bind_ok _ first]; exact front, panics⟩
    · rintro ⟨before, y, after, c, split, front, panics⟩
      cases before with
      | nil =>
        cases front
        obtain ⟨rfl, rfl⟩ := List.cons.inj split
        exact .inl panics
      | cons z before =>
        obtain ⟨rfl, rfl⟩ := List.cons.inj split
        rw [List.foldlM_cons, bind_some_ok_iff] at front
        obtain ⟨d, first, later⟩ := front
        exact .inr ⟨d, first, ih.mpr ⟨before, y, after, c, rfl, later, panics⟩⟩

end E5r.Fallible
