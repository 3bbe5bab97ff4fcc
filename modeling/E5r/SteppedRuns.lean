import Mathlib.Tactic.Ring

/-!
Runs of marked positions in steps. A walk takes each run in steps of one width and passes what
is not marked, place by place. It finds the runs that no marked position continues (`mem_runs`),
as long as two marked positions are never closer than a step.
-/
namespace E5r.SteppedRuns

section
variable (ok : ℕ → Bool) (step n : ℕ)

def runStop : ℕ → ℕ → ℕ
  | 0, i => i
  | fuel + 1, i => if ok i then runStop fuel (i + step) else i

/-- The runs from a position on, where nothing is marked from `n` on. -/
def runs : ℕ → ℕ → List (ℕ × ℕ)
  | 0, _ => []
  | fuel + 1, i =>
    if ok i then (i, runStop ok step n i) :: runs fuel (runStop ok step n i) else runs fuel (i + 1)

structure IsRun (s e : ℕ) : Prop where
  whole : ∃ m, e = s + m * step ∧ ∀ j < m, ok (s + j * step)
  filled : s < e
  before : ∀ p, p + step = s → ¬ok p
  behind : ¬ok e

def Apart : Prop := ∀ i d, ok i → 0 < d → d < step → ¬ok (i + d)

/-- No run goes over a position or up to it and on. -/
def Between (i : ℕ) : Prop := ∀ p < i, ok p → p + step ≤ i ∧ (p + step = i → ¬ok i)
end

variable {ok : ℕ → Bool} {step n s e i fuel : ℕ}

theorem runStop_spec (inside : ∀ i, ok i → i < n) (positive : 0 < step) (enough : n ≤ fuel + i) :
    ∃ m, runStop ok step fuel i = i + m * step ∧ (∀ j < m, ok (i + j * step)) ∧ ¬ok (runStop ok step fuel i) := by
  induction fuel generalizing i with
  | zero => exact ⟨0, by simp [runStop], by simp, fun marked => absurd (inside i marked) (by omega)⟩
  | succ fuel ih =>
    rw [runStop]
    by_cases marked : ok i
    · obtain ⟨m, is, all, ends⟩ := @ih (i + step) (by omega)
      rw [if_pos marked]
      refine ⟨m + 1, by rw [is]; ring, fun j less => ?_, ends⟩
      cases j with
      | zero => simpa using marked
      | succ j => simpa [Nat.succ_mul, Nat.add_assoc, Nat.add_comm step] using all j (by omega)
    · rw [if_neg marked]
      exact ⟨0, by simp, by simp, marked⟩

namespace IsRun

theorem start (run : IsRun ok step s e) : ok s := by
  obtain ⟨⟨m, rfl, all⟩, filled, -, -⟩ := run
  cases m with
  | zero => simp at filled
  | succ m => simpa using all 0 (by omega)

theorem unique {d : ℕ} (run : IsRun ok step s e) (other : IsRun ok step s d) : e = d := by
  obtain ⟨⟨m, rfl, all⟩, -, -, behind⟩ := run
  obtain ⟨⟨k, rfl, all'⟩, -, -, behind'⟩ := other
  rcases lt_trichotomy m k with less | rfl | more
  · exact absurd (all' m less) behind
  · rfl
  · exact absurd (all k more) behind'

/-- A marked position inside a run is its start or one step behind another one. -/
theorem inside (run : IsRun ok step s e) (positive : 0 < step) (apart : Apart ok step) {p : ℕ} (marked : ok p)
    (low : s ≤ p) (high : p < e) : (p = s ∨ ∃ q, q + step = p ∧ ok q) ∧ p + step ≤ e := by
  obtain ⟨⟨m, rfl, all⟩, -, -, -⟩ := run
  have parts := Nat.div_add_mod (p - s) step
  rw [Nat.mul_comm] at parts
  have less : (p - s) / step < m := (Nat.div_lt_iff_lt_mul positive).mpr (by omega)
  have here : p = s + (p - s) / step * step := by
    by_contra off
    refine apart _ ((p - s) % step) (all _ less) (by omega) (Nat.mod_lt _ positive) ?_
    rwa [Nat.add_assoc, parts, Nat.add_sub_cancel' low]
  have room := Nat.mul_le_mul_right step less
  generalize (p - s) / step = j at less here room
  subst here
  refine ⟨?_, by rw [Nat.succ_mul] at room; omega⟩
  cases j with
  | zero => exact .inl (by simp)
  | succ j => exact .inr ⟨s + j * step, by ring, all j (by omega)⟩

end IsRun

namespace Between

theorem opens (between : Between ok step i) (inside : ∀ i, ok i → i < n) (positive : 0 < step) (marked : ok i) :
    IsRun ok step i (runStop ok step n i) := by
  obtain ⟨m, is, all, ends⟩ := runStop_spec inside positive (Nat.le_add_right n i)
  refine ⟨⟨m, is, all⟩, ?_, fun p next at_p => (between p (by omega) at_p).2 next marked, ends⟩
  cases m with
  | zero => exact absurd marked (by simpa [is] using ends)
  | succ m =>
    rw [is, Nat.succ_mul]
    omega

theorem skip (between : Between ok step i) (unmarked : ¬ok i) : Between ok step (i + 1) := by
  intro p before marked
  have other : p ≠ i := fun same => unmarked (same ▸ marked)
  have := (between p (by omega) marked).1
  exact ⟨by omega, by omega⟩

theorem jump (between : Between ok step i) (positive : 0 < step) (apart : Apart ok step) (run : IsRun ok step i e) :
    Between ok step e := by
  intro p before marked
  by_cases low : i ≤ p
  · exact ⟨(run.inside positive apart marked low before).2, fun _ => run.behind⟩
  · have filled := run.filled
    have := (between p (by omega) marked).1
    exact ⟨by omega, by omega⟩

end Between

/-- The walk finds the longest runs and nothing else. -/
theorem mem_runs (inside : ∀ i, ok i → i < n) (positive : 0 < step) (apart : Apart ok step) (enough : n ≤ fuel + i)
    (between : Between ok step i) : (s, e) ∈ runs ok step n fuel i ↔ i ≤ s ∧ IsRun ok step s e := by
  induction fuel generalizing i with
  | zero => exact ⟨fun none => absurd none List.not_mem_nil, fun run => absurd (inside s run.2.start) (by omega)⟩
  | succ fuel ih =>
    rw [runs]
    by_cases marked : ok i
    · have first := between.opens inside positive marked
      have filled := first.filled
      rw [if_pos marked, List.mem_cons, Prod.mk.injEq, ih (by omega) (between.jump positive apart first)]
      constructor
      · rintro (⟨rfl, rfl⟩ | ⟨later, run⟩)
        · exact ⟨le_rfl, first⟩
        · exact ⟨by omega, run⟩
      · rintro ⟨low, run⟩
        by_cases later : runStop ok step n i ≤ s
        · exact .inr ⟨later, run⟩
        · rcases (first.inside positive apart run.start low (by omega)).1 with rfl | ⟨q, next, at_q⟩
          · exact .inl ⟨rfl, run.unique first⟩
          · exact absurd at_q (run.before q next)
    · rw [if_neg marked, ih (by omega) (between.skip marked)]
      refine and_congr_left fun run => ⟨by omega, fun low => ?_⟩
      exact low.lt_of_ne fun same => marked (same ▸ run.start)

end E5r.SteppedRuns
