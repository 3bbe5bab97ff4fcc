import Mathlib.Algebra.Order.Archimedean.Real.Basic

/-!
Rounding a real number onto a set of rational numbers: to the greatest one below
it, the least one above it or a nearest one. Where the set is, from some multiple
of a unit on, no finer than the multiples of the unit, the rounding among these
multiples is the rounding onto the set.
-/
namespace E5r.Roundings

variable {S : Set ℚ} {t : ℝ} {r u : ℚ} {N K : ℕ}

/-- `r` is the greatest number of the set that is at most `t`. -/
def RoundsDown (S : Set ℚ) (t : ℝ) (r : ℚ) : Prop := IsGreatest {s | s ∈ S ∧ (s : ℝ) ≤ t} r

/-- `r` is the least number of the set that is at least `t`. -/
def RoundsUp (S : Set ℚ) (t : ℝ) (r : ℚ) : Prop := IsLeast {s | s ∈ S ∧ t ≤ (s : ℝ)} r

/-- No number of the set is nearer to `t` than `r`. -/
def Nearest (S : Set ℚ) (t : ℝ) (r : ℚ) : Prop := r ∈ S ∧ ∀ s ∈ S, |(r : ℝ) - t| ≤ |(s : ℝ) - t|

/-- From the `N`-th multiple of the unit on, the set holds multiples only. -/
def OnGrid (S : Set ℚ) (u : ℚ) (N : ℕ) : Prop := ∀ s ∈ S, N * u ≤ s → ∃ j : ℕ, s = j * u

theorem RoundsDown.exact (rounded : RoundsDown S t r) {s : ℚ} (inside : s ∈ S) (same : (s : ℝ) = t) : r = s := by
  have above : s ≤ r := rounded.2 ⟨inside, le_of_eq same⟩
  have below : (r : ℝ) ≤ s := by
    rw [same]
    exact rounded.1.2
  exact le_antisymm (by exact_mod_cast below) above

theorem RoundsUp.exact (rounded : RoundsUp S t r) {s : ℚ} (inside : s ∈ S) (same : (s : ℝ) = t) : r = s := by
  have below : r ≤ s := rounded.2 ⟨inside, le_of_eq same.symm⟩
  have above : (s : ℝ) ≤ r := by
    rw [same]
    exact rounded.1.2
  exact le_antisymm below (by exact_mod_cast above)

theorem Nearest.exact (rounded : Nearest S t r) {s : ℚ} (inside : s ∈ S) (same : (s : ℝ) = t) : r = s := by
  have least := rounded.2 s inside
  rw [same, sub_self, abs_zero] at least
  have zero : (r : ℝ) - t = 0 := abs_eq_zero.mp (le_antisymm least (abs_nonneg _))
  have equal : (r : ℝ) = s := by
    rw [same]
    linarith
  exact_mod_cast equal

theorem RoundsUp.neg (rounded : RoundsUp S t r) (symmetric : ∀ s ∈ S, -s ∈ S) : RoundsDown S (-t) (-r) := by
  refine ⟨⟨symmetric r rounded.1.1, ?_⟩, ?_⟩
  · push_cast
    exact neg_le_neg rounded.1.2
  · rintro s ⟨inside, le⟩
    refine le_neg_of_le_neg (rounded.2 ⟨symmetric s inside, ?_⟩)
    push_cast
    exact le_neg_of_le_neg le

theorem RoundsDown.neg (rounded : RoundsDown S t r) (symmetric : ∀ s ∈ S, -s ∈ S) : RoundsUp S (-t) (-r) := by
  refine ⟨⟨symmetric r rounded.1.1, ?_⟩, ?_⟩
  · push_cast
    exact neg_le_neg rounded.1.2
  · rintro s ⟨inside, ge⟩
    refine neg_le_of_neg_le (rounded.2 ⟨symmetric s inside, ?_⟩)
    push_cast
    exact neg_le_of_neg_le ge

theorem abs_neg_sub_neg (s : ℚ) (t : ℝ) : |((-s : ℚ) : ℝ) - -t| = |(s : ℝ) - t| := by
  push_cast
  rw [neg_sub_neg, abs_sub_comm]

theorem Nearest.neg (rounded : Nearest S t r) (symmetric : ∀ s ∈ S, -s ∈ S) : Nearest S (-t) (-r) := by
  refine ⟨symmetric r rounded.1, ?_⟩
  intro s inside
  have nearer := rounded.2 (-s) (symmetric s inside)
  rwa [abs_neg_sub_neg, ← neg_neg s, abs_neg_sub_neg]

/-- A number of the set is below the `N`-th multiple or is a later one. -/
theorem OnGrid.cases (grid : OnGrid S u N) (unit : 0 < u) {s : ℚ} (inside : s ∈ S) :
    s < N * u ∨ ∃ j : ℕ, N ≤ j ∧ s = j * u := by
  by_cases low : s < N * u
  · exact .inl low
  · obtain ⟨j, same⟩ := grid s inside (not_lt.mp low)
    refine .inr ⟨j, ?_, same⟩
    rw [same, not_lt, mul_le_mul_iff_left₀ unit] at low
    exact_mod_cast low

section
variable {x : ℝ}

private theorem multiple_le (unit : 0 < u) (j : ℕ) : ((j * u : ℚ) : ℝ) ≤ x * u ↔ (j : ℝ) ≤ x := by
  rw [Rat.cast_mul, Rat.cast_natCast, mul_le_mul_iff_left₀ (by exact_mod_cast unit)]

private theorem le_multiple (unit : 0 < u) (j : ℕ) : x * u ≤ ((j * u : ℚ) : ℝ) ↔ x ≤ (j : ℝ) := by
  rw [Rat.cast_mul, Rat.cast_natCast, mul_le_mul_iff_left₀ (by exact_mod_cast unit)]

private theorem distance (unit : 0 < u) (j : ℕ) : |((j * u : ℚ) : ℝ) - x * u| = |(j : ℝ) - x| * u := by
  rw [Rat.cast_mul, Rat.cast_natCast, ← sub_mul, abs_mul, abs_of_pos (by exact_mod_cast unit : (0 : ℝ) < u)]

theorem OnGrid.roundsDown (grid : OnGrid S u N) (unit : 0 < u) (member : (K : ℚ) * u ∈ S) (low : (N : ℝ) ≤ x)
    (below : (K : ℝ) ≤ x) (greatest : ∀ j : ℕ, (j : ℝ) ≤ x → j ≤ K) : RoundsDown S (x * u) (K * u) := by
  have multiple {j : ℕ} (le : (j : ℝ) ≤ x) : (j : ℚ) * u ≤ K * u :=
    mul_le_mul_of_nonneg_right (by exact_mod_cast greatest j le) (le_of_lt unit)
  refine ⟨⟨member, (multiple_le unit K).mpr below⟩, ?_⟩
  rintro s ⟨inside, le⟩
  rcases grid.cases unit inside with under | ⟨j, -, rfl⟩
  · exact le_trans (le_of_lt under) (multiple low)
  · exact multiple ((multiple_le unit j).mp le)

theorem OnGrid.roundsUp (grid : OnGrid S u N) (unit : 0 < u) (member : (K : ℚ) * u ∈ S) (low : (N : ℝ) ≤ x)
    (above : x ≤ (K : ℝ)) (least : ∀ j : ℕ, x ≤ (j : ℝ) → K ≤ j) : RoundsUp S (x * u) (K * u) := by
  refine ⟨⟨member, (le_multiple unit K).mpr above⟩, ?_⟩
  rintro s ⟨inside, ge⟩
  rcases grid.cases unit inside with under | ⟨j, -, rfl⟩
  · have start := (multiple_le unit N).mpr low
    have : ((s : ℚ) : ℝ) < ((N * u : ℚ) : ℝ) := by exact_mod_cast under
    linarith
  · exact mul_le_mul_of_nonneg_right (by exact_mod_cast least j ((le_multiple unit j).mp ge)) (le_of_lt unit)

private theorem farther {s : ℚ} (unit : 0 < u) (low : (N : ℝ) ≤ x) (under : s < N * u) :
    |((N * u : ℚ) : ℝ) - x * u| < |(s : ℝ) - x * u| := by
  have start := (multiple_le unit N).mpr low
  have less : (s : ℝ) < ((N * u : ℚ) : ℝ) := by exact_mod_cast under
  rw [abs_of_nonpos (by linarith), abs_of_nonpos (by linarith)]
  linarith

private theorem nearer (unit : 0 < u) (near : ∀ j : ℕ, |(K : ℝ) - x| ≤ |(j : ℝ) - x|) (j : ℕ) :
    |((K * u : ℚ) : ℝ) - x * u| ≤ |((j * u : ℚ) : ℝ) - x * u| := by
  rw [distance unit, distance unit]
  exact mul_le_mul_of_nonneg_right (near j) (by exact_mod_cast le_of_lt unit)

theorem OnGrid.nearest (grid : OnGrid S u N) (unit : 0 < u) (member : (K : ℚ) * u ∈ S) (low : (N : ℝ) ≤ x)
    (near : ∀ j : ℕ, |(K : ℝ) - x| ≤ |(j : ℝ) - x|) : Nearest S (x * u) (K * u) := by
  refine ⟨member, ?_⟩
  intro s inside
  rcases grid.cases unit inside with under | ⟨j, -, rfl⟩
  · exact le_trans (nearer unit near N) (le_of_lt (farther unit low under))
  · exact nearer unit near j

/-- Where another number of the set is as near, it is another multiple. -/
theorem OnGrid.tie (grid : OnGrid S u N) (unit : 0 < u) (low : (N : ℝ) ≤ x)
    (near : ∀ j : ℕ, |(K : ℝ) - x| ≤ |(j : ℝ) - x|) {s : ℚ} (inside : s ∈ S) (other : s ≠ K * u)
    (tied : |(s : ℝ) - x * u| = |((K * u : ℚ) : ℝ) - x * u|) :
    ∃ j : ℕ, j ≠ K ∧ |(j : ℝ) - x| = |(K : ℝ) - x| := by
  rcases grid.cases unit inside with under | ⟨j, -, same⟩
  · exact absurd tied (ne_of_gt (lt_of_le_of_lt (nearer unit near N) (farther unit low under)))
  · refine ⟨j, fun equal => other (by rw [same, equal]), ?_⟩
    rw [same, distance unit, distance unit] at tied
    exact mul_right_cancel₀ (ne_of_gt (by exact_mod_cast unit)) tied

end

section
variable {x : ℝ} {k : ℕ}

theorem nearest_nat (low : (k : ℝ) ≤ x) (high : x < k + 1) (down : x < k + 1 / 2 → K = k)
    (up : k + 1 / 2 < x → K = k + 1) (either : K = k ∨ K = k + 1) (j : ℕ) : |(K : ℝ) - x| ≤ |(j : ℝ) - x| := by
  have reach : x - k ≤ |(j : ℝ) - x| ∨ k + 1 - x ≤ |(j : ℝ) - x| := by
    by_cases le : j ≤ k
    · left
      have : (j : ℝ) ≤ k := by exact_mod_cast le
      rw [abs_of_nonpos (by linarith)]
      linarith
    · right
      have : (k : ℝ) + 1 ≤ j := by exact_mod_cast not_le.mp le
      rw [abs_of_nonneg (by linarith)]
      linarith
  rcases either with rfl | rfl
  · have half : x ≤ K + 1 / 2 := by
      by_contra above
      have := up (not_le.mp above)
      omega
    rw [abs_of_nonpos (by linarith)]
    rcases reach with near | near <;> linarith
  · have half : k + 1 / 2 ≤ x := by
      by_contra below
      have := down (not_le.mp below)
      omega
    push_cast
    rw [abs_of_nonneg (by linarith)]
    rcases reach with near | near <;> linarith

/-- Two nearest integers lie half-way from the number. -/
theorem halfway_of_tie (low : (k : ℝ) ≤ x) (high : x < k + 1) (either : K = k ∨ K = k + 1) {j : ℕ} (other : j ≠ K)
    (near : ∀ i : ℕ, |(K : ℝ) - x| ≤ |(i : ℝ) - x|) (tied : |(j : ℝ) - x| = |(K : ℝ) - x|) : x = k + 1 / 2 := by
  have first := near k
  have second := near (k + 1)
  push_cast at second
  rw [abs_of_nonpos (by linarith : (k : ℝ) - x ≤ 0)] at first
  rw [abs_of_nonneg (by linarith : 0 ≤ (k : ℝ) + 1 - x)] at second
  rcases either with rfl | rfl
  · rw [abs_of_nonpos (by linarith : (K : ℝ) - x ≤ 0)] at tied second
    by_cases le : j ≤ K
    · have : (j : ℝ) + 1 ≤ K := by exact_mod_cast (by omega : j + 1 ≤ K)
      rw [abs_of_nonpos (by linarith)] at tied
      linarith
    · have : (K : ℝ) + 1 ≤ j := by exact_mod_cast not_le.mp le
      rw [abs_of_nonneg (by linarith)] at tied
      linarith
  · push_cast at tied first
    rw [abs_of_nonneg (by linarith : 0 ≤ (k : ℝ) + 1 - x)] at tied first
    by_cases le : j ≤ k
    · have : (j : ℝ) ≤ k := by exact_mod_cast le
      rw [abs_of_nonpos (by linarith)] at tied
      linarith
    · have : (k : ℝ) + 2 ≤ j := by exact_mod_cast (by omega : k + 2 ≤ j)
      rw [abs_of_nonneg (by linarith)] at tied
      linarith

end

end E5r.Roundings
