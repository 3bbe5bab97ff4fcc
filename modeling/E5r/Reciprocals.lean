import E5r.Fallible
import Mathlib.Tactic.Ring
import Mathlib.Tactic.Linarith
import Mathlib.Tactic.Positivity

/-!
# Divisors behind reciprocal multiplications

A divisor is recovered from a multiplier and a shift and then checked at six dividends. The
numbers are the source's 128-bit ones: `none` is an operation that leaves their range.
-/

namespace E5r.Reciprocals

/-! ### Drift over runs

Dividends with one quotient are a run. Along a run the drift rises, and from run to run it
moves by the same step, so over an interval it is extreme at an end, or at the first or the
last whole run. -/

section Runs

variable {m d e b lo hi x q r : ℤ}

/-- How far `m * x + b` is above the quotient's multiple of `m * d - e`. -/
def drift (m d e b x : ℤ) : ℤ :=
  x / d * e + x % d * m + b

theorem run_ediv (low : 0 ≤ r) (high : r < d) : (q * d + r) / d = q := by
  rw [Int.add_comm, Int.add_mul_ediv_right r q (by omega), Int.ediv_eq_zero_of_lt low high, Int.zero_add]

theorem drift_run (low : 0 ≤ r) (high : r < d) : drift m d e b (q * d + r) = q * e + r * m + b := by
  rw [drift, run_ediv low high, Int.add_comm (q * d), Int.add_mul_emod_self_right, Int.emod_eq_of_lt low high]

theorem exists_run (positive : 0 < d) (x : ℤ) : ∃ q r, x = q * d + r ∧ 0 ≤ r ∧ r < d :=
  ⟨x / d, x % d, (Int.ediv_mul_add_emod x d).symm, Int.emod_nonneg x (by omega), Int.emod_lt_of_pos x positive⟩

theorem ediv_eq_iff_drift {span : ℤ} (positive : 0 < d) (some : 0 < span) (x : ℤ) :
    (m * x + b) / span = x / d ↔ 0 ≤ drift m d (m * d - span) b x ∧ drift m d (m * d - span) b x < span := by
  obtain ⟨q, r, rfl, low, high⟩ := exists_run positive x
  rw [drift_run low high, run_ediv low high, Int.ediv_eq_iff_of_pos some]
  have split : m * (q * d + r) + b = q * (m * d - span) + r * m + b + q * span := by ring
  rw [split]
  constructor
  · rintro ⟨least, most⟩
    constructor <;> linarith
  · rintro ⟨least, most⟩
    constructor <;> linarith

theorem quotient_le {p i j : ℤ} (positive : 0 < d) (le : p * d + i ≤ q * d + j) (low : 0 ≤ i) (high : j < d) :
    p ≤ q := by
  by_contra more
  have : (q + 1) * d ≤ p * d := Int.mul_le_mul_of_nonneg_right (by omega) (by omega)
  linarith

theorem least_drift (positive : 0 < d) (rises : 0 ≤ m) (above : lo ≤ x) (below : x ≤ hi) :
    ∃ p, (p = lo ∨ p = hi / d * d ∨ p = (lo + d - 1) / d * d) ∧ lo ≤ p ∧ p ≤ hi ∧
      drift m d e b p ≤ drift m d e b x := by
  obtain ⟨q, r, rfl, low, high⟩ := exists_run positive x
  obtain ⟨k, i, rfl, least, most⟩ := exists_run positive lo
  obtain ⟨l, j, rfl, least', most'⟩ := exists_run positive hi
  have first := quotient_le positive above least high
  have last := quotient_le positive below low most'
  by_cases same : q = k
  · subst same
    refine ⟨q * d + i, .inl rfl, Int.le_refl _, by linarith, ?_⟩
    rw [drift_run least most, drift_run low high]
    have : i * m ≤ r * m := Int.mul_le_mul_of_nonneg_right (by linarith) rises
    linarith
  have later : (k + 1) * d ≤ q * d := Int.mul_le_mul_of_nonneg_right (by omega) (by omega)
  have start : ∀ n, drift m d e b (n * d) = n * e + b := by
    intro n
    have := @drift_run m d e b n 0 (Int.le_refl 0) positive
    rwa [Int.add_zero, Int.zero_mul, Int.add_zero] at this
  have rise : 0 ≤ r * m := Int.mul_nonneg low rises
  by_cases falls : e ≤ 0
  · refine ⟨l * d, .inr (.inl (by rw [run_ediv least' most'])), ?_, by linarith, ?_⟩
    · have : q * d ≤ l * d := Int.mul_le_mul_of_nonneg_right last (by omega)
      linarith
    · rw [start, drift_run low high]
      have : l * e ≤ q * e := Int.mul_le_mul_of_nonpos_right last falls
      linarith
  · obtain ⟨n, t, whole, smallest, largest⟩ := exists_run positive (k * d + i + d - 1)
    have before : n ≤ q := @quotient_le d q n t (d - 1) positive (by linarith) smallest (by omega)
    refine ⟨n * d, .inr (.inr ?_), by linarith, ?_, ?_⟩
    · rw [whole, run_ediv smallest largest]
    · have : n * d ≤ q * d := Int.mul_le_mul_of_nonneg_right before (by omega)
      linarith
    · rw [start, drift_run low high]
      have : n * e ≤ q * e := Int.mul_le_mul_of_nonneg_right before (by omega)
      linarith

theorem greatest_drift (positive : 0 < d) (rises : 0 ≤ m) (above : lo ≤ x) (below : x ≤ hi) :
    ∃ p, (p = hi ∨ p = lo / d * d + d - 1 ∨ p = (hi + 1) / d * d - 1) ∧ lo ≤ p ∧ p ≤ hi ∧
      drift m d e b x ≤ drift m d e b p := by
  obtain ⟨q, r, rfl, low, high⟩ := exists_run positive x
  obtain ⟨k, i, rfl, least, most⟩ := exists_run positive lo
  obtain ⟨l, j, rfl, least', most'⟩ := exists_run positive hi
  have first := quotient_le positive above least high
  have last := quotient_le positive below low most'
  by_cases same : q = l
  · subst same
    refine ⟨q * d + j, .inl rfl, by linarith, Int.le_refl _, ?_⟩
    rw [drift_run low high, drift_run least' most']
    have : r * m ≤ j * m := Int.mul_le_mul_of_nonneg_right (by linarith) rises
    linarith
  have earlier : (q + 1) * d ≤ l * d := Int.mul_le_mul_of_nonneg_right (by omega) (by omega)
  have stop : ∀ n, drift m d e b (n * d + d - 1) = n * e + (d - 1) * m + b := by
    intro n
    rw [show n * d + d - 1 = n * d + (d - 1) by ring]
    exact drift_run (by omega) (by omega)
  have rise : r * m ≤ (d - 1) * m := Int.mul_le_mul_of_nonneg_right (by omega) rises
  by_cases falls : e ≤ 0
  · refine ⟨k * d + d - 1, .inr (.inl (by rw [run_ediv least most])), by linarith, ?_, ?_⟩
    · have : k * d ≤ q * d := Int.mul_le_mul_of_nonneg_right first (by omega)
      linarith
    · rw [stop, drift_run low high]
      have : q * e ≤ k * e := Int.mul_le_mul_of_nonpos_right first falls
      linarith
  · obtain ⟨n, t, whole, smallest, largest⟩ := exists_run positive (l * d + j + 1)
    have after : q + 1 ≤ n := @quotient_le d n (q + 1) 0 t positive (by linarith) (Int.le_refl 0) largest
    have reaches : (q + 1) * d ≤ n * d := Int.mul_le_mul_of_nonneg_right after (by omega)
    refine ⟨n * d - 1, .inr (.inr ?_), by linarith, by linarith, ?_⟩
    · rw [whole, run_ediv smallest largest]
    · rw [show n * d - 1 = (n - 1) * d + d - 1 by ring, stop, drift_run low high]
      have : q * e ≤ (n - 1) * e := Int.mul_le_mul_of_nonneg_right (by omega) (by omega)
      linarith

end Runs

/-! ### The source's check -/

/-- The range of the source's 128-bit numbers. -/
def Fits (x : ℤ) : Prop :=
  -2 ^ 127 ≤ x ∧ x < 2 ^ 127

instance (x : ℤ) : Decidable (Fits x) :=
  inferInstanceAs (Decidable (_ ∧ _))

def checked (x : ℤ) : Option ℤ :=
  if Fits x then some x else none

/-- The drift at a dividend, as the source adds it up. -/
def value (m d e bias x : ℤ) : Option ℤ := do
  let steps ← checked (x.tdiv d * e)
  let rise ← checked (x.tmod d * m)
  let sum ← checked (steps + rise)
  checked (sum + bias)

/-- The dividends that are looked at: the ends, and the first and last start and end of a
    run that are between them. -/
def points (d lo hi : ℤ) : Option (List ℤ) := do
  let run ← checked (lo.tdiv d * d)
  let past ← checked (run + d)
  let loEnd ← checked (past - 1)
  let hiStart ← checked (hi.tdiv d * d)
  let next ← checked (hi + 1)
  let whole ← checked (next.tdiv d * d)
  let lastEnd ← checked (whole - 1)
  let up ← checked (lo + d)
  let up ← checked (up - 1)
  let firstStart ← checked (up.tdiv d * d)
  some (lo :: hi :: [loEnd, hiStart, lastEnd, firstStart].filter fun p => decide (lo ≤ p ∧ p ≤ hi))

/-- The check of a multiplier, a shift and a divisor over the dividends from `lo` to `hi`. -/
def quotientAgrees (m : ℤ) (shift : ℕ) (d bias lo hi : ℤ) : Option Bool :=
  if m ≤ 0 ∨ d ≤ 0 ∨ lo < 0 ∨ hi < lo ∨ 126 ≤ shift then
    some false
  else
    match (checked (m * d)).bind fun product => checked (product - 2 ^ shift) with
    | none => some false
    | some e => (points d lo hi).map fun ps => ps.all fun x =>
      match value m d e bias x with
      | some v => decide (0 ≤ v ∧ v < 2 ^ shift)
      | none => false

def candidateDivisor (m : ℤ) (shift : ℕ) : Option (Option ℤ) :=
  if m ≤ 1 ∨ 126 ≤ shift then
    some none
  else do
    let sum ← checked (2 ^ shift + m)
    let sum ← checked (sum - 1)
    let d := sum.tdiv m
    some (if 3 ≤ d ∧ d ≤ 2 ^ 64 - 1 then some d else none)

def unsignedDivisor (magic : UInt64) (shift : UInt32) (max : UInt64) : Option (Option UInt64) := do
  match ← candidateDivisor magic.toNat shift.toNat with
  | none => some none
  | some d =>
    let ok ← quotientAgrees magic.toNat shift.toNat d 0 0 max.toNat
    some (if ok then some (UInt64.ofNat d.toNat) else none)

def signedDivisor (magic : UInt64) (shift bits : UInt32) : Option (Option UInt64) :=
  if ¬(2 ≤ bits ∧ bits ≤ 64) then
    some none
  else do
    match ← candidateDivisor magic.toNat shift.toNat with
    | none => some none
    | some d =>
      let top : ℤ := 2 ^ (bits.toNat - 1)
      let half ← checked (top - 1)
      let ok ← quotientAgrees magic.toNat shift.toNat d 0 0 half
      let ok ← if ok then quotientAgrees magic.toNat shift.toNat d (-1) 1 top else some false
      some (if ok then some (UInt64.ofNat d.toNat) else none)

theorem checked_eq_some_iff {x y : ℤ} : checked x = some y ↔ Fits x ∧ x = y := by
  rw [checked]
  split
  · simp [*]
  · simp [*]

theorem checked_of_fits {x : ℤ} (fits : Fits x) : checked x = some x :=
  checked_eq_some_iff.mpr ⟨fits, rfl⟩

theorem value_eq_some_iff {m d e bias x v : ℤ} (least : 0 ≤ x) : value m d e bias x = some v ↔
    Fits (x / d * e) ∧ Fits (x % d * m) ∧ Fits (x / d * e + x % d * m) ∧ Fits (drift m d e bias x) ∧
      drift m d e bias x = v := by
  simp only [value, Int.tdiv_eq_ediv_of_nonneg least, Int.tmod_eq_emod_of_nonneg least, Option.bind_eq_bind,
    Option.bind_eq_some_iff, checked_eq_some_iff, drift]
  constructor
  · rintro ⟨_, ⟨steps, rfl⟩, _, ⟨rise, rfl⟩, _, ⟨sum, rfl⟩, all, rfl⟩
    exact ⟨steps, rise, sum, all, rfl⟩
  · rintro ⟨steps, rise, sum, all, rfl⟩
    exact ⟨_, ⟨steps, rfl⟩, _, ⟨rise, rfl⟩, _, ⟨sum, rfl⟩, all, rfl⟩

section Points

variable {d lo hi : ℤ}

theorem mem_points (positive : 0 < d) (least : 0 ≤ lo) (ordered : lo ≤ hi) {ps : List ℤ} (points : points d lo hi = some ps)
    (p : ℤ) : p ∈ ps ↔ lo ≤ p ∧ p ≤ hi ∧ (p = lo ∨ p = hi ∨ p = lo / d * d + d - 1 ∨ p = hi / d * d ∨
      p = (hi + 1) / d * d - 1 ∨ p = (lo + d - 1) / d * d) := by
  simp only [Reciprocals.points, Option.bind_eq_bind, Option.bind_eq_some_iff, checked_eq_some_iff] at points
  obtain ⟨_, ⟨-, rfl⟩, _, ⟨-, rfl⟩, _, ⟨-, rfl⟩, _, ⟨-, rfl⟩, _, ⟨-, rfl⟩, _, ⟨-, rfl⟩, _, ⟨-, rfl⟩, _, ⟨-, rfl⟩, _,
    ⟨-, rfl⟩, _, ⟨-, rfl⟩, same⟩ := points
  rw [Int.tdiv_eq_ediv_of_nonneg least, Int.tdiv_eq_ediv_of_nonneg (by omega), Int.tdiv_eq_ediv_of_nonneg (by omega),
    Int.tdiv_eq_ediv_of_nonneg (by omega)] at same
  simp only [Option.some.injEq] at same
  rw [← same, List.mem_cons, List.mem_cons, List.mem_filter, decide_eq_true_iff]
  simp only [List.mem_cons, List.not_mem_nil, or_false]
  constructor
  · rintro (rfl | rfl | ⟨named, low, high⟩)
    · exact ⟨Int.le_refl _, ordered, .inl rfl⟩
    · exact ⟨ordered, Int.le_refl _, .inr (.inl rfl)⟩
    · exact ⟨low, high, .inr (.inr named)⟩
  · rintro ⟨low, high, rfl | rfl | named⟩
    · exact .inl rfl
    · exact .inr (.inl rfl)
    · exact .inr (.inr ⟨named, low, high⟩)

theorem ediv_mul_bounds (positive : 0 < d) {x : ℤ} (least : 0 ≤ x) : 0 ≤ x / d * d ∧ x / d * d ≤ x :=
  ⟨Int.mul_nonneg (Int.ediv_nonneg least (by omega)) (by omega), Int.ediv_mul_le x (by omega)⟩

theorem points_exist (positive : 0 < d) (least : 0 ≤ lo) (ordered : lo ≤ hi) (first : Fits (lo + d)) (last : Fits (hi + 1)) :
    ∃ ps, points d lo hi = some ps := by
  obtain ⟨low₁, high₁⟩ := ediv_mul_bounds positive least
  obtain ⟨low₂, high₂⟩ := ediv_mul_bounds positive (Int.le_trans least ordered)
  obtain ⟨low₃, high₃⟩ := ediv_mul_bounds positive (x := hi + 1) (by omega)
  obtain ⟨low₄, high₄⟩ := ediv_mul_bounds positive (x := lo + d - 1) (by omega)
  unfold Fits at first last
  rw [points, Int.tdiv_eq_ediv_of_nonneg least, Int.tdiv_eq_ediv_of_nonneg (Int.le_trans least ordered)]
  simp only [Option.bind_eq_bind]
  rw [checked_of_fits (by unfold Fits; omega), Option.bind_some, checked_of_fits (by unfold Fits; omega), Option.bind_some,
    checked_of_fits (by unfold Fits; omega), Option.bind_some, checked_of_fits (by unfold Fits; omega), Option.bind_some,
    checked_of_fits last, Option.bind_some, Int.tdiv_eq_ediv_of_nonneg (by omega),
    checked_of_fits (by unfold Fits; omega), Option.bind_some, checked_of_fits (by unfold Fits; omega), Option.bind_some,
    checked_of_fits first, Option.bind_some, checked_of_fits (by unfold Fits; omega), Option.bind_some,
    Int.tdiv_eq_ediv_of_nonneg (by omega), checked_of_fits (by unfold Fits; omega), Option.bind_some]
  exact ⟨_, rfl⟩

end Points

/-! ### What the check settles -/

/-- The multiplication and the shift give the quotient over the whole interval. -/
def Agrees (m : ℤ) (shift : ℕ) (d bias lo hi : ℤ) : Prop :=
  ∀ x, lo ≤ x → x ≤ hi → (m * x + bias) / 2 ^ shift = x / d

/-- No step of the check leaves the 128-bit range. -/
structure InRange (m : ℤ) (shift : ℕ) (d lo hi : ℤ) : Prop where
  product : Fits (m * d)
  steps : ∀ x, lo ≤ x → x ≤ hi → Fits (x / d * (m * d - 2 ^ shift))
  rises : ∀ x, lo ≤ x → x ≤ hi → Fits (x % d * m)
  sums : ∀ x, lo ≤ x → x ≤ hi → Fits (x / d * (m * d - 2 ^ shift) + x % d * m)
  first : Fits (lo + d)
  last : Fits (hi + 1)

section Check

variable {m d bias lo hi : ℤ} {shift : ℕ}

theorem quotientAgrees_sound (agrees : quotientAgrees m shift d bias lo hi = some true) : Agrees m shift d bias lo hi := by
  rw [quotientAgrees] at agrees
  split at agrees
  · cases agrees
  rename_i accepted
  push Not at accepted
  obtain ⟨multiplier, divisor, least, ordered, -⟩ := accepted
  split at agrees
  · cases agrees
  rename_i e isDrift
  obtain ⟨_, product, isDrift⟩ := Option.bind_eq_some_iff.mp isDrift
  obtain ⟨-, rfl⟩ := checked_eq_some_iff.mp product
  obtain ⟨-, rfl⟩ := checked_eq_some_iff.mp isDrift
  obtain ⟨ps, known, all⟩ := Option.map_eq_some_iff.mp agrees
  have inside : ∀ p ∈ ps, 0 ≤ drift m d (m * d - 2 ^ shift) bias p ∧ drift m d (m * d - 2 ^ shift) bias p < 2 ^ shift := by
    intro p member
    have looked := List.all_eq_true.mp all p member
    split at looked
    · rename_i v read
      have above := ((mem_points divisor least ordered known p).mp member).1
      obtain ⟨-, -, -, -, rfl⟩ := (value_eq_some_iff (by omega)).mp read
      exact of_decide_eq_true looked
    · cases looked
  intro x above below
  rw [ediv_eq_iff_drift divisor (by positivity)]
  obtain ⟨p, named, low, high, under⟩ := @least_drift m d (m * d - 2 ^ shift) bias lo hi x divisor (by omega) above below
  obtain ⟨q, named', low', high', upper⟩ := @greatest_drift m d (m * d - 2 ^ shift) bias lo hi x divisor (by omega) above below
  have small := inside p ((mem_points divisor least ordered known p).mpr ⟨low, high, by tauto⟩)
  have large := inside q ((mem_points divisor least ordered known q).mpr ⟨low', high', by tauto⟩)
  omega

theorem quotientAgrees_iff (multiplier : 0 < m) (divisor : 0 < d) (least : 0 ≤ lo) (ordered : lo ≤ hi) (short : shift < 126)
    (range : InRange m shift d lo hi) :
    ∃ ok, quotientAgrees m shift d bias lo hi = some ok ∧ (ok = true ↔ Agrees m shift d bias lo hi) := by
  have wide : (2 : ℤ) ^ shift < 2 ^ 126 := pow_lt_pow_right₀ (by decide) short
  have positive : (0 : ℤ) < 2 ^ shift := by positivity
  have product := range.product
  have isPositive : 0 < m * d := Int.mul_pos multiplier divisor
  have isDrift : ((checked (m * d)).bind fun product => checked (product - 2 ^ shift)) = some (m * d - 2 ^ shift) := by
    unfold Fits at product
    rw [checked_of_fits range.product, Option.bind_some, checked_of_fits (by unfold Fits; omega)]
  obtain ⟨ps, known⟩ := points_exist divisor least ordered range.first range.last
  have guard : ¬(m ≤ 0 ∨ d ≤ 0 ∨ lo < 0 ∨ hi < lo ∨ 126 ≤ shift) := by omega
  cases result : quotientAgrees m shift d bias lo hi with
  | none =>
    rw [quotientAgrees, if_neg guard, isDrift] at result
    dsimp only at result
    rw [known] at result
    cases result
  | some ok =>
    refine ⟨ok, rfl, ?_, ?_⟩
    · rintro rfl
      exact quotientAgrees_sound result
    · intro agrees
      rw [quotientAgrees, if_neg guard, isDrift] at result
      dsimp only at result
      rw [known, Option.map_some, Option.some.injEq] at result
      rw [← result, List.all_eq_true]
      intro p member
      obtain ⟨above, below, -⟩ := (mem_points divisor least ordered known p).mp member
      obtain ⟨low, high⟩ := (ediv_eq_iff_drift divisor positive p).mp (agrees p above below)
      have read : value m d (m * d - 2 ^ shift) bias p = some (drift m d (m * d - 2 ^ shift) bias p) :=
        (value_eq_some_iff (by omega)).mpr ⟨range.steps p above below, range.rises p above below,
          range.sums p above below, by unfold Fits; omega, rfl⟩
      rw [read]
      exact decide_eq_true ⟨low, high⟩

end Check

/-- What the check does not refuse at once. -/
def Accepted (m : ℤ) (shift : ℕ) (d lo hi : ℤ) : Prop :=
  0 < m ∧ 0 < d ∧ 0 ≤ lo ∧ lo ≤ hi ∧ shift < 126

theorem quotientAgrees_exact {m d lo hi : ℤ} {shift : ℕ} (range : InRange m shift d lo hi) (bias : ℤ) :
    ∃ ok, quotientAgrees m shift d bias lo hi = some ok ∧
      (ok = true ↔ Accepted m shift d lo hi ∧ Agrees m shift d bias lo hi) := by
  by_cases accepted : Accepted m shift d lo hi
  · obtain ⟨multiplier, divisor, least, ordered, short⟩ := id accepted
    obtain ⟨ok, result, exact⟩ := @quotientAgrees_iff m d bias lo hi shift multiplier divisor least ordered short range
    exact ⟨ok, result, exact.trans ⟨fun agrees => ⟨accepted, agrees⟩, And.right⟩⟩
  · refine ⟨false, if_pos ?_, by simp, fun both => absurd both.1 accepted⟩
    unfold Accepted at accepted
    omega

/-! ### The two callers -/

section Callers

variable {m d lo hi : ℤ} {shift : ℕ}

theorem candidate_total (least : 0 ≤ m) (most : m < 2 ^ 64) : ∃ c, candidateDivisor m shift = some c ∧
    ∀ d, c = some d → 2 ≤ m ∧ shift < 126 ∧ 3 ≤ d ∧ d < 2 ^ 64 ∧ 2 ^ shift ≤ m * d ∧ m * d < 2 ^ shift + m := by
  rw [candidateDivisor]
  split
  · exact ⟨none, rfl, by rintro d ⟨⟩⟩
  · rename_i accepted
    push Not at accepted
    have wide : (2 : ℤ) ^ shift < 2 ^ 126 := pow_lt_pow_right₀ (by decide) accepted.2
    have positive : (0 : ℤ) < 2 ^ shift := by positivity
    rw [checked_of_fits (by unfold Fits; omega), Option.bind_eq_bind, Option.bind_some,
      checked_of_fits (by unfold Fits; omega), Option.bind_some, Int.tdiv_eq_ediv_of_nonneg (by omega)]
    refine ⟨_, rfl, ?_⟩
    intro d isDivisor
    split at isDivisor
    · rename_i bounds
      cases isDivisor
      have quotient := Int.mul_ediv_add_emod (2 ^ shift + m - 1) m
      have rest := Int.emod_nonneg (2 ^ shift + m - 1) (show m ≠ 0 by omega)
      have small := Int.emod_lt_of_pos (2 ^ shift + m - 1) (show 0 < m by omega)
      exact ⟨by omega, accepted.2, bounds.1, by omega, by omega, by omega⟩
    · cases isDivisor

theorem inRange_of_candidate (multiplier : 2 ≤ m) (most : m < 2 ^ 64) (short : shift < 126) (divisor : 3 ≤ d)
    (below : d < 2 ^ 64) (enough : 2 ^ shift ≤ m * d) (tight : m * d < 2 ^ shift + m) (least : 0 ≤ lo) (ordered : lo ≤ hi)
    (high : hi ≤ 2 ^ 64) : InRange m shift d lo hi := by
  have wide : (2 : ℤ) ^ shift ≤ 2 ^ 125 := pow_le_pow_right₀ (by decide) (by omega)
  have positive : (0 : ℤ) < 2 ^ shift := by positivity
  have steps : ∀ x, lo ≤ x → x ≤ hi → 0 ≤ x / d * (m * d - 2 ^ shift) ∧ x / d * (m * d - 2 ^ shift) ≤ 2 ^ 127 - 2 ^ 125 := by
    intro x above under
    have quotient : x / d ≤ 2 ^ 63 - 2 ^ 61 := by
      have := Int.ediv_mul_le x (show d ≠ 0 by omega)
      have := Int.mul_le_mul_of_nonneg_left divisor (Int.ediv_nonneg (show 0 ≤ x by omega) (show 0 ≤ d by omega))
      omega
    have nonneg := Int.ediv_nonneg (show 0 ≤ x by omega) (show 0 ≤ d by omega)
    constructor
    · exact Int.mul_nonneg nonneg (by omega)
    · calc x / d * (m * d - 2 ^ shift) ≤ (2 ^ 63 - 2 ^ 61) * (m * d - 2 ^ shift) :=
            Int.mul_le_mul_of_nonneg_right quotient (by omega)
        _ ≤ (2 ^ 63 - 2 ^ 61) * 2 ^ 64 := by omega
        _ = 2 ^ 127 - 2 ^ 125 := by decide
  have rises : ∀ x, 0 ≤ x % d * m ∧ x % d * m < 2 ^ shift := by
    intro x
    have rest := Int.emod_nonneg x (show d ≠ 0 by omega)
    have small := Int.emod_lt_of_pos x (show 0 < d by omega)
    constructor
    · exact Int.mul_nonneg rest (by omega)
    · have : x % d * m ≤ (d - 1) * m := Int.mul_le_mul_of_nonneg_right (by omega) (by omega)
      have : (d - 1) * m = m * d - m := by ring
      omega
  constructor
  · unfold Fits
    omega
  · intro x above under
    have := steps x above under
    unfold Fits
    omega
  · intro x above under
    have := rises x
    unfold Fits
    omega
  · intro x above under
    have := steps x above under
    have := rises x
    unfold Fits
    omega
  · unfold Fits
    omega
  · unfold Fits
    omega

end Callers

/-- The checks that the two functions ask for. -/
inductive Asked (magic : UInt64) (shift : UInt32) (max : UInt64) (bits : UInt32) : ℤ → ℤ → ℤ → ℤ → Prop
  | unsigned {d : ℤ} (candidate : candidateDivisor magic.toNat shift.toNat = some (some d)) :
    Asked magic shift max bits d 0 0 max.toNat
  | positive {d : ℤ} (candidate : candidateDivisor magic.toNat shift.toNat = some (some d)) (width : 2 ≤ bits ∧ bits ≤ 64) :
    Asked magic shift max bits d 0 0 (2 ^ (bits.toNat - 1) - 1)
  | negative {d : ℤ} (candidate : candidateDivisor magic.toNat shift.toNat = some (some d)) (width : 2 ≤ bits ∧ bits ≤ 64) :
    Asked magic shift max bits d (-1) 1 (2 ^ (bits.toNat - 1))

theorem asked_inRange {magic max : UInt64} {shift bits : UInt32} {d bias lo hi : ℤ}
    (asked : Asked magic shift max bits d bias lo hi) :
    Accepted magic.toNat shift.toNat d lo hi ∧ InRange magic.toNat shift.toNat d lo hi := by
  have small : (magic.toNat : ℤ) < 2 ^ 64 := by exact_mod_cast magic.toNat_lt
  obtain ⟨c, found, pinned⟩ := @candidate_total magic.toNat shift.toNat (by omega) small
  have known : ∀ {d}, candidateDivisor magic.toNat shift.toNat = some (some d) → c = some d := by
    intro d candidate
    exact Option.some.inj (found.symm.trans candidate)
  have top : 2 ≤ bits ∧ bits ≤ 64 → (2 : ℤ) ≤ 2 ^ (bits.toNat - 1) ∧ (2 : ℤ) ^ (bits.toNat - 1) ≤ 2 ^ 63 := by
    rintro ⟨low, high⟩
    have least : 2 ≤ bits.toNat := low
    have most : bits.toNat ≤ 64 := high
    constructor
    · calc (2 : ℤ) = 2 ^ 1 := by decide
        _ ≤ 2 ^ (bits.toNat - 1) := pow_le_pow_right₀ (by decide) (by omega)
    · exact pow_le_pow_right₀ (by decide) (by omega)
  cases asked with
  | unsigned candidate =>
    obtain ⟨multiplier, short, divisor, below, enough, tight⟩ := pinned d (known candidate)
    have bound : (max.toNat : ℤ) < 2 ^ 64 := by exact_mod_cast max.toNat_lt
    exact ⟨⟨by omega, by omega, Int.le_refl 0, by omega, short⟩,
      inRange_of_candidate multiplier small short divisor below enough tight (Int.le_refl 0) (by omega) (by omega)⟩
  | positive candidate width =>
    obtain ⟨multiplier, short, divisor, below, enough, tight⟩ := pinned d (known candidate)
    obtain ⟨low, high⟩ := top width
    exact ⟨⟨by omega, by omega, Int.le_refl 0, by omega, short⟩,
      inRange_of_candidate multiplier small short divisor below enough tight (Int.le_refl 0) (by omega) (by omega)⟩
  | negative candidate width =>
    obtain ⟨multiplier, short, divisor, below, enough, tight⟩ := pinned d (known candidate)
    obtain ⟨low, high⟩ := top width
    exact ⟨⟨by omega, by omega, by decide, by omega, short⟩,
      inRange_of_candidate multiplier small short divisor below enough tight (by decide) (by omega) (by omega)⟩

/-- No step of the unsigned search overflows, and the divisor it returns is exact on every
    dividend. -/
def UnsignedExact (magic : UInt64) (shift : UInt32) (max : UInt64) : Prop :=
  ∃ found, unsignedDivisor magic shift max = some found ∧ ∀ d, found = some d →
    ∀ x : ℤ, 0 ≤ x → x ≤ max.toNat → magic.toNat * x / 2 ^ shift.toNat = x / d.toNat

/-- The same for the signed search, whose quotient is truncated. -/
def SignedExact (magic : UInt64) (shift bits : UInt32) : Prop :=
  ∃ found, signedDivisor magic shift bits = some found ∧ ∀ d, found = some d →
    ∀ x : ℤ, -2 ^ (bits.toNat - 1) ≤ x → x < 2 ^ (bits.toNat - 1) →
      magic.toNat * x / 2 ^ shift.toNat + (if x < 0 then 1 else 0) = x.tdiv d.toNat

theorem ofNat_toNat {d : ℤ} (least : 0 ≤ d) (most : d < 2 ^ 64) : ((UInt64.ofNat d.toNat).toNat : ℤ) = d := by
  rw [UInt64.toNat_ofNat_of_lt' (by show d.toNat < 2 ^ 64; omega)]
  omega

theorem unsignedDivisor_exact (magic : UInt64) (shift : UInt32) (max : UInt64) : UnsignedExact magic shift max := by
  have small : (magic.toNat : ℤ) < 2 ^ 64 := by exact_mod_cast magic.toNat_lt
  obtain ⟨c, candidate, pinned⟩ := @candidate_total magic.toNat shift.toNat (by omega) small
  cases c with
  | none =>
    refine ⟨none, ?_, by rintro d ⟨⟩⟩
    rw [unsignedDivisor, candidate]
    rfl
  | some d =>
    obtain ⟨-, -, divisor, below, -⟩ := pinned d rfl
    obtain ⟨-, range⟩ := asked_inRange (@Asked.unsigned magic shift max 0 d candidate)
    obtain ⟨ok, checks, exact⟩ := quotientAgrees_exact range 0
    refine ⟨if ok then some (UInt64.ofNat d.toNat) else none, ?_, ?_⟩
    · rw [unsignedDivisor, candidate]
      simp only [Option.bind_eq_bind, Option.bind_some]
      rw [checks]
      rfl
    · intro n found x least most
      split at found
      · rename_i agreed
        cases found
        rw [ofNat_toNat (by omega) below, ← (exact.mp agreed).2 x least most, Int.add_zero]
      · cases found

/-- What is one short of a floor below zero is the truncation. -/
theorem negative_quotient {m span d y : ℤ} (positive : 0 < span) (agrees : (m * y + -1) / span = y / d) (least : 0 ≤ y) :
    m * -y / span + 1 = (-y).tdiv d := by
  rw [Int.neg_tdiv, Int.tdiv_eq_ediv_of_nonneg least, ← agrees]
  generalize quotient : (m * y + -1) / span = q
  obtain ⟨low, high⟩ := (Int.ediv_eq_iff_of_pos positive).mp quotient
  have : m * -y / span = -q - 1 := by
    rw [Int.ediv_eq_iff_of_pos positive]
    constructor
    · linarith
    · linarith
  omega

theorem signedDivisor_exact (magic : UInt64) (shift bits : UInt32) : SignedExact magic shift bits := by
  have small : (magic.toNat : ℤ) < 2 ^ 64 := by exact_mod_cast magic.toNat_lt
  by_cases width : 2 ≤ bits ∧ bits ≤ 64
  · obtain ⟨c, candidate, pinned⟩ := @candidate_total magic.toNat shift.toNat (by omega) small
    cases c with
    | none =>
      refine ⟨none, ?_, by rintro d ⟨⟩⟩
      rw [signedDivisor, if_neg (not_not_intro width), candidate]
      rfl
    | some d =>
      obtain ⟨-, -, divisor, below, -⟩ := pinned d rfl
      obtain ⟨-, positiveRange⟩ := asked_inRange (@Asked.positive magic shift 0 bits d candidate width)
      obtain ⟨-, negativeRange⟩ := asked_inRange (@Asked.negative magic shift 0 bits d candidate width)
      obtain ⟨ok, checks, exact⟩ := quotientAgrees_exact positiveRange 0
      obtain ⟨ok', checks', exact'⟩ := quotientAgrees_exact negativeRange (-1)
      have half : checked ((2 : ℤ) ^ (bits.toNat - 1) - 1) = some (2 ^ (bits.toNat - 1) - 1) := by
        have high : bits.toNat ≤ 64 := width.2
        have : (2 : ℤ) ^ (bits.toNat - 1) ≤ 2 ^ 63 := pow_le_pow_right₀ (by decide) (by omega)
        have : (0 : ℤ) < 2 ^ (bits.toNat - 1) := by positivity
        exact checked_of_fits (by unfold Fits; omega)
      refine ⟨if ok ∧ ok' then some (UInt64.ofNat d.toNat) else none, ?_, ?_⟩
      · rw [signedDivisor, if_neg (not_not_intro width), candidate]
        simp only [Option.bind_eq_bind, Option.bind_some]
        rw [half, Option.bind_some, checks, Option.bind_some, checks']
        cases ok <;> cases ok' <;> rfl
      · intro n found x least most
        split at found
        · rename_i agreed
          cases found
          rw [ofNat_toNat (by omega) below]
          by_cases negative : x < 0
          · rw [if_pos negative]
            have := negative_quotient (by positivity) ((exact'.mp agreed.2).2 (-x) (by omega) (by omega)) (by omega)
            rwa [Int.neg_neg] at this
          · rw [if_neg negative, Int.tdiv_eq_ediv_of_nonneg (by omega), ← (exact.mp agreed.1).2 x (by omega) (by omega),
              Int.add_zero, Int.add_zero]
        · cases found
  · exact ⟨none, if_pos width, by rintro d ⟨⟩⟩

/-- Every divisor that is returned is the exact one on all dividends, no check that is asked
    for overflows, and each check is true exactly when the quotients agree. -/
theorem reciprocals_exact (magic : UInt64) (shift : UInt32) (max : UInt64) (bits : UInt32) :
    UnsignedExact magic shift max ∧ SignedExact magic shift bits ∧
    (∀ d bias lo hi, Asked magic shift max bits d bias lo hi →
      Accepted magic.toNat shift.toNat d lo hi ∧ InRange magic.toNat shift.toNat d lo hi) ∧
    ∀ m s d bias lo hi, InRange m s d lo hi → ∃ ok, quotientAgrees m s d bias lo hi = some ok ∧
      (ok = true ↔ Accepted m s d lo hi ∧ Agrees m s d bias lo hi) :=
  ⟨unsignedDivisor_exact magic shift max, signedDivisor_exact magic shift bits, fun _ _ _ _ => asked_inRange,
    fun _ _ _ bias _ _ range => quotientAgrees_exact range bias⟩

example : unsignedDivisor 0xcccccccd 34 0xffffffff = some (some 5) := by decide +kernel

end E5r.Reciprocals
