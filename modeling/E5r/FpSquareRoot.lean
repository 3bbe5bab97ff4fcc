import E5r.FpNumbers
import Mathlib.Analysis.Real.Sqrt

/-!
The square root that the interpreter returns is the real square root rounded onto
the numbers of the format: the integer root of the scaled value rounds the scaled
root, no root lies half-way between two numbers, and the quotient that the
integer root is taken of fits into 128 bits.
-/
namespace E5r.FpBits
open PtxSyntax (RMode)
open FpModel (Fmt signed two_zpow_pos two_zpow_le two_zpow_lt two_zpow_add two_zpow_natCast)
open Roundings
open Limbs

variable {f : Fmt} {a : BitVec 64}

section
variable {y : ℚ}

private theorem natCast_le_sqrt (nonneg : 0 ≤ y) (j : ℕ) : (j : ℝ) ≤ √(y : ℝ) ↔ ((j * j : ℕ) : ℚ) ≤ y := by
  rw [Real.le_sqrt (Nat.cast_nonneg j) (by exact_mod_cast nonneg), sq, ← Nat.cast_mul, ← Rat.cast_natCast, Rat.cast_le]

private theorem sqrt_le_natCast (j : ℕ) : √(y : ℝ) ≤ (j : ℝ) ↔ y ≤ ((j * j : ℕ) : ℚ) := by
  rw [Real.sqrt_le_left (Nat.cast_nonneg j), sq, ← Nat.cast_mul, ← Rat.cast_natCast, Rat.cast_le]

private theorem half_cast (k : ℕ) : (k : ℝ) + 1 / 2 = ((((2 * k + 1 : ℕ) : ℚ) / 2 : ℚ) : ℝ) := by
  push_cast
  ring

private theorem sqrt_lt_half (k : ℕ) :
    √(y : ℝ) < k + 1 / 2 ↔ y < ((2 * k + 1 : ℕ) : ℚ) / 2 * (((2 * k + 1 : ℕ) : ℚ) / 2) := by
  rw [Real.sqrt_lt' (by positivity), half_cast, sq, ← Rat.cast_mul, Rat.cast_lt]

private theorem half_lt_sqrt (k : ℕ) :
    (k : ℝ) + 1 / 2 < √(y : ℝ) ↔ ((2 * k + 1 : ℕ) : ℚ) / 2 * (((2 * k + 1 : ℕ) : ℚ) / 2) < y := by
  rw [Real.lt_sqrt (by positivity), half_cast, sq, ← Rat.cast_mul, Rat.cast_lt]

private theorem sqrt_between (nonneg : 0 ≤ y) :
    ((Nat.sqrt y.floor.toNat : ℕ) : ℝ) ≤ √(y : ℝ) ∧ √(y : ℝ) < (Nat.sqrt y.floor.toNat : ℕ) + 1 := by
  obtain ⟨low, high⟩ := sqrt_floor_spec nonneg
  refine ⟨(natCast_le_sqrt nonneg _).mpr low, ?_⟩
  by_contra above
  have reached : ((Nat.sqrt y.floor.toNat + 1 : ℕ) : ℝ) ≤ √(y : ℝ) := by
    push_cast
    exact not_lt.mp above
  exact absurd high (not_lt.mpr ((natCast_le_sqrt nonneg _).mp reached))

theorem roundIntSqrt_spec (m : RMode) (nonneg : 0 ≤ y) :
    ∃ K : ℕ, FpModel.roundIntSqrt m y = K ∧
      (K = Nat.sqrt y.floor.toNat ∨ K = Nat.sqrt y.floor.toNat + 1) ∧
      match m with
      | .rn => ∀ j : ℕ, |(K : ℝ) - √(y : ℝ)| ≤ |(j : ℝ) - √(y : ℝ)|
      | .rz | .rm => (K : ℝ) ≤ √(y : ℝ) ∧ ∀ j : ℕ, (j : ℝ) ≤ √(y : ℝ) → j ≤ K
      | .rp => √(y : ℝ) ≤ K ∧ ∀ j : ℕ, √(y : ℝ) ≤ j → K ≤ j := by
  obtain ⟨low, high⟩ := sqrt_between nonneg
  have square := (natCast_le_sqrt nonneg _).mp low
  simp only [FpModel.roundIntSqrt]
  generalize Nat.sqrt y.floor.toNat = k at low high square
  have greatest (j : ℕ) (le : (j : ℝ) ≤ √(y : ℝ)) : j ≤ k := by
    have : (j : ℝ) < ((k + 1 : ℕ) : ℝ) := by
      push_cast
      exact lt_of_le_of_lt le high
    exact Nat.lt_succ_iff.mp (by exact_mod_cast this)
  cases m with
  | rz => exact ⟨k, rfl, .inl rfl, low, greatest⟩
  | rm => exact ⟨k, rfl, .inl rfl, low, greatest⟩
  | rn =>
    have nearest (K : ℕ) (down : √(y : ℝ) < k + 1 / 2 → K = k) (up : k + 1 / 2 < √(y : ℝ) → K = k + 1)
        (either : K = k ∨ K = k + 1) := nearest_nat low high down up either
    by_cases below : y < ((2 * k + 1 : ℕ) : ℚ) / 2 * (((2 * k + 1 : ℕ) : ℚ) / 2)
    · have under := (sqrt_lt_half k).mpr below
      exact ⟨k, by simp only [if_pos below], .inl rfl,
        nearest k (fun _ => rfl) (fun above => absurd under (lt_asymm above)) (.inl rfl)⟩
    · have past : ¬√(y : ℝ) < k + 1 / 2 := fun under => below ((sqrt_lt_half k).mp under)
      by_cases above : ((2 * k + 1 : ℕ) : ℚ) / 2 * (((2 * k + 1 : ℕ) : ℚ) / 2) < y
      · exact ⟨k + 1, by rw [if_neg below, if_pos above]; push_cast; rfl, .inr rfl,
          nearest (k + 1) (fun under => absurd under past) (fun _ => rfl) (.inr rfl)⟩
      · have level : ¬k + 1 / 2 < √(y : ℝ) := fun strict => above ((half_lt_sqrt k).mp strict)
        have either : k + k % 2 = k ∨ k + k % 2 = k + 1 := by omega
        exact ⟨k + k % 2, by rw [if_neg below, if_neg above]; push_cast; rfl,
          either, nearest _ (fun under => absurd under past) (fun strict => absurd strict level) either⟩
  | rp =>
    by_cases exact : y = ((k * k : ℕ) : ℚ)
    · refine ⟨k, by simp only [if_pos exact], .inl rfl, (sqrt_le_natCast k).mpr (le_of_eq exact), ?_⟩
      intro j ge
      exact_mod_cast le_trans low ge
    · refine ⟨k + 1, by simp only [if_neg exact, Nat.cast_add, Nat.cast_one], .inr rfl, ?_, ?_⟩
      · push_cast
        exact le_of_lt high
      · intro j ge
        have least : k ≤ j := by exact_mod_cast le_trans low ge
        refine lt_of_le_of_ne least ?_
        rintro rfl
        exact exact (le_antisymm ((sqrt_le_natCast _).mp ge) square)

end

private theorem sqrt_scaled {x : ℚ} (e : ℤ) (nonneg : 0 ≤ x) :
    √(x : ℝ) = √((x / 2 ^ (2 * e) : ℚ) : ℝ) * ((2 ^ e : ℚ) : ℝ) := by
  have unit := two_zpow_pos e
  have square : x = x / 2 ^ (2 * e) * (2 ^ e * 2 ^ e) := by
    rw [two_mul, two_zpow_add, div_mul_cancel₀ _ (ne_of_gt (mul_pos unit unit))]
  have nonnegR : (0 : ℝ) ≤ ((x / 2 ^ (2 * e) : ℚ) : ℝ) := by
    exact_mod_cast div_nonneg nonneg (le_of_lt (two_zpow_pos _))
  have unitR : (0 : ℝ) ≤ ((2 ^ e : ℚ) : ℝ) := by exact_mod_cast le_of_lt unit
  conv_lhs => rw [square, Rat.cast_mul, Rat.cast_mul]
  rw [Real.sqrt_mul nonnegR, Real.sqrt_mul_self unitR]

/-- No number of the format is the square of a half-way point. -/
private theorem not_halfway {n k : ℕ} {q e : ℤ} (short : n < 2 ^ (f.fb + 1)) (full : 2 ^ f.fb ≤ k) :
    (n : ℚ) * 2 ^ q / 2 ^ (2 * e) ≠ ((2 * k + 1 : ℕ) : ℚ) / 2 * (((2 * k + 1 : ℕ) : ℚ) / 2) := by
  intro same
  have scaled : (n : ℚ) * 2 ^ (q + 2) = ((2 * k + 1) * (2 * k + 1) : ℕ) * 2 ^ (2 * e) := by
    rw [div_eq_iff (ne_of_gt (two_zpow_pos _))] at same
    rw [two_zpow_add, ← mul_assoc, same]
    push_cast
    ring
  have long : n < (2 * k + 1) * (2 * k + 1) := by
    rw [pow_succ] at short
    nlinarith
  -- the odd square has the lower exponent, so the other side is even
  by_cases lower : 2 * e < q + 2
  · obtain ⟨gap, exponent⟩ := Int.eq_ofNat_of_zero_le (by omega : 0 ≤ q + 2 - 2 * e - 1)
    have split : q + 2 = ((gap + 1 : ℕ) : ℤ) + 2 * e := by
      push_cast
      omega
    rw [split, two_zpow_add, ← mul_assoc, mul_left_inj' (ne_of_gt (two_zpow_pos _)), two_zpow_natCast] at scaled
    have whole : n * 2 ^ (gap + 1) = (2 * k + 1) * (2 * k + 1) := by exact_mod_cast scaled
    have odd : (2 * k + 1) * (2 * k + 1) = 2 * (2 * (k * k) + 2 * k) + 1 := by ring
    rw [pow_succ, ← mul_assoc, odd] at whole
    omega
  · have more : (n : ℚ) * 2 ^ (q + 2) < ((2 * k + 1) * (2 * k + 1) : ℕ) * 2 ^ (2 * e) :=
      calc (n : ℚ) * 2 ^ (q + 2) ≤ n * 2 ^ (2 * e) :=
            mul_le_mul_of_nonneg_left (two_zpow_le (by omega)) (Nat.cast_nonneg n)
        _ < ((2 * k + 1) * (2 * k + 1) : ℕ) * 2 ^ (2 * e) :=
            mul_lt_mul_of_pos_right (by exact_mod_cast long) (two_zpow_pos _)
    exact absurd scaled (ne_of_lt more)

/-- The model's square root of a positive number of the format is the real root
    rounded onto the format. -/
theorem roundSqrtQ_rounded (fits : FitsWord f) (m : RMode) {n : ℕ} {q : ℤ} (short : n < 2 ^ (f.fb + 1))
    (positive : (0 : ℚ) < n * 2 ^ q) (least : f.emin - f.fb ≤ Int.log 2 ((n : ℚ) * 2 ^ q))
    (most : Int.log 2 ((n : ℚ) * 2 ^ q) ≤ f.emax) :
    Rounded f m √((n * 2 ^ q : ℚ) : ℝ) (f.encode (FpModel.roundSqrtQ f m (n * 2 ^ q))) := by
  obtain ⟨low, high, place⟩ := root_range fits positive least
  have wide := fits.wide
  have eminEq : f.emin = 1 - f.bias := rfl
  have emaxEq : f.emax = f.bias := rfl
  have root := sqrt_scaled (rootPlace f ((n : ℚ) * 2 ^ q)) (le_of_lt positive)
  have apart (k : ℕ) (full : 2 ^ f.fb ≤ k) := @not_halfway f n k q (rootPlace f ((n : ℚ) * 2 ^ q)) short full
  rw [roundSqrtQ_eq positive]
  generalize rootPlace f ((n : ℚ) * 2 ^ q) = e at *
  generalize (n : ℚ) * 2 ^ q / 2 ^ (2 * e) = y at *
  have nonneg : 0 ≤ y := le_trans (Nat.cast_nonneg _) low
  obtain ⟨K', bounded, bounds⟩ := roundIntSqrt_bounds m nonneg
  obtain ⟨K, rounded, either, spec⟩ := roundIntSqrt_spec m nonneg
  obtain rfl : K' = K := by
    rw [bounded] at rounded
    exact_mod_cast rounded
  have unit := two_zpow_pos e
  have some : 0 < K' := lt_of_lt_of_le (Nat.two_pow_pos _) ((bounds _).1 low)
  have bound : K' ≤ 2 ^ (f.fb + 1) := (bounds _).2 (le_of_lt high)
  have limit : (K' : ℚ) * 2 ^ e < 2 ^ (f.emax + 1) :=
    calc (K' : ℚ) * 2 ^ e ≤ ((2 ^ (f.fb + 1) : ℕ) : ℚ) * 2 ^ e :=
          mul_le_mul_of_nonneg_right (by exact_mod_cast bound) (le_of_lt unit)
      _ = 2 ^ (((f.fb + 1 : ℕ) : ℤ) + e) := by rw [← two_zpow_natCast, ← two_zpow_add]
      _ < 2 ^ (f.emax + 1) := two_zpow_lt (by push_cast; omega)
  obtain ⟨value, member⟩ := encode_value fits false some bound (by omega) limit
  rw [FpModel.signed_false] at value member
  have grid := numbers_onGrid fits e
  have floor : ((2 ^ f.fb : ℕ) : ℝ) ≤ √(y : ℝ) := (natCast_le_sqrt nonneg _).mpr low
  rw [bounded, Int.cast_natCast, root]
  cases m with
  | rn =>
    rw [Rounded, value]
    refine ⟨grid.nearest unit member floor spec, ?_⟩
    intro s inside other tied
    exfalso
    obtain ⟨j, different, level⟩ := grid.tie unit floor spec inside other tied
    obtain ⟨below, above⟩ := sqrt_between nonneg
    have halfway := halfway_of_tie below above either different spec level
    have full : 2 ^ f.fb ≤ Nat.sqrt y.floor.toNat := by
      have reach := lt_of_le_of_lt floor above
      exact Nat.lt_succ_iff.mp (by exact_mod_cast reach)
    refine apart _ full (le_antisymm ?_ ?_)
    · exact not_lt.mp (fun strict => ne_of_lt ((half_lt_sqrt _).mpr strict) halfway.symm)
    · exact not_lt.mp (fun strict => ne_of_lt ((sqrt_lt_half _).mpr strict) halfway)
  | rz =>
    rw [Rounded, if_pos (mul_nonneg (Real.sqrt_nonneg _) (by exact_mod_cast le_of_lt unit)), value]
    exact grid.roundsDown unit member floor spec.1 spec.2
  | rm =>
    rw [Rounded, value]
    exact grid.roundsDown unit member floor spec.1 spec.2
  | rp =>
    rw [Rounded, value]
    exact grid.roundsUp unit member floor spec.1 spec.2

def rootQuotient (f : Fmt) (a : BitVec 64) : ℕ := (rootParts f a).1.toNat / (rootParts f a).2.toNat

/-- The square root of a positive finite pattern is the pattern of the model,
    which is the real root of the pattern's value rounded in the mode, and exact
    where the root is a number of the format. The quotient fits into 128 bits,
    its integer root is exact, and nothing panics. A subnormal pattern that
    `.ftz` flushes is a zero instead. -/
theorem fsqrt_correct (known : f = .f32 ∨ f = .f64) (m : RMode) (ftz : Bool) (inside : InFormat f a)
    (positive : sgn f a = false) (nonzero : isZero f a = false) (number : isNan f a = false)
    (finite : isInf f a = false) :
    if ftz && isSub f a then fsqrt f m ftz a = some (some (zero f false))
    else ∃ r, fsqrt f m ftz a = some (some r) ∧ InFormat f r ∧
      r.toNat = f.encode (FpModel.roundSqrtQ f m (f.toQ a.toNat)) ∧
      Rounded f m √(f.toQ a.toNat : ℝ) r.toNat ∧
      (∀ s ∈ numbers f, 0 ≤ s → s * s = f.toQ a.toNat → f.toQ r.toNat = s) ∧
      (∃ rest, (rootParts f a).1.divremSmall (rootParts f a).2 = some (rootQuotient f a, rest)) ∧
      rootQuotient f a < 2 ^ 128 ∧ isqrt (rootQuotient f a) = Nat.sqrt (rootQuotient f a) := by
  have fits := fitsWord_of_known known
  rw [sgn_eq fits] at positive
  have positiveCode := sgn_eq fits a
  rw [positive] at positiveCode
  by_cases tiny : (ftz && isSub f a) = true
  · have flushed : flush f ftz a = zero f false := by rw [flush, if_pos tiny, positiveCode]
    have isZeroNat : isZero f (zero f false) = true := by simp [isZero, bexp, frac, zero]
    have isNanZero : isNan f (zero f false) = false := by simp [isNan, frac, zero]
    rw [if_pos tiny]
    simp only [fsqrt, flushed, isNanZero, isZeroNat, Bool.false_eq_true, if_false, if_true]
  · rw [if_neg tiny]
    have kept : flush f ftz a = a := by rw [flush, if_neg tiny]
    obtain ⟨same, -⟩ := toNat_flush fits ftz inside
    rw [kept] at same
    obtain ⟨result, computed, agrees⟩ := fsqrt_agrees fits m ftz inside
    rw [isZero_eq fits] at nonzero
    rw [isNan_eq fits] at number
    rw [isInf_eq fits] at finite
    have model : FpModel.fsqrt f m ftz a.toNat =
        some (f.encode (FpModel.roundSqrtQ f m (f.toQ a.toNat))) := by
      simp only [FpModel.fsqrt, ← same, number, nonzero, positive, finite, Bool.false_eq_true, if_false]
    rw [model] at agrees
    cases agrees with
    | @some r _ pattern =>
      have bounded := finite_of_number number finite
      obtain ⟨whole, least, most, -⟩ := size_range fits bounded nonzero
      obtain ⟨canonical, -⟩ := canonical_toQ fits bounded nonzero
      have size : (toQ f a).size = ((toQ f a).n.toNat : ℚ) * 2 ^ (toQ f a).e := by
        rw [Q.size, (toNat_toQ a).2, Nat.cast_one, div_one]
      have sign : (toQ f a).neg = f.sgn a.toNat := sgn_eq fits a
      have value := value_toQ fits a
      rw [Q.value_eq, sign, positive, FpModel.signed_false, size] at value
      rw [size] at whole least most
      have rounded := roundSqrtQ_rounded fits m canonical.short whole least most
      rw [value] at rounded
      obtain ⟨-, -, rest, divided, short, root⟩ := rootParts_spec fits bounded nonzero
      refine ⟨r, computed, pattern.2, pattern.1, by rw [pattern.1]; exact rounded, ?_, ⟨rest, divided⟩,
        lt_trans short (by norm_num), root⟩
      intro s member nonneg square
      rw [pattern.1]
      refine rounded.exact member ?_
      rw [← square, Rat.cast_mul, Real.sqrt_mul_self (by exact_mod_cast nonneg)]

/-- The root of two is rounded up. -/
theorem fsqrt_correct_two : fsqrt .f32 .rn false 0x40000000#64 = some (some 0x3fb504f3#64) := by
  have correct := fsqrt_correct (f := .f32) (.inl rfl) .rn false (a := 0x40000000#64) (by unfold InFormat; decide)
    (by decide) (by decide) (by decide) (by decide)
  obtain ⟨r, computed, -, pattern, -⟩ := correct
  have root : Fmt.f32.encode (FpModel.roundSqrtQ .f32 .rn (Fmt.f32.toQ 0x40000000)) = 0x3fb504f3 := by decide +kernel
  have same : r = 0x3fb504f3#64 := BitVec.eq_of_toNat_eq (by rw [pattern]; exact root)
  rw [computed, same]

end E5r.FpBits
