import Mathlib.Data.Int.Log
import Mathlib.Tactic.Positivity
import E5r.FpModel

/-!
How the rounding of the model acts on a quotient of natural numbers. The
logarithm is Mathlib's (`ilog2_eq_log`), rounding a quotient to an integer looks
at its remainder (`roundInt_quotient`), and the rounded significand tells the
overflow and the tininess of the result (`overflows_iff`, `tiny_iff`).
-/
namespace E5r.FpModel
open PtxSyntax (RMode)

theorem pow2_eq (k : ℤ) : pow2 k = (2 : ℚ) ^ k := by
  rw [pow2]
  by_cases nonneg : 0 ≤ k
  · obtain ⟨n, rfl⟩ := Int.eq_ofNat_of_zero_le nonneg
    simp
  · obtain ⟨n, negated⟩ := Int.eq_ofNat_of_zero_le (by omega : 0 ≤ -k)
    obtain rfl : k = -(n : ℤ) := by omega
    rw [if_neg nonneg]
    simp

theorem two_zpow_pos (k : ℤ) : (0 : ℚ) < 2 ^ k := zpow_pos (by norm_num) k

theorem two_zpow_add (j k : ℤ) : (2 : ℚ) ^ (j + k) = 2 ^ j * 2 ^ k := zpow_add₀ (by norm_num) j k

theorem two_zpow_natCast (n : ℕ) : (2 : ℚ) ^ (n : ℤ) = ((2 ^ n : ℕ) : ℚ) := by simp

theorem two_zpow_le {j k : ℤ} (le : j ≤ k) : (2 : ℚ) ^ j ≤ 2 ^ k := zpow_le_zpow_right₀ (by norm_num) le

theorem two_zpow_lt {j k : ℤ} (lt : j < k) : (2 : ℚ) ^ j < 2 ^ k := zpow_lt_zpow_right₀ (by norm_num) lt

theorem log_unique {q : ℚ} {e : ℤ} (low : (2 : ℚ) ^ e ≤ q) (high : q < 2 ^ (e + 1)) : Int.log 2 q = e := by
  have positive : 0 < q := lt_of_lt_of_le (two_zpow_pos e) low
  have above : e ≤ Int.log 2 q := (Int.zpow_le_iff_le_log (by norm_num) positive).mp (by exact_mod_cast low)
  have below : Int.log 2 q < e + 1 := (Int.lt_zpow_iff_log_lt (by norm_num) positive).mp (by exact_mod_cast high)
  omega

theorem log_spec {q : ℚ} (positive : 0 < q) : (2 : ℚ) ^ Int.log 2 q ≤ q ∧ q < 2 ^ (Int.log 2 q + 1) := by
  refine ⟨?_, ?_⟩
  · exact_mod_cast Int.zpow_log_le_self (b := 2) (by norm_num) positive
  · exact_mod_cast Int.lt_zpow_succ_log_self (b := 2) (by norm_num) q

/-- A logarithm that is one too large at most is corrected by one comparison. -/
theorem log_of_near {q : ℚ} {k : ℤ} (low : (2 : ℚ) ^ (k - 1) ≤ q) (high : q < 2 ^ (k + 1)) :
    (if q < 2 ^ k then k - 1 else k) = Int.log 2 q := by
  by_cases less : q < 2 ^ k
  · rw [if_pos less]
    exact (log_unique low (by simpa using less)).symm
  · rw [if_neg less]
    exact (log_unique (not_lt.mp less) high).symm

theorem quotient_near {n d i j : ℕ} (lowN : 2 ^ i ≤ n) (highN : n < 2 ^ (i + 1)) (lowD : 2 ^ j ≤ d)
    (highD : d < 2 ^ (j + 1)) :
    (2 : ℚ) ^ ((i : ℤ) - j - 1) ≤ (n : ℚ) / d ∧ (n : ℚ) / d < 2 ^ ((i : ℤ) - j + 1) := by
  have denPos : (0 : ℚ) < d := by exact_mod_cast lt_of_lt_of_le (Nat.two_pow_pos j) lowD
  have numLow : (2 : ℚ) ^ (i : ℤ) ≤ n := by rw [two_zpow_natCast]; exact_mod_cast lowN
  have numHigh : (n : ℚ) < 2 ^ ((i + 1 : ℕ) : ℤ) := by rw [two_zpow_natCast]; exact_mod_cast highN
  have denLow : (2 : ℚ) ^ (j : ℤ) ≤ d := by rw [two_zpow_natCast]; exact_mod_cast lowD
  have denHigh : (d : ℚ) < 2 ^ ((j + 1 : ℕ) : ℤ) := by rw [two_zpow_natCast]; exact_mod_cast highD
  constructor
  · rw [le_div_iff₀ denPos]
    calc (2 : ℚ) ^ ((i : ℤ) - j - 1) * d ≤ 2 ^ ((i : ℤ) - j - 1) * 2 ^ ((j + 1 : ℕ) : ℤ) :=
          mul_le_mul_of_nonneg_left (le_of_lt denHigh) (le_of_lt (two_zpow_pos _))
      _ = 2 ^ (i : ℤ) := by
          rw [← two_zpow_add]
          congr 1
          push_cast
          ring
      _ ≤ n := numLow
  · rw [div_lt_iff₀ denPos]
    calc (n : ℚ) < 2 ^ ((i + 1 : ℕ) : ℤ) := numHigh
      _ = 2 ^ ((i : ℤ) - j + 1) * 2 ^ (j : ℤ) := by
          rw [← two_zpow_add]
          congr 1
          push_cast
          ring
      _ ≤ 2 ^ ((i : ℤ) - j + 1) * d := mul_le_mul_of_nonneg_left denLow (le_of_lt (two_zpow_pos _))

theorem ilog2_eq_log {q : ℚ} (positive : 0 < q) : ilog2 q = Int.log 2 q := by
  have numPos : q.num.natAbs ≠ 0 := Int.natAbs_ne_zero.mpr (ne_of_gt (Rat.num_pos.mpr positive))
  have whole : (q.num.natAbs : ℚ) / q.den = q := by
    have cast : ((q.num.natAbs : ℕ) : ℤ) = q.num := Int.natAbs_of_nonneg (le_of_lt (Rat.num_pos.mpr positive))
    have castQ : (q.num.natAbs : ℚ) = (q.num : ℚ) := by rw [← Int.cast_natCast, cast]
    rw [castQ, Rat.num_div_den]
  obtain ⟨low, high⟩ := quotient_near (Nat.log2_self_le numPos) Nat.lt_log2_self
    (Nat.log2_self_le q.den_nz) Nat.lt_log2_self
  rw [whole] at low high
  rw [ilog2, pow2_eq]
  exact log_of_near low high

/-- A number with the sign that `neg` gives. -/
def signed {R : Type} [Neg R] (neg : Bool) (x : R) : R := if neg then -x else x

@[simp] theorem signed_false {R : Type} [Neg R] (x : R) : signed false x = x := rfl
@[simp] theorem signed_true {R : Type} [Neg R] (x : R) : signed true x = -x := rfl

theorem abs_signed (neg : Bool) (x : ℚ) : |signed neg x| = |x| := by cases neg <;> simp

/-- Whether rounding an absolute value with quotient `k` and remainder `r` by
    `b` goes away from zero. -/
def roundsUp (m : RMode) (neg : Bool) (k r b : ℕ) : Bool :=
  match m with
  | .rn => decide (b < 2 * r) || (decide (2 * r = b) && decide (k % 2 = 1))
  | .rz => false
  | .rm => neg && decide (r ≠ 0)
  | .rp => !neg && decide (r ≠ 0)

private theorem floor_def (x : ℚ) : x.floor = ⌊x⌋ := rfl
private theorem ceil_def (x : ℚ) : x.ceil = ⌈x⌉ := by
  rw [Rat.ceil_eq_neg_floor_neg, floor_def, Int.floor_neg, neg_neg]

section
variable {x : ℚ} {k r b : ℕ}

private theorem rest_bounds (inside : r < b) : (0 : ℚ) ≤ (r : ℚ) / b ∧ (r : ℚ) / b < 1 := by
  have part : (0 : ℚ) < b := by exact_mod_cast Nat.zero_lt_of_lt inside
  refine ⟨div_nonneg (Nat.cast_nonneg r) (le_of_lt part), ?_⟩
  rw [div_lt_one part]
  exact_mod_cast inside

theorem floor_parts (inside : r < b) (whole : x = k + (r : ℚ) / b) : ⌊x⌋ = (k : ℤ) := by
  obtain ⟨low, high⟩ := rest_bounds inside
  rw [Int.floor_eq_iff, whole]
  constructor
  · push_cast
    linarith
  · push_cast
    linarith

theorem ceil_parts (inside : r < b) (whole : x = k + (r : ℚ) / b) :
    ⌈x⌉ = ((k + (decide (r ≠ 0)).toNat : ℕ) : ℤ) := by
  obtain ⟨low, high⟩ := rest_bounds inside
  rw [whole]
  by_cases exact : r = 0
  · simp [exact]
  · have part : (0 : ℚ) < b := by exact_mod_cast Nat.zero_lt_of_lt inside
    have some : (0 : ℚ) < (r : ℚ) / b := div_pos (by exact_mod_cast Nat.pos_of_ne_zero exact) part
    rw [Int.ceil_eq_iff]
    constructor
    · simp [exact]
      linarith
    · simp [exact]
      linarith

private theorem half_iff (inside : r < b) :
    ((r : ℚ) / b < 1 / 2 ↔ 2 * r < b) ∧ (1 / 2 < (r : ℚ) / b ↔ b < 2 * r) := by
  have part : (0 : ℚ) < b := by exact_mod_cast Nat.zero_lt_of_lt inside
  constructor
  · rw [div_lt_div_iff₀ part (by norm_num), one_mul, mul_comm]
    norm_cast
  · rw [div_lt_div_iff₀ (by norm_num) part, one_mul, mul_comm]
    norm_cast

private theorem round_nearest (inside : r < b) (whole : x = k + (r : ℚ) / b) :
    roundInt .rn x = ((k + (roundsUp .rn false k r b).toNat : ℕ) : ℤ) := by
  obtain ⟨below, above⟩ := half_iff inside
  have rest : x - ((k : ℤ) : ℚ) = (r : ℚ) / b := by
    rw [whole]
    push_cast
    ring
  simp only [roundInt, floor_def, floor_parts inside whole, rest, below, above, roundsUp]
  rcases lt_trichotomy (2 * r) b with less | tie | more
  · have : ¬ b < 2 * r := by omega
    simp [less, ne_of_lt less, this]
  · simp only [tie, lt_irrefl, if_false, decide_true, decide_false, Bool.false_or, Bool.true_and]
    by_cases odd : k % 2 = 1
    · simp [odd]
      omega
    · simp [odd]
      omega
  · have : ¬ 2 * r < b := by omega
    simp [more, this]

private theorem round_nearest_neg (inside : r < b) (whole : x = k + (r : ℚ) / b) :
    roundInt .rn (-x) = -((k + (roundsUp .rn false k r b).toNat : ℕ) : ℤ) := by
  obtain ⟨below, above⟩ := half_iff inside
  by_cases exact : r = 0
  · have integral : x = ((k : ℤ) : ℚ) := by
      rw [whole, exact]
      simp
    have floor : ⌊-x⌋ = -(k : ℤ) := by
      rw [integral]
      exact_mod_cast Int.floor_intCast (-(k : ℤ))
    have zero : -x - ((-(k : ℤ) : ℤ) : ℚ) = 0 := by
      rw [integral]
      push_cast
      ring
    have none : roundsUp .rn false k r b = false := by
      simp [roundsUp, exact]
      omega
    simp only [roundInt, floor_def, floor, zero, none]
    norm_num
  · have floor : ⌊-x⌋ = -((k : ℤ) + 1) := by
      rw [Int.floor_neg, ceil_parts inside whole]
      simp [exact]
    have rest : -x - ((-((k : ℤ) + 1) : ℤ) : ℚ) = 1 - (r : ℚ) / b := by
      rw [whole]
      push_cast
      ring
    have swapBelow : 1 - (r : ℚ) / b < 1 / 2 ↔ b < 2 * r := by
      rw [← above]
      constructor <;> intro h <;> linarith
    have swapAbove : 1 / 2 < 1 - (r : ℚ) / b ↔ 2 * r < b := by
      rw [← below]
      constructor <;> intro h <;> linarith
    simp only [roundInt, floor_def, floor, rest, swapBelow, swapAbove, roundsUp]
    rcases lt_trichotomy (2 * r) b with less | tie | more
    · have : ¬ b < 2 * r := by omega
      simp [less, ne_of_lt less, this]
    · simp only [tie, lt_irrefl, if_false, decide_true, decide_false, Bool.false_or, Bool.true_and]
      by_cases odd : k % 2 = 1
      · simp [odd]
        omega
      · simp [odd]
        omega
    · have : ¬ 2 * r < b := by omega
      simp [more]

private theorem roundInt_parts (m : RMode) (neg : Bool) (inside : r < b) (whole : x = k + (r : ℚ) / b) :
    roundInt m (signed neg x) = signed neg ((k + (roundsUp m neg k r b).toNat : ℕ) : ℤ) := by
  have nonneg : 0 ≤ x := by
    rw [whole]
    exact add_nonneg (Nat.cast_nonneg k) (rest_bounds inside).1
  have floor := floor_parts inside whole
  have ceil := ceil_parts inside whole
  cases m with
  | rn =>
    cases neg with
    | false => exact round_nearest inside whole
    | true => exact round_nearest_neg inside whole
  | rz =>
    cases neg with
    | false => simp [roundInt, not_lt.mpr nonneg, floor_def, floor, roundsUp]
    | true =>
      show (if -x < 0 then (-x).ceil else (-x).floor) = _
      by_cases zero : x = 0
      · have none : k = 0 := by
          rw [zero] at floor
          simpa using floor.symm
        simp [zero, none, roundsUp, floor_def]
      · have some : 0 < x := lt_of_le_of_ne nonneg (Ne.symm zero)
        rw [if_pos (by linarith), ceil_def, Int.ceil_neg, floor]
        simp [roundsUp]
  | rm =>
    cases neg with
    | false => simp [roundInt, floor_def, floor, roundsUp]
    | true =>
      show (-x).floor = _
      rw [floor_def, Int.floor_neg, ceil]
      simp [roundsUp]
  | rp =>
    cases neg with
    | false =>
      show x.ceil = _
      rw [ceil_def, ceil]
      simp [roundsUp]
    | true =>
      show (-x).ceil = _
      rw [ceil_def, Int.ceil_neg, floor]
      simp [roundsUp]
end

theorem quotient_parts (a b : ℕ) (positive : 0 < b) :
    (a : ℚ) / b = ((a / b : ℕ) : ℚ) + ((a % b : ℕ) : ℚ) / b := by
  have nonzero : (b : ℚ) ≠ 0 := by exact_mod_cast Nat.pos_iff_ne_zero.mp positive
  have whole : (a : ℚ) = b * ((a / b : ℕ) : ℚ) + ((a % b : ℕ) : ℚ) := by exact_mod_cast (Nat.div_add_mod a b).symm
  rw [div_eq_iff nonzero, add_mul, div_mul_cancel₀ _ nonzero, mul_comm]
  exact whole

theorem roundInt_quotient (m : RMode) (neg : Bool) (a b : ℕ) (positive : 0 < b) :
    roundInt m (signed neg ((a : ℚ) / b)) =
      signed neg ((a / b + (roundsUp m neg (a / b) (a % b) b).toNat : ℕ) : ℤ) :=
  roundInt_parts m neg (Nat.mod_lt a positive) (quotient_parts a b positive)

theorem roundInt_signed (m : RMode) (neg : Bool) {x : ℚ} (nonneg : 0 ≤ x) :
    ∃ K : ℕ, roundInt m (signed neg x) = signed neg (K : ℤ) ∧
      ∀ n : ℕ, ((n : ℚ) ≤ x → n ≤ K) ∧ (x ≤ n → K ≤ n) := by
  have numerator : ((x.num.natAbs : ℕ) : ℚ) / x.den = x := by
    have cast : ((x.num.natAbs : ℕ) : ℤ) = x.num := Int.natAbs_of_nonneg (Rat.num_nonneg.mpr nonneg)
    have castQ : (x.num.natAbs : ℚ) = (x.num : ℚ) := by rw [← Int.cast_natCast, cast]
    rw [castQ, Rat.num_div_den]
  have rounded := roundInt_quotient m neg x.num.natAbs x.den x.den_pos
  rw [numerator] at rounded
  refine ⟨_, rounded, fun n => ⟨?_, ?_⟩⟩
  · intro below
    rw [← numerator, le_div_iff₀ (by exact_mod_cast x.den_pos)] at below
    have : n * x.den ≤ x.num.natAbs := by exact_mod_cast below
    have := (Nat.le_div_iff_mul_le x.den_pos).mpr this
    omega
  · intro above
    rw [← numerator, div_le_iff₀ (by exact_mod_cast x.den_pos)] at above
    have bound : x.num.natAbs ≤ n * x.den := by exact_mod_cast above
    obtain exact | inside := Nat.eq_or_lt_of_le bound
    · rw [exact, Nat.mul_div_cancel _ x.den_pos, Nat.mul_mod_left]
      have : roundsUp m neg n 0 x.den = false := by
        have := x.den_pos
        cases m <;> simp [roundsUp]
        omega
      simp [this]
    · have := (Nat.div_lt_iff_lt_mul x.den_pos).mpr inside
      have := Bool.toNat_le (roundsUp m neg (x.num.natAbs / x.den) (x.num.natAbs % x.den) x.den)
      omega

theorem signed_inj {neg : Bool} {j k : ℕ} (same : signed neg (j : ℤ) = signed neg (k : ℤ)) : j = k := by
  cases neg with
  | false =>
    simp only [signed_false] at same
    omega
  | true =>
    simp only [signed_true] at same
    omega

theorem signed_div (neg : Bool) (x y : ℚ) : signed neg x / y = signed neg (x / y) := by
  cases neg with
  | false => rfl
  | true => exact neg_div y x

theorem signed_mul (neg : Bool) (x y : ℚ) : signed neg x * y = signed neg (x * y) := by
  cases neg with
  | false => rfl
  | true => exact neg_mul x y

theorem signed_cast (neg : Bool) (k : ℕ) : ((signed neg (k : ℤ) : ℤ) : ℚ) = signed neg (k : ℚ) := by
  cases neg with
  | false => rfl
  | true => simp

theorem signed_eq_zero {neg : Bool} {x : ℚ} : signed neg x = 0 ↔ x = 0 := by cases neg <;> simp

theorem signed_neg_iff (neg : Bool) {x : ℚ} (positive : 0 < x) : decide (signed neg x < 0) = neg := by
  cases neg with
  | false => exact decide_eq_false (not_lt.mpr (le_of_lt positive))
  | true => simpa using positive

/-- The significand that `roundInt` gives for `x` at the last place `2 ^ e`. -/
def RoundsTo (m : RMode) (neg : Bool) (x : ℚ) (e : ℤ) (K : ℕ) : Prop :=
  roundInt m (signed neg (x / 2 ^ e)) = signed neg (K : ℤ)

section
variable {F : Fmt} {m : RMode} {neg : Bool} {x : ℚ} {e : ℤ} {K : ℕ}

theorem roundsTo_exists (m : RMode) (neg : Bool) (positive : 0 < x) (e : ℤ) : ∃ K, RoundsTo m neg x e K := by
  obtain ⟨K, rounded, -⟩ := roundInt_signed m neg (le_of_lt (div_pos positive (two_zpow_pos e)))
  exact ⟨K, rounded⟩

theorem RoundsTo.le (rounded : RoundsTo m neg x e K) (positive : 0 < x) {n : ℕ} (below : (n : ℚ) * 2 ^ e ≤ x) :
    n ≤ K := by
  obtain ⟨J, rounds, bounds⟩ := roundInt_signed m neg (le_of_lt (div_pos positive (two_zpow_pos e)))
  obtain rfl : J = K := signed_inj (rounds.symm.trans rounded)
  exact (bounds n).1 ((le_div_iff₀ (two_zpow_pos e)).mpr below)

theorem RoundsTo.ge (rounded : RoundsTo m neg x e K) (positive : 0 < x) {n : ℕ} (above : x ≤ (n : ℚ) * 2 ^ e) :
    K ≤ n := by
  obtain ⟨J, rounds, bounds⟩ := roundInt_signed m neg (le_of_lt (div_pos positive (two_zpow_pos e)))
  obtain rfl : J = K := signed_inj (rounds.symm.trans rounded)
  exact (bounds n).2 ((div_le_iff₀ (two_zpow_pos e)).mpr above)

private theorem pow_mul_zpow (n : ℕ) (e : ℤ) : ((2 ^ n : ℕ) : ℚ) * 2 ^ e = 2 ^ ((n : ℤ) + e) := by
  rw [two_zpow_add, two_zpow_natCast]

theorem RoundsTo.le_precision (rounded : RoundsTo m neg x e K) (positive : 0 < x)
    (fits : Int.log 2 x - F.fb ≤ e) : K ≤ 2 ^ (F.fb + 1) := by
  refine rounded.ge positive (le_of_lt (lt_of_lt_of_le (log_spec positive).2 ?_))
  rw [pow_mul_zpow]
  exact two_zpow_le (by push_cast; omega)

theorem RoundsTo.precision_le (rounded : RoundsTo m neg x (Int.log 2 x - F.fb) K) (positive : 0 < x) :
    2 ^ F.fb ≤ K := by
  refine rounded.le positive (le_trans (le_of_eq ?_) (log_spec positive).1)
  rw [pow_mul_zpow]
  congr 1
  ring

theorem precRoundQ_abs (rounded : RoundsTo m neg x (Int.log 2 x - F.fb) K) (positive : 0 < x) :
    |precRoundQ F m (signed neg x)| = (K : ℚ) * 2 ^ (Int.log 2 x - F.fb) := by
  have nonzero : signed neg x ≠ 0 := by
    rw [Ne, signed_eq_zero]
    exact ne_of_gt positive
  rw [precRoundQ, if_neg nonzero]
  simp only [abs_signed, abs_of_pos positive, ilog2_eq_log positive, pow2_eq, signed_div]
  rw [rounded, signed_cast, signed_mul, abs_signed]
  exact abs_of_nonneg (mul_nonneg (Nat.cast_nonneg K) (le_of_lt (two_zpow_pos _)))

theorem overflows_iff (rounded : RoundsTo m neg x (Int.log 2 x - F.fb) K) (positive : 0 < x) :
    overflows F m (signed neg x) = true ↔
      F.emax < Int.log 2 x ∨ (Int.log 2 x = F.emax ∧ K = 2 ^ (F.fb + 1)) := by
  have low := rounded.precision_le positive
  have high := rounded.le_precision (F := F) positive (le_refl _)
  have limit : 2 ^ F.fb ≤ 2 ^ (F.fb + 1) - 1 := by
    have := Nat.two_pow_pos F.fb
    rw [pow_succ]
    omega
  rw [overflows, decide_eq_true_iff, precRoundQ_abs rounded positive, maxFinite, pow2_eq]
  generalize Int.log 2 x = e at *
  obtain less | same | more := lt_trichotomy e F.emax
  · have within : (K : ℚ) * 2 ^ (e - F.fb) ≤ ((2 ^ (F.fb + 1) - 1 : ℕ) : ℚ) * 2 ^ (F.emax - F.fb) :=
      calc (K : ℚ) * 2 ^ (e - F.fb) ≤ ((2 ^ (F.fb + 1) : ℕ) : ℚ) * 2 ^ (e - F.fb) :=
            mul_le_mul_of_nonneg_right (by exact_mod_cast high) (le_of_lt (two_zpow_pos _))
        _ = 2 ^ (((F.fb + 1 : ℕ) : ℤ) + (e - F.fb)) := pow_mul_zpow _ _
        _ ≤ 2 ^ ((F.fb : ℤ) + (F.emax - F.fb)) := two_zpow_le (by push_cast; omega)
        _ = ((2 ^ F.fb : ℕ) : ℚ) * 2 ^ (F.emax - F.fb) := (pow_mul_zpow _ _).symm
        _ ≤ ((2 ^ (F.fb + 1) - 1 : ℕ) : ℚ) * 2 ^ (F.emax - F.fb) :=
            mul_le_mul_of_nonneg_right (by exact_mod_cast limit) (le_of_lt (two_zpow_pos _))
    constructor
    · intro beyond
      exact absurd within (not_le.mpr beyond)
    · rintro (above | ⟨top, -⟩)
      · omega
      · omega
  · subst same
    rw [mul_lt_mul_iff_left₀ (two_zpow_pos _), Nat.cast_lt]
    constructor
    · intro beyond
      exact .inr ⟨rfl, by omega⟩
    · rintro (above | ⟨-, top⟩)
      · exact absurd above (lt_irrefl _)
      · have := Nat.two_pow_pos (F.fb + 1)
        omega
  · have beyond : ((2 ^ (F.fb + 1) - 1 : ℕ) : ℚ) * 2 ^ (F.emax - F.fb) < (K : ℚ) * 2 ^ (e - F.fb) :=
      calc ((2 ^ (F.fb + 1) - 1 : ℕ) : ℚ) * 2 ^ (F.emax - F.fb)
          < ((2 ^ (F.fb + 1) : ℕ) : ℚ) * 2 ^ (F.emax - F.fb) :=
            mul_lt_mul_of_pos_right (by exact_mod_cast Nat.sub_lt (Nat.two_pow_pos _) one_pos) (two_zpow_pos _)
        _ = 2 ^ (((F.fb + 1 : ℕ) : ℤ) + (F.emax - F.fb)) := pow_mul_zpow _ _
        _ ≤ 2 ^ ((F.fb : ℤ) + (e - F.fb)) := two_zpow_le (by push_cast; omega)
        _ = ((2 ^ F.fb : ℕ) : ℚ) * 2 ^ (e - F.fb) := (pow_mul_zpow _ _).symm
        _ ≤ (K : ℚ) * 2 ^ (e - F.fb) :=
            mul_le_mul_of_nonneg_right (by exact_mod_cast low) (le_of_lt (two_zpow_pos _))
    exact iff_of_true beyond (.inl more)

theorem tiny_iff (rounded : RoundsTo m neg x (Int.log 2 x - F.fb) K) (positive : 0 < x) :
    tiny F m (signed neg x) = true ↔
      Int.log 2 x < F.emin ∧ ¬(Int.log 2 x = F.emin - 1 ∧ K = 2 ^ (F.fb + 1)) := by
  have low := rounded.precision_le positive
  have high := rounded.le_precision (F := F) positive (le_refl _)
  have nonzero : signed neg x ≠ 0 := by
    rw [Ne, signed_eq_zero]
    exact ne_of_gt positive
  rw [tiny, Bool.and_eq_true, decide_eq_true_iff, precRoundQ_abs rounded positive, minNormal, pow2_eq,
    bne_iff_ne, and_iff_right nonzero]
  generalize Int.log 2 x = e at *
  by_cases above : F.emin ≤ e
  · have normal : (2 : ℚ) ^ F.emin ≤ K * 2 ^ (e - F.fb) :=
      calc (2 : ℚ) ^ F.emin ≤ 2 ^ ((F.fb : ℤ) + (e - F.fb)) := two_zpow_le (by omega)
        _ = ((2 ^ F.fb : ℕ) : ℚ) * 2 ^ (e - F.fb) := (pow_mul_zpow _ _).symm
        _ ≤ (K : ℚ) * 2 ^ (e - F.fb) :=
            mul_le_mul_of_nonneg_right (by exact_mod_cast low) (le_of_lt (two_zpow_pos _))
    exact iff_of_false (not_lt.mpr normal) (by omega)
  · have split : (2 : ℚ) ^ F.emin = ((2 ^ (F.fb + 1) : ℕ) : ℚ) * 2 ^ (F.emin - 1 - F.fb) := by
      rw [pow_mul_zpow]
      congr 1
      push_cast
      ring
    by_cases border : e = F.emin - 1
    · subst border
      rw [split, mul_lt_mul_iff_left₀ (two_zpow_pos _), Nat.cast_lt]
      omega
    · have small : (K : ℚ) * 2 ^ (e - F.fb) < 2 ^ F.emin :=
        calc (K : ℚ) * 2 ^ (e - F.fb) ≤ ((2 ^ (F.fb + 1) : ℕ) : ℚ) * 2 ^ (e - F.fb) :=
              mul_le_mul_of_nonneg_right (by exact_mod_cast high) (le_of_lt (two_zpow_pos _))
          _ = 2 ^ (((F.fb + 1 : ℕ) : ℤ) + (e - F.fb)) := pow_mul_zpow _ _
          _ < 2 ^ F.emin := two_zpow_lt (by push_cast; omega)
      exact iff_of_true small ⟨by omega, fun ⟨same, _⟩ => border same⟩
end

end E5r.FpModel
