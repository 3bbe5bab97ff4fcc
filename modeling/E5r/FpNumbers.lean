import E5r.FpConvert
import E5r.Roundings

/-!
The finite numbers of a format as a set, and rounding onto it: what the model
rounds to a pattern is, short of an overflow, the value rounded onto the numbers
of the format.
-/
namespace E5r.FpBits
open PtxSyntax (RMode)
open FpModel (Fmt pow2_eq signed abs_signed two_zpow_pos two_zpow_le two_zpow_lt two_zpow_add two_zpow_natCast
  log_spec)
open Roundings
open Limbs

variable {f : Fmt} {a : BitVec 64}

/-- The values of the finite patterns. -/
def numbers (f : Fmt) : Set ℚ := {q | ∃ x : BitVec 64, InFormat f x ∧ f.bexp x.toNat ≠ f.expMax ∧ f.toQ x.toNat = q}

private theorem fields_pattern (f : Fmt) (neg : Bool) {E F : ℕ} (exp : E < 2 ^ f.eb) (short : F < 2 ^ f.fb) :
    f.sgn (f.zero neg + E * 2 ^ f.fb + F) = neg ∧ f.bexp (f.zero neg + E * 2 ^ f.fb + F) = E ∧
      f.frac (f.zero neg + E * 2 ^ f.fb + F) = F := by
  have scale := Nat.two_pow_pos f.fb
  have whole : f.zero neg + E * 2 ^ f.fb + F = F + (E + neg.toNat * 2 ^ f.eb) * 2 ^ f.fb := by
    cases neg with
    | false => simp [Fmt.zero, Nat.add_comm]
    | true =>
      simp only [Fmt.zero, Fmt.signBit, if_true, pow_add, Bool.toNat_true]
      ring
  have quotient : (F + (E + neg.toNat * 2 ^ f.eb) * 2 ^ f.fb) / 2 ^ f.fb = E + neg.toNat * 2 ^ f.eb := by
    rw [Nat.add_mul_div_right _ _ scale, Nat.div_eq_of_lt short, Nat.zero_add]
  rw [Fmt.sgn, Fmt.bexp, Fmt.frac, whole, Nat.add_mul_mod_self_right, Nat.mod_eq_of_lt short, quotient,
    Nat.add_mul_mod_self_right, Nat.mod_eq_of_lt exp, Fmt.signBit, Nat.add_comm f.eb, pow_add, ← Nat.div_div_eq_div_mul,
    quotient, Nat.add_mul_div_right _ _ (Nat.two_pow_pos _), Nat.div_eq_of_lt exp]
  cases neg <;> simp

theorem Canonical.toQ_assemble {mm : ℕ} {qe : ℤ} (fits : FitsWord f) (canonical : Canonical f mm qe) (neg : Bool) :
    f.toQ (assemble f neg mm qe) = signed neg ((mm : ℚ) * 2 ^ qe) ∧ f.bexp (assemble f neg mm qe) ≠ f.expMax := by
  have half : 2 ^ f.eb = 2 * 2 ^ (f.eb - 1) := by
    rw [← pow_succ', Nat.sub_add_cancel (by have := fits.exp; omega)]
  have top : f.expMax = 2 * f.bias + 1 := by
    have := Nat.two_pow_pos (f.eb - 1)
    rw [Fmt.expMax, Fmt.bias, half]
    omega
  have range : f.expMax < 2 ^ f.eb := Nat.sub_lt (Nat.two_pow_pos _) one_pos
  rw [assemble]
  by_cases full : mm < 2 ^ f.fb
  · obtain ⟨sign, exp, frac⟩ := fields_pattern f neg (Nat.two_pow_pos f.eb) full
    have least : qe = f.emin - f.fb := canonical.full.resolve_left (by omega)
    rw [Nat.zero_mul, Nat.add_zero] at sign exp frac
    rw [if_pos full, Fmt.toQ, sign, exp, frac, if_pos rfl, pow2_eq, ← least]
    exact ⟨rfl, by omega⟩
  · obtain ⟨-, above⟩ := canonical.exponent (not_lt.mp full)
    have least := canonical.least
    have short := canonical.short
    rw [Fmt.emax] at above
    rw [Fmt.emin] at least
    rw [pow_succ] at short
    obtain ⟨E, exponent⟩ := Int.eq_ofNat_of_zero_le (by omega : 0 ≤ qe + f.fb + f.bias)
    have inside : E < 2 ^ f.eb := by omega
    obtain ⟨sign, exp, frac⟩ := fields_pattern f neg inside (by omega : mm - 2 ^ f.fb < 2 ^ f.fb)
    have normal : E ≠ 0 := by omega
    have place : (E : ℤ) - f.bias - f.fb = qe := by omega
    rw [if_neg full, exponent, Int.toNat_natCast, Fmt.toQ, sign, exp, frac, if_neg normal,
      Nat.sub_add_cancel (not_lt.mp full), pow2_eq, place]
    exact ⟨rfl, by omega⟩

theorem encode_value (fits : FitsWord f) (neg : Bool) {mm : ℕ} {qe : ℤ} (some : 0 < mm)
    (bound : mm ≤ 2 ^ (f.fb + 1)) (least : f.emin - f.fb ≤ qe) (finite : (mm : ℚ) * 2 ^ qe < 2 ^ (f.emax + 1)) :
    f.toQ (f.encode (signed neg ((mm : ℚ) * 2 ^ qe))) = signed neg ((mm : ℚ) * 2 ^ qe) ∧
      signed neg ((mm : ℚ) * 2 ^ qe) ∈ numbers f := by
  obtain ⟨mm', qe', same, canonical⟩ := canonical_exists some bound least finite
  obtain ⟨value, number⟩ := canonical.toQ_assemble fits neg
  obtain ⟨x, -, pattern, inside⟩ := encode_total fits neg some bound least finite
  rw [← same] at pattern ⊢
  rw [canonical.encode_model] at pattern ⊢
  exact ⟨value, x, inside, by rw [pattern]; exact number, by rw [pattern]; exact value⟩

theorem numbers_onGrid (fits : FitsWord f) (e : ℤ) : OnGrid (numbers f) (2 ^ e) (2 ^ f.fb) := by
  rintro q ⟨x, inside, number, rfl⟩ large
  have floor : (0 : ℚ) < ((2 ^ f.fb : ℕ) : ℚ) * 2 ^ e :=
    mul_pos (by exact_mod_cast Nat.two_pow_pos f.fb) (two_zpow_pos _)
  have nonzero : f.isZero x.toNat = false := by
    by_contra zero
    rw [Bool.not_eq_false, isZero_iff_magnitude, ← units_eq_zero_iff] at zero
    have none : f.toQ x.toNat = 0 := by
      rw [toQ_units, zero, Nat.cast_zero, zero_mul, FpModel.signed_eq_zero]
    rw [none] at large
    exact absurd large (not_le.mpr floor)
  obtain ⟨canonical, -⟩ := canonical_toQ fits number nonzero
  have size : f.toQ x.toNat = signed (f.sgn x.toNat) (((toQ f x).n.toNat : ℚ) * 2 ^ (toQ f x).e) := by
    rw [← value_toQ fits, Q.value, (toNat_toQ x).2, Nat.cast_one, div_one]
    exact congrArg (signed · _) (sgn_eq fits x)
  have positive : (0 : ℚ) < ((toQ f x).n.toNat : ℚ) * 2 ^ (toQ f x).e :=
    mul_pos (by exact_mod_cast canonical.some) (two_zpow_pos _)
  have sign : f.sgn x.toNat = false := by
    by_contra negative
    rw [Bool.not_eq_false] at negative
    rw [size, negative, FpModel.signed_true] at large
    linarith
  rw [sign, FpModel.signed_false] at size
  rw [size] at large ⊢
  -- a significand shorter than the number's would be below the grid
  have place : e ≤ (toQ f x).e := by
    have below : ((toQ f x).n.toNat : ℚ) * 2 ^ (toQ f x).e < 2 ^ (((f.fb + 1 : ℕ) : ℤ) + (toQ f x).e) := by
      rw [two_zpow_add, two_zpow_natCast]
      exact mul_lt_mul_of_pos_right (by exact_mod_cast canonical.short) (two_zpow_pos _)
    rw [← two_zpow_natCast, ← two_zpow_add] at large
    have := (zpow_lt_zpow_iff_right₀ (by norm_num : (1 : ℚ) < 2)).mp (lt_of_le_of_lt large below)
    push_cast at this
    omega
  obtain ⟨n, gap⟩ := Int.eq_ofNat_of_zero_le (by omega : 0 ≤ (toQ f x).e - e)
  refine ⟨(toQ f x).n.toNat * 2 ^ n, ?_⟩
  have exponent : (toQ f x).e = (n : ℤ) + e := by omega
  rw [exponent, two_zpow_add, two_zpow_natCast, Nat.cast_mul, mul_assoc]

theorem numbers_onGrid_least (f : Fmt) : OnGrid (numbers f) (2 ^ (f.emin - f.fb)) 0 := by
  rintro q ⟨x, -, -, rfl⟩ nonneg
  rw [toQ_units] at nonneg ⊢
  cases sign : f.sgn x.toNat with
  | false => exact ⟨units f x.toNat, rfl⟩
  | true =>
    rw [sign, FpModel.signed_true, Nat.cast_zero, zero_mul] at nonneg
    have scaled : 0 ≤ (units f x.toNat : ℚ) * 2 ^ (f.emin - f.fb) :=
      mul_nonneg (Nat.cast_nonneg _) (le_of_lt (two_zpow_pos _))
    refine ⟨0, ?_⟩
    rw [FpModel.signed_true, Nat.cast_zero, zero_mul]
    linarith

theorem numbers_neg (fits : FitsWord f) : ∀ s ∈ numbers f, -s ∈ numbers f := by
  rintro q ⟨x, inside, number, rfl⟩
  obtain ⟨-, parts, negated⟩ := toNat_negBits fits inside
  obtain ⟨sign, exp, frac⟩ := fields_pattern f (!f.sgn x.toNat) (bexp_lt f x.toNat) (frac_lt f x.toNat)
  rw [magnitude_fields, ← Nat.add_assoc] at parts
  rw [← parts] at sign exp frac
  refine ⟨negBits f x, negated, by rw [exp]; exact number, ?_⟩
  rw [Fmt.toQ, Fmt.toQ, sign, exp, frac]
  cases f.sgn x.toNat <;> simp

/-- The pattern is the number `t` rounded onto the numbers of the format, to
    the even one of two nearest numbers. -/
def Rounded (f : Fmt) (m : RMode) (t : ℝ) (x : ℕ) : Prop :=
  match m with
  | .rn => Nearest (numbers f) t (f.toQ x) ∧
      ∀ s ∈ numbers f, s ≠ f.toQ x → |(s : ℝ) - t| = |(f.toQ x : ℝ) - t| → x % 2 = 0
  | .rz => if 0 ≤ t then RoundsDown (numbers f) t (f.toQ x) else RoundsUp (numbers f) t (f.toQ x)
  | .rm => RoundsDown (numbers f) t (f.toQ x)
  | .rp => RoundsUp (numbers f) t (f.toQ x)

theorem Rounded.exact {m : RMode} {t : ℝ} {x : ℕ} (rounded : Rounded f m t x) {s : ℚ} (inside : s ∈ numbers f)
    (same : (s : ℝ) = t) : f.toQ x = s := by
  cases m with
  | rn => exact Nearest.exact rounded.1 inside same
  | rz =>
    by_cases sign : 0 ≤ t
    · rw [Rounded, if_pos sign] at rounded
      exact RoundsDown.exact rounded inside same
    · rw [Rounded, if_neg sign] at rounded
      exact RoundsUp.exact rounded inside same
  | rm => exact RoundsDown.exact rounded inside same
  | rp => exact RoundsUp.exact rounded inside same

/-- The chosen integer is the integer part of the absolute value or the next
    one, to the nearest or in the mode's direction. -/
theorem roundInt_spec (m : RMode) (neg : Bool) {y : ℚ} (nonneg : 0 ≤ y) :
    ∃ K k : ℕ, FpModel.roundInt m (signed neg y) = signed neg (K : ℤ) ∧ (k : ℚ) ≤ y ∧ y < k + 1 ∧
      (K = k ∨ K = k + 1) ∧
      match m with
      | .rn => (y < k + 1 / 2 → K = k) ∧ (k + 1 / 2 < y → K = k + 1) ∧ (y = k + 1 / 2 → K % 2 = 0)
      | .rz => K = k
      | .rm => if neg then y ≤ K ∧ (y = k → K = k) else K = k
      | .rp => if neg then K = k else y ≤ K ∧ (y = k → K = k) := by
  have numerator : ((y.num.natAbs : ℕ) : ℚ) / y.den = y := by
    have cast : ((y.num.natAbs : ℕ) : ℤ) = y.num := Int.natAbs_of_nonneg (Rat.num_nonneg.mpr nonneg)
    have castQ : (y.num.natAbs : ℚ) = (y.num : ℚ) := by rw [← Int.cast_natCast, cast]
    rw [castQ, Rat.num_div_den]
  have rounded := FpModel.roundInt_quotient m neg y.num.natAbs y.den y.den_pos
  have parts := FpModel.quotient_parts y.num.natAbs y.den y.den_pos
  rw [numerator] at rounded parts
  have inside := Nat.mod_lt y.num.natAbs y.den_pos
  have den : (0 : ℚ) < y.den := by exact_mod_cast y.den_pos
  generalize y.num.natAbs / y.den = k at *
  generalize y.num.natAbs % y.den = r at *
  generalize y.den = b at *
  have fraction : (0 : ℚ) ≤ r / b ∧ (r : ℚ) / b < 1 := by
    refine ⟨div_nonneg (Nat.cast_nonneg r) (le_of_lt den), ?_⟩
    rw [div_lt_one den]
    exact_mod_cast inside
  have none : (r : ℚ) / b = 0 ↔ r = 0 := by
    rw [div_eq_zero_iff, or_iff_left (ne_of_gt den), Nat.cast_eq_zero]
  have below : (r : ℚ) / b < 1 / 2 ↔ 2 * r < b := by
    rw [div_lt_div_iff₀ den (by norm_num), one_mul, mul_comm]
    exact_mod_cast Iff.rfl
  have above : (1 : ℚ) / 2 < r / b ↔ b < 2 * r := by
    rw [div_lt_div_iff₀ (by norm_num) den, one_mul, mul_comm]
    exact_mod_cast Iff.rfl
  refine ⟨_, k, rounded, by rw [parts]; linarith, by rw [parts]; linarith, ?_, ?_⟩
  · cases FpModel.roundsUp m neg k r b with
    | false => exact .inl rfl
    | true => exact .inr rfl
  have upward (y' : ℚ) (same : y' = k + r / b) :
      y' ≤ ((k + (decide (r ≠ 0)).toNat : ℕ) : ℚ) ∧ (y' = k → k + (decide (r ≠ 0)).toNat = k) := by
    subst same
    by_cases zero : r = 0
    · simp [zero]
    · refine ⟨?_, ?_⟩
      · simp only [ne_eq, zero, not_false_eq_true, decide_true, Bool.toNat_true, Nat.cast_add, Nat.cast_one]
        linarith
      · intro whole
        exact absurd (none.mp (by linarith)) zero
  cases m with
  | rn =>
    refine ⟨?_, ?_, ?_⟩
    · intro less
      have small := below.mp (by linarith)
      have same : ¬2 * r = b := by omega
      simp [FpModel.roundsUp, not_lt_of_gt small, same]
    · intro more
      have large := above.mp (by linarith)
      simp [FpModel.roundsUp, large]
    · intro half
      have notBelow := mt below.mpr (by linarith)
      have notAbove := mt above.mpr (by linarith)
      have same : 2 * r = b := by omega
      by_cases odd : k % 2 = 1
      · simp [FpModel.roundsUp, same, odd]
        omega
      · simp [FpModel.roundsUp, same, odd]
        omega
  | rz => rfl
  | rm =>
    cases neg with
    | false => rfl
    | true => exact upward y parts
  | rp =>
    cases neg with
    | false => exact upward y parts
    | true => rfl

private theorem zero_even (fits : FitsWord f) (neg : Bool) : f.zero neg % 2 = 0 := by
  cases neg with
  | false => rfl
  | true =>
    have place : f.eb + f.fb = f.eb + f.fb - 1 + 1 := by have := fits.frac; omega
    simp only [Fmt.zero, Fmt.signBit, if_true]
    rw [place, pow_succ]
    omega

private theorem assemble_even (fits : FitsWord f) (neg : Bool) {mm : ℕ} (qe : ℤ) (even : mm % 2 = 0) :
    assemble f neg mm qe % 2 = 0 := by
  have sign := zero_even fits neg
  have place : 2 ^ f.fb % 2 = 0 := by
    have split : f.fb = f.fb - 1 + 1 := by have := fits.frac; omega
    rw [split, pow_succ]
    omega
  have field : (qe + f.fb + f.bias).toNat * 2 ^ f.fb % 2 = 0 := by rw [Nat.mul_mod, place, Nat.mul_zero, Nat.zero_mod]
  rw [assemble]
  split <;> omega

private theorem encode_even (fits : FitsWord f) (neg : Bool) {K : ℕ} {e : ℤ} (some : 0 < K) (bound : K ≤ 2 ^ (f.fb + 1))
    (least : f.emin - f.fb ≤ e) (full : 2 ^ f.fb ≤ K ∨ e = f.emin - f.fb)
    (finite : (K : ℚ) * 2 ^ e < 2 ^ (f.emax + 1)) (even : K % 2 = 0) :
    f.encode (signed neg ((K : ℚ) * 2 ^ e)) % 2 = 0 := by
  by_cases carry : K = 2 ^ (f.fb + 1)
  · have same : (K : ℚ) * 2 ^ e = ((2 ^ f.fb : ℕ) : ℚ) * 2 ^ (e + 1) := by
      rw [carry, pow_succ, zpow_add_one₀ (by norm_num)]
      push_cast
      ring
    have canonical : Canonical f (2 ^ f.fb) (e + 1) :=
      ⟨Nat.two_pow_pos _, Nat.pow_lt_pow_right (by norm_num) (by omega), by omega, .inl (le_refl _),
        by rw [← same]; exact finite⟩
    have place : f.fb = f.fb - 1 + 1 := by have := fits.frac; omega
    rw [same, canonical.encode_model]
    refine assemble_even fits neg (e + 1) ?_
    rw [place, pow_succ]
    omega
  · have canonical : Canonical f K e := ⟨some, lt_of_le_of_ne bound carry, least, full, finite⟩
    rw [canonical.encode_model]
    exact assemble_even fits neg e even

theorem zero_fields (fits : FitsWord f) (neg : Bool) :
    f.bexp (f.zero neg) = 0 ∧ f.frac (f.zero neg) = 0 ∧ f.bexp (f.zero neg) ≠ f.expMax := by
  obtain ⟨-, exp, frac⟩ := fields_pattern f neg (Nat.two_pow_pos f.eb) (Nat.two_pow_pos f.fb)
  simp only [Nat.zero_mul, Nat.add_zero] at exp frac
  refine ⟨exp, frac, ?_⟩
  have : 2 ^ 2 ≤ 2 ^ f.eb := Nat.pow_le_pow_right (by norm_num) fits.exp
  rw [exp, Fmt.expMax]
  omega

theorem zero_value (fits : FitsWord f) (neg : Bool) : f.toQ (f.zero neg) = 0 ∧ (0 : ℚ) ∈ numbers f := by
  obtain ⟨exp, frac, finite⟩ := zero_fields fits neg
  have value : f.toQ (f.zero neg) = 0 := by
    rw [toQ_eq_zero_iff, Fmt.isZero, exp, frac]
    rfl
  exact ⟨value, zero f neg, inFormat_zero fits neg, by rw [toNat_zero fits]; exact finite,
    by rw [toNat_zero fits]; exact value⟩

private theorem grid_of_number (fits : FitsWord f) {x : ℚ} (positive : 0 < x) :
    ∃ N : ℕ, OnGrid (numbers f) (2 ^ lastPlace f x) N ∧ (N : ℚ) ≤ x / 2 ^ lastPlace f x ∧
      (N = 2 ^ f.fb ∨ lastPlace f x = f.emin - f.fb) := by
  by_cases sub : Int.log 2 x < f.emin
  · have place : lastPlace f x = f.emin - f.fb := by rw [lastPlace, max_eq_right (le_of_lt sub)]
    refine ⟨0, by rw [place]; exact numbers_onGrid_least f, ?_, .inr place⟩
    exact_mod_cast div_nonneg (le_of_lt positive) (le_of_lt (two_zpow_pos _))
  · have place : lastPlace f x = Int.log 2 x - f.fb := by rw [lastPlace, max_eq_left (not_lt.mp sub)]
    refine ⟨2 ^ f.fb, numbers_onGrid fits _, ?_, .inl rfl⟩
    rw [le_div_iff₀ (two_zpow_pos _), place, ← two_zpow_natCast, ← two_zpow_add, add_sub_cancel]
    exact (log_spec positive).1

theorem round_rounded (fits : FitsWord f) (m : RMode) (ftz zneg : Bool) {q : ℚ} (nonzero : q ≠ 0)
    (within : FpModel.overflows f m q = false) (kept : (ftz && FpModel.tiny f m q) = false) :
    Rounded f m (q : ℝ) (f.round m ftz q zneg) := by
  obtain ⟨neg, x, positive, rfl⟩ : ∃ (neg : Bool) (x : ℚ), 0 < x ∧ q = signed neg x := by
    rcases lt_or_gt_of_ne nonzero with below | above
    · exact ⟨true, -q, by linarith, by simp⟩
    · exact ⟨false, q, above, rfl⟩
  have unit := two_zpow_pos (lastPlace f x)
  obtain ⟨K, k, rounds, low, high, either, spec⟩ :=
    roundInt_spec m neg (le_of_lt (div_pos positive unit))
  obtain ⟨P, precise⟩ := FpModel.roundsTo_exists m neg positive (Int.log 2 x - f.fb)
  have finite := mt (FpModel.overflows_iff precise positive).mpr (Bool.eq_false_iff.mp within)
  have range : f.emin ≤ f.emax := by
    have := fits.wide
    rw [Fmt.emin, Fmt.emax]
    omega
  obtain ⟨bound, inside⟩ := rounded_fits (f := f) rounds precise positive finite range
  have least : f.emin - f.fb ≤ lastPlace f x := by
    rw [lastPlace]
    omega
  have result : f.round m ftz (signed neg x) zneg =
      if K = 0 then f.zero neg else f.encode (signed neg ((K : ℚ) * 2 ^ lastPlace f x)) := by
    rw [Fmt.round, if_neg nonzero, FpModel.signed_neg_iff neg positive, within, kept, roundQ_signed rounds positive]
    by_cases zero : K = 0
    · simp [zero, FpModel.signed_eq_zero]
    · simp [zero, FpModel.signed_eq_zero, ne_of_gt unit]
  obtain ⟨value, member⟩ : f.toQ (f.round m ftz (signed neg x) zneg) = signed neg ((K : ℚ) * 2 ^ lastPlace f x) ∧
      signed neg ((K : ℚ) * 2 ^ lastPlace f x) ∈ numbers f := by
    rw [result]
    by_cases zero : K = 0
    · have none : signed neg ((K : ℚ) * 2 ^ lastPlace f x) = 0 := by simp [zero, FpModel.signed_eq_zero]
      rw [if_pos zero, none]
      exact zero_value fits neg
    · rw [if_neg zero]
      exact encode_value fits neg (Nat.pos_of_ne_zero zero) bound least inside
  have symmetric := numbers_neg fits
  have multiple : (K : ℚ) * 2 ^ lastPlace f x ∈ numbers f := by
    cases neg with
    | false => exact member
    | true => simpa using symmetric _ member
  obtain ⟨N, grid, start, full⟩ := grid_of_number fits positive
  have scaled : (x : ℝ) = ((x / 2 ^ lastPlace f x : ℚ) : ℝ) * ((2 ^ lastPlace f x : ℚ) : ℝ) := by
    rw [← Rat.cast_mul, div_mul_cancel₀ _ (ne_of_gt unit)]
  have even (half : x / 2 ^ lastPlace f x = k + 1 / 2) (parity : K % 2 = 0) :
      f.round m ftz (signed neg x) zneg % 2 = 0 := by
    rw [result]
    by_cases zero : K = 0
    · rw [if_pos zero]
      exact zero_even fits neg
    · rw [if_neg zero]
      refine encode_even fits neg (Nat.pos_of_ne_zero zero) bound least ?_ inside parity
      refine full.imp_left ?_
      rintro rfl
      have below : ((2 ^ f.fb : ℕ) : ℚ) < ((k + 1 : ℕ) : ℚ) := by
        push_cast at start ⊢
        linarith
      have : 2 ^ f.fb < k + 1 := by exact_mod_cast below
      omega
  generalize x / 2 ^ lastPlace f x = y at *
  have lowR : (k : ℝ) ≤ y := by exact_mod_cast low
  have highR : (y : ℝ) < k + 1 := by exact_mod_cast high
  have startR : (N : ℝ) ≤ y := by exact_mod_cast start
  have down (same : K = k) : RoundsDown (numbers f) x (K * 2 ^ lastPlace f x) := by
    rw [scaled]
    refine grid.roundsDown unit multiple startR (by rw [same]; exact lowR) ?_
    intro j le
    have : j < k + 1 := by exact_mod_cast lt_of_le_of_lt le highR
    omega
  have up (above : y ≤ K ∧ (y = k → K = k)) : RoundsUp (numbers f) x (K * 2 ^ lastPlace f x) := by
    rw [scaled]
    refine grid.roundsUp unit multiple startR (by exact_mod_cast above.1) ?_
    intro j ge
    have atLeast : k ≤ j := by exact_mod_cast le_trans lowR ge
    by_cases exact : j = k
    · have whole : y = k := le_antisymm (by rw [exact] at ge; exact_mod_cast ge) low
      rw [above.2 whole]
      exact atLeast
    · omega
  have positiveR : (0 : ℝ) < x := by exact_mod_cast positive
  cases m with
  | rn =>
    obtain ⟨less, more, tied⟩ := spec
    have half : ((k + 1 / 2 : ℚ) : ℝ) = k + 1 / 2 := by
      push_cast
      rfl
    have near := nearest_nat lowR highR
      (fun below => less (by rw [← Rat.cast_lt (K := ℝ), half]; exact below))
      (fun above => more (by rw [← Rat.cast_lt (K := ℝ), half]; exact above)) either
    have nearest : Nearest (numbers f) x (K * 2 ^ lastPlace f x) := by
      rw [scaled]
      exact grid.nearest unit multiple startR near
    have parity (s : ℚ) (isNumber : s ∈ numbers f) (other : s ≠ K * 2 ^ lastPlace f x)
        (level : |(s : ℝ) - x| = |((K * 2 ^ lastPlace f x : ℚ) : ℝ) - x|) :
        f.round .rn ftz (signed neg x) zneg % 2 = 0 := by
      rw [scaled] at level
      obtain ⟨j, different, equal⟩ := grid.tie unit startR near isNumber other level
      have halfway := halfway_of_tie lowR highR either different near equal
      have middle : y = k + 1 / 2 := by
        rw [← half] at halfway
        exact_mod_cast halfway
      exact even middle (tied middle)
    rw [Rounded, value]
    cases neg with
    | false => exact ⟨nearest, parity⟩
    | true =>
      simp only [FpModel.signed_true, Rat.cast_neg]
      refine ⟨nearest.neg symmetric, ?_⟩
      intro s isNumber other level
      refine parity (-s) (symmetric s isNumber) (fun same => other (by rw [← same, neg_neg])) ?_
      rw [← abs_neg_sub_neg, neg_neg, level, ← Rat.cast_neg, abs_neg_sub_neg]
  | rz =>
    rw [Rounded, value]
    cases neg with
    | false =>
      rw [FpModel.signed_false x, if_pos (le_of_lt positiveR)]
      exact down spec
    | true =>
      rw [FpModel.signed_true x, Rat.cast_neg, if_neg (by linarith)]
      exact (down spec).neg symmetric
  | rm =>
    rw [Rounded, value]
    cases neg with
    | false => exact down spec
    | true =>
      simp only [FpModel.signed_true, Rat.cast_neg]
      exact (up spec).neg symmetric
  | rp =>
    rw [Rounded, value]
    cases neg with
    | false => exact up spec
    | true =>
      simp only [FpModel.signed_true, Rat.cast_neg]
      exact (down spec).neg symmetric

end E5r.FpBits
