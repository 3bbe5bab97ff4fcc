import E5r.FpOrder

/-!
Conversions between floats and integers, between the formats and to integral
floats are the model's, and so is the square root, which the interpreter takes
with an integer root of the scaled significand.
-/
namespace E5r.FpBits
open PtxSyntax (RMode)
open FpModel (Fmt pow2 pow2_eq signed signed_eq_zero abs_signed RoundsTo two_zpow_pos two_zpow_le two_zpow_lt
  two_zpow_add two_zpow_natCast log_spec ilog2_eq_log)
open Limbs

variable {f : Fmt} {a : BitVec 64}

/-! ### Between floats and integers -/

theorem ofInt_agrees (fits : FitsWord f) (m : RMode) (ftz : Bool) {v : ℤ} (small : v.natAbs < 2 ^ 128) :
    ∃ x, ofInt f m ftz v = some x ∧ Encodes f x (FpModel.ofInt f m ftz v) := by
  have value : ({ neg := decide (v < 0), n := .ofNat v.natAbs, d := .ofNat 1, e := 0 } : Q).value = v := by
    simp only [Q.value, toNat_ofNat small, toNat_ofNat (by norm_num : 1 < 2 ^ 128)]
    by_cases negative : v < 0
    · have size : (v.natAbs : ℤ) = -v := by omega
      have cast : ((v.natAbs : ℕ) : ℚ) = -v := by rw [← Int.cast_natCast, size, Int.cast_neg]
      simp [negative, cast]
    · have size : (v.natAbs : ℤ) = v := by omega
      have cast : ((v.natAbs : ℕ) : ℚ) = v := by rw [← Int.cast_natCast, size]
      simp [negative, cast]
  obtain ⟨x, rounded, same⟩ := round_total (q := { neg := decide (v < 0), n := .ofNat v.natAbs, d := .ofNat 1, e := 0 })
    fits m ftz (by rw [toNat_ofNat (by norm_num)]; exact one_pos) false
  refine ⟨x, rounded, ?_⟩
  rw [value] at same
  exact same

theorem convertF_agrees {d s : Fmt} (fitsD : FitsWord d) (fitsS : FitsWord s) (m : RMode) (ftz sat : Bool)
    (inside : InFormat s a) :
    Agrees d (convertF d s m ftz sat a) (FpModel.convertF d s m ftz sat a.toNat) := by
  obtain ⟨same, -⟩ := toNat_flush fitsS (ftz && decide (s = .f32)) inside
  simp only [convertF, FpModel.convertF, isNan_eq fitsS, isInf_eq fitsS, isZero_eq fitsS, sgn_eq fitsS, ← same]
  apply Agrees.sat fitsD sat
  split
  · exact agrees_nan
  split
  · exact agrees_some (toNat_inf fitsD _)
  split
  · exact agrees_some (encodes_zero fitsD _)
  · exact agrees_round fitsD m _ _ (by rw [(toNat_toQ _).2]; exact one_pos) (value_toQ fitsS _)

private theorem roundInt_zero (m : RMode) : FpModel.roundInt m 0 = 0 := by
  cases m with
  | rn => decide +kernel
  | rz => rfl
  | rm => rfl
  | rp => rfl

theorem roundInt_total (fits : FitsWord f) (m : RMode) (a : BitVec 64) :
    ∃ v, roundInt f m a = some v ∧
      (v = FpModel.roundInt m (f.toQ a.toNat) ∨
        (v = 2 ^ 70 ∧ 2 ^ 70 ≤ FpModel.roundInt m (f.toQ a.toNat)) ∨
        (v = -2 ^ 70 ∧ FpModel.roundInt m (f.toQ a.toNat) ≤ -2 ^ 70)) := by
  have whole : 0 < (toQ f a).d.toNat := by
    rw [(toNat_toQ a).2]
    exact one_pos
  have value := value_toQ fits a
  rw [Q.value_eq] at value
  have zeros : (toQ f a).isZero = decide ((toQ f a).size = 0) := by
    rw [Bool.eq_iff_iff, Q.isZero_iff whole, decide_eq_true_iff]
  rw [← value]
  by_cases zero : (toQ f a).size = 0
  · refine ⟨0, ?_, .inl ?_⟩
    · simp [roundInt, zeros, zero]
    · rw [signed_eq_zero.mpr zero, roundInt_zero]
  have positive : 0 < (toQ f a).size := lt_of_le_of_ne (Q.size_nonneg _) (Ne.symm zero)
  have nonzero : (toQ f a).n.toNat ≠ 0 := by
    intro none
    exact zero (by simp [Q.size, none])
  have log := Q.ilog2_eq whole nonzero
  by_cases large : 70 ≤ (toQ f a).ilog2
  · obtain ⟨K, rounded, bounds⟩ := FpModel.roundInt_signed m (toQ f a).neg (le_of_lt positive)
    have above : 2 ^ 70 ≤ K := by
      refine (bounds (2 ^ 70)).1 (le_trans ?_ (log_spec positive).1)
      rw [← two_zpow_natCast]
      exact two_zpow_le (by rw [← log]; exact_mod_cast large)
    rw [rounded]
    refine ⟨if (toQ f a).neg then -2 ^ 70 else 2 ^ 70, ?_, .inr ?_⟩
    · simp [roundInt, zeros, zero, large]
    · cases (toQ f a).neg with
      | false =>
        left
        simp only [Bool.false_eq_true, if_false, FpModel.signed_false]
        exact ⟨trivial, by exact_mod_cast above⟩
      | true =>
        right
        simp only [if_true, FpModel.signed_true]
        exact ⟨trivial, by omega⟩
  · obtain ⟨K, rounding, rounded⟩ := @roundAt_total (toQ f a) m whole 0
      (lt_of_lt_of_le (log_spec positive).2 (two_zpow_le (by omega)))
    rw [RoundsTo, zpow_zero, div_one] at rounded
    refine ⟨signed (toQ f a).neg (K : ℤ), ?_, .inl rounded.symm⟩
    simp [roundInt, zeros, zero, large, rounding, signed]

/-- A float converts to the model's integer of at most 64 bits. -/
theorem toInt_agrees (fits : FitsWord f) (m : RMode) (ftz signed : Bool) {w : ℕ} (some : 1 ≤ w) (narrow : w ≤ 64)
    (inside : InFormat f a) :
    ∃ x, toInt f m ftz signed w a = Option.some x ∧ x.toNat = FpModel.toInt f m ftz signed w a.toNat ∧
      x.toNat < 2 ^ w := by
  obtain ⟨same, -⟩ := toNat_flush fits ftz inside
  have top : 2 ^ w ≤ 2 ^ 64 := Nat.pow_le_pow_right (by norm_num) narrow
  have wide : (2 : ℕ) ^ w = 2 * 2 ^ (w - 1) := by rw [← pow_succ', Nat.sub_add_cancel some]
  have encoded (v : ℤ) : (BitVec.ofInt 64 (v % 2 ^ w)).toNat = (v % ((2 ^ w : ℕ) : ℤ)).toNat ∧
      (v % ((2 ^ w : ℕ) : ℤ)).toNat < 2 ^ w := by
    have positive : (0 : ℤ) < ((2 ^ w : ℕ) : ℤ) := by exact_mod_cast Nat.two_pow_pos w
    have low := Int.emod_nonneg v (ne_of_gt positive)
    have high := Int.emod_lt_of_pos v positive
    have cast : ((2 : ℤ) ^ w) = ((2 ^ w : ℕ) : ℤ) := by push_cast; rfl
    rw [cast]
    obtain ⟨k, rest⟩ := Int.eq_ofNat_of_zero_le low
    rw [rest] at high ⊢
    rw [BitVec.ofInt_natCast, BitVec.toNat_ofNat, Int.toNat_natCast]
    have below : k < 2 ^ w := by exact_mod_cast high
    exact ⟨Nat.mod_eq_of_lt (by omega), below⟩
  have lo : (if signed then -((2 : ℤ) ^ (w - 1)) else 0) = (if signed then -((2 ^ (w - 1) : ℕ) : ℤ) else 0) := by
    push_cast
    rfl
  have hi : (if signed then (2 : ℤ) ^ (w - 1) - 1 else 2 ^ w - 1) =
      (if signed then ((2 ^ (w - 1) - 1 : ℕ) : ℤ) else ((2 ^ w - 1 : ℕ) : ℤ)) := by
    push_cast [Nat.cast_sub Nat.one_le_two_pow]
    rfl
  simp only [toInt, FpModel.toInt, isNan_eq fits, isInf_eq fits, sgn_eq fits, ← same, lo, hi]
  generalize flush f ftz a = x
  split
  · by_cases full : f = .f64 ∨ w = 64
    · rw [if_pos full, if_pos full]
      have shifted : (1#64 <<< (w - 1)).toNat = 2 ^ (w - 1) := toNat_one_shl (by omega)
      exact ⟨_, rfl, shifted, by rw [shifted]; have := Nat.two_pow_pos (w - 1); omega⟩
    · rw [if_neg full, if_neg full]
      exact ⟨_, rfl, rfl, Nat.two_pow_pos w⟩
  split
  · obtain ⟨word, below⟩ := encoded (if f.sgn x.toNat = true then
      (if signed then -((2 ^ (w - 1) : ℕ) : ℤ) else 0)
      else (if signed then ((2 ^ (w - 1) - 1 : ℕ) : ℤ) else ((2 ^ w - 1 : ℕ) : ℤ)))
    exact ⟨_, rfl, word, by rw [word]; exact below⟩
  · obtain ⟨v, rounded, bounds⟩ := roundInt_total fits m x
    have clamped : max (if signed then -((2 ^ (w - 1) : ℕ) : ℤ) else 0)
          (min (if signed then ((2 ^ (w - 1) - 1 : ℕ) : ℤ) else ((2 ^ w - 1 : ℕ) : ℤ)) v) =
        max (if signed then -((2 ^ (w - 1) : ℕ) : ℤ) else 0)
          (min (if signed then ((2 ^ (w - 1) - 1 : ℕ) : ℤ) else ((2 ^ w - 1 : ℕ) : ℤ))
            (FpModel.roundInt m (f.toQ x.toNat))) := by
      rcases bounds with exact | ⟨exact, above⟩ | ⟨exact, below⟩
      · rw [exact]
      · cases signed
        · simp only [Bool.false_eq_true, if_false]
          omega
        · simp only [if_true]
          omega
      · cases signed
        · simp only [Bool.false_eq_true, if_false]
          omega
        · simp only [if_true]
          omega
    rw [rounded]
    simp only [Option.bind_eq_bind, Option.bind_some, clamped]
    obtain ⟨word, below⟩ := encoded (max (if signed then -((2 ^ (w - 1) : ℕ) : ℤ) else 0)
      (min (if signed then ((2 ^ (w - 1) - 1 : ℕ) : ℤ) else ((2 ^ w - 1 : ℕ) : ℤ))
        (FpModel.roundInt m (f.toQ x.toNat))))
    exact ⟨_, rfl, word, by rw [word]; exact below⟩

/-! ### Integral floats -/

theorem canonical_toQ (fits : FitsWord f) (number : f.bexp a.toNat ≠ f.expMax) (nonzero : f.isZero a.toNat = false) :
    Canonical f (toQ f a).n.toNat (toQ f a).e ∧
      assemble f (f.sgn a.toNat) (toQ f a).n.toNat (toQ f a).e = f.zero (f.sgn a.toNat) + magnitude f a.toNat := by
  obtain ⟨mantissa, exponent⟩ := toNat_me fits a
  have num := (toNat_toQ (f := f) a).1
  have exp : (toQ f a).e = (me f a).2 := rfl
  have short := frac_lt f a.toNat
  have field := bexp_lt f a.toNat
  have positive := mantissa_pos fits nonzero
  have half : 2 ^ f.eb = 2 * 2 ^ (f.eb - 1) := by
    rw [← pow_succ', Nat.sub_add_cancel (by have := fits.exp; omega)]
  have top : f.expMax = 2 * f.bias + 1 := by
    have := Nat.two_pow_pos (f.eb - 1)
    rw [Fmt.expMax, Fmt.bias, half]
    omega
  rw [magnitude_fields, num, mantissa, exp, exponent]
  rw [num, mantissa] at positive
  by_cases sub : f.bexp a.toNat = 0
  · simp only [sub, if_true] at positive ⊢
    refine ⟨⟨positive, ?_, le_refl _, .inr rfl, ?_⟩, ?_⟩
    · rw [pow_succ]
      omega
    · calc (f.frac a.toNat : ℚ) * 2 ^ (f.emin - f.fb) ≤ ((2 ^ f.fb : ℕ) : ℚ) * 2 ^ (f.emin - f.fb) :=
            mul_le_mul_of_nonneg_right (by exact_mod_cast le_of_lt short) (le_of_lt (two_zpow_pos _))
        _ = 2 ^ f.emin := by
            rw [← two_zpow_natCast, ← two_zpow_add]
            congr 1
            ring
        _ < 2 ^ (f.emax + 1) := two_zpow_lt (by rw [Fmt.emin, Fmt.emax]; have := fits.wide; omega)
    · rw [assemble, if_pos short]
      omega
  · simp only [sub, if_false] at positive ⊢
    have finite : f.bexp a.toNat ≤ 2 * f.bias := by
      rw [Fmt.expMax] at number top
      omega
    refine ⟨⟨positive, ?_, ?_, .inl (Nat.le_add_left _ _), ?_⟩, ?_⟩
    · rw [pow_succ]
      omega
    · rw [Fmt.emin]
      omega
    · calc ((f.frac a.toNat + 2 ^ f.fb : ℕ) : ℚ) * 2 ^ ((f.bexp a.toNat : ℤ) - f.bias - f.fb)
          < ((2 ^ (f.fb + 1) : ℕ) : ℚ) * 2 ^ ((f.bexp a.toNat : ℤ) - f.bias - f.fb) := by
            refine mul_lt_mul_of_pos_right ?_ (two_zpow_pos _)
            rw [Nat.cast_lt, pow_succ]
            omega
        _ = 2 ^ ((f.bexp a.toNat : ℤ) - f.bias + 1) := by
            rw [← two_zpow_natCast, ← two_zpow_add]
            congr 1
            push_cast
            ring
        _ ≤ 2 ^ (f.emax + 1) := two_zpow_le (by rw [Fmt.emax]; omega)
    · have field : (f.bexp a.toNat : ℤ) - f.bias - f.fb + f.fb + f.bias = f.bexp a.toNat := by ring
      rw [assemble, if_neg (by omega), field, Int.toNat_natCast, Nat.add_sub_cancel]
      omega

theorem size_range (fits : FitsWord f) (number : f.bexp a.toNat ≠ f.expMax) (nonzero : f.isZero a.toNat = false) :
    0 < (toQ f a).size ∧ f.emin - f.fb ≤ Int.log 2 (toQ f a).size ∧ Int.log 2 (toQ f a).size ≤ f.emax ∧
      (toQ f a).ilog2 = Int.log 2 (toQ f a).size := by
  obtain ⟨canonical, -⟩ := canonical_toQ fits number nonzero
  have whole : 0 < (toQ f a).d.toNat := by
    rw [(toNat_toQ a).2]
    exact one_pos
  have positive := Q.size_pos whole (Nat.pos_iff_ne_zero.mp canonical.some)
  have size : (toQ f a).size = ((toQ f a).n.toNat : ℚ) * 2 ^ (toQ f a).e := by
    rw [Q.size, (toNat_toQ a).2, Nat.cast_one, div_one]
  refine ⟨positive, ?_, ?_, Q.ilog2_eq whole (Nat.pos_iff_ne_zero.mp canonical.some)⟩
  · have low : (2 : ℚ) ^ (f.emin - f.fb) ≤ (toQ f a).size :=
      calc (2 : ℚ) ^ (f.emin - f.fb) ≤ 2 ^ (toQ f a).e := two_zpow_le canonical.least
        _ ≤ ((toQ f a).n.toNat : ℚ) * 2 ^ (toQ f a).e :=
            le_mul_of_one_le_left (le_of_lt (two_zpow_pos _)) (by exact_mod_cast canonical.some)
        _ = (toQ f a).size := size.symm
    have := (zpow_lt_zpow_iff_right₀ (by norm_num : (1 : ℚ) < 2)).mp (lt_of_le_of_lt low (log_spec positive).2)
    omega
  · have high := canonical.finite
    rw [← size] at high
    have := (zpow_lt_zpow_iff_right₀ (by norm_num : (1 : ℚ) < 2)).mp (lt_of_le_of_lt (log_spec positive).1 high)
    omega

theorem encode_toQ (fits : FitsWord f) (inside : InFormat f a) (number : f.bexp a.toNat ≠ f.expMax)
    (nonzero : f.isZero a.toNat = false) : f.encode (f.toQ a.toNat) = a.toNat := by
  obtain ⟨canonical, pattern⟩ := canonical_toQ fits number nonzero
  have sign : (toQ f a).neg = f.sgn a.toNat := sgn_eq fits a
  have encoded := canonical.encode_model (f.sgn a.toNat)
  have value : f.toQ a.toNat = signed (f.sgn a.toNat) (((toQ f a).n.toNat : ℚ) * 2 ^ (toQ f a).e) := by
    rw [← value_toQ fits, Q.value, (toNat_toQ a).2, sign, Nat.cast_one, div_one]
  rw [value, encoded, pattern]
  exact inside.parts.symm

theorem finite_of_number {x : ℕ} (nan : f.isNaN x = false) (inf : f.isInf x = false) :
    f.bexp x ≠ f.expMax := by
  intro top
  rw [Fmt.isNaN, top, beq_self_eq_true, Bool.true_and] at nan
  rw [Fmt.isInf, top, beq_self_eq_true, Bool.true_and] at inf
  simp_all

theorem roundInt_of_integral (fits : FitsWord f) (m : RMode) (number : f.bexp a.toNat ≠ f.expMax)
    (nonzero : f.isZero a.toNat = false) (integral : (toQ f a).ilog2 ≥ f.fb) :
    ((FpModel.roundInt m (f.toQ a.toNat) : ℤ) : ℚ) = f.toQ a.toNat := by
  obtain ⟨canonical, -⟩ := canonical_toQ fits number nonzero
  obtain ⟨positive, -, -, log⟩ := size_range fits number nonzero
  have sign : (toQ f a).neg = f.sgn a.toNat := sgn_eq fits a
  have value := value_toQ fits a
  rw [Q.value_eq, sign] at value
  have size : (toQ f a).size = ((toQ f a).n.toNat : ℚ) * 2 ^ (toQ f a).e := by
    rw [Q.size, (toNat_toQ a).2, Nat.cast_one, div_one]
  -- the exponent of the last place is not negative
  have up : 0 ≤ (toQ f a).e := by
    by_contra negative
    have : (toQ f a).size < 2 ^ (f.fb : ℤ) :=
      calc (toQ f a).size < ((2 ^ (f.fb + 1) : ℕ) : ℚ) * 2 ^ (toQ f a).e := by
            rw [size]
            exact mul_lt_mul_of_pos_right (by exact_mod_cast canonical.short) (two_zpow_pos _)
        _ = 2 ^ (((f.fb + 1 : ℕ) : ℤ) + (toQ f a).e) := by rw [← two_zpow_natCast, ← two_zpow_add]
        _ ≤ 2 ^ (f.fb : ℤ) := two_zpow_le (by push_cast; omega)
    have low := (log_spec positive).1
    rw [← log] at low
    have := (zpow_lt_zpow_iff_right₀ (by norm_num : (1 : ℚ) < 2)).mp (lt_of_le_of_lt low this)
    omega
  obtain ⟨n, exponent⟩ := Int.eq_ofNat_of_zero_le up
  have natural : (toQ f a).size = (((toQ f a).n.toNat * 2 ^ n : ℕ) : ℚ) := by
    rw [size, exponent, zpow_natCast]
    push_cast
    rfl
  obtain ⟨K, rounded, bounds⟩ := FpModel.roundInt_signed m (f.sgn a.toNat) (le_of_lt positive)
  have exact : K = (toQ f a).n.toNat * 2 ^ n :=
    Nat.le_antisymm ((bounds _).2 (le_of_eq natural)) ((bounds _).1 (le_of_eq natural.symm))
  rw [← value, rounded, FpModel.signed_cast, exact, ← natural]

theorem roundIntegral_agrees (fits : FitsWord f) (m : RMode) (ftz : Bool) (inside : InFormat f a) :
    Agrees f (roundIntegral f m ftz a) (FpModel.roundIntegral f m ftz a.toNat) := by
  obtain ⟨same, flushed⟩ := toNat_flush fits ftz inside
  simp only [roundIntegral, FpModel.roundIntegral, isNan_eq fits, isInf_eq fits, isZero_eq fits, sgn_eq fits,
    ← same]
  generalize flush f ftz a = x at flushed ⊢
  split
  · exact agrees_nan
  next number =>
  split
  · exact agrees_some ⟨rfl, flushed⟩
  next finite =>
  rw [Bool.not_eq_true] at number finite
  obtain ⟨notInf, nonzero⟩ := Bool.or_eq_false_iff.mp finite
  have bounded := finite_of_number number notInf
  obtain ⟨positive, -, -, log⟩ := size_range fits bounded nonzero
  have whole : 0 < (toQ f x).d.toNat := by
    rw [(toNat_toQ x).2]
    exact one_pos
  have sign : (toQ f x).neg = f.sgn x.toNat := sgn_eq fits x
  have value := value_toQ fits x
  rw [Q.value_eq, sign] at value
  by_cases integral : (toQ f x).ilog2 ≥ f.fb
  · have back := roundInt_of_integral fits m bounded nonzero integral
    have some : FpModel.roundInt m (f.toQ x.toNat) ≠ 0 := by
      intro zero
      rw [zero, Int.cast_zero, ← value] at back
      exact absurd (signed_eq_zero.mp back.symm) (ne_of_gt positive)
    rw [if_pos integral, if_neg some, back, encode_toQ fits flushed bounded nonzero]
    exact agrees_some ⟨rfl, flushed⟩
  · rw [if_neg integral]
    have below : (toQ f x).size < 2 ^ (f.fb : ℤ) :=
      lt_of_lt_of_le (log_spec positive).2 (two_zpow_le (by omega))
    obtain ⟨K, rounding, rounded⟩ := @roundAt_total (toQ f x) m whole 0
      (lt_of_lt_of_le below (two_zpow_le (by have := fits.small; omega)))
    have bound : K ≤ 2 ^ f.fb := by
      refine rounded.ge positive (le_of_lt ?_)
      rw [← two_zpow_natCast, zpow_zero, mul_one]
      exact below
    rw [RoundsTo, zpow_zero, div_one, sign, value] at rounded
    rw [rounding, Option.bind_some, rounded]
    by_cases zero : K = 0
    · subst zero
      have none : signed (f.sgn x.toNat) ((0 : ℕ) : ℤ) = 0 := by cases f.sgn x.toNat <;> rfl
      rw [if_pos rfl, if_pos none]
      exact agrees_some (encodes_zero fits _)
    · have some : signed (f.sgn x.toNat) (K : ℤ) ≠ 0 := by
        cases f.sgn x.toNat with
        | false =>
          simp only [FpModel.signed_false]
          omega
        | true =>
          simp only [FpModel.signed_true]
          omega
      have limit : (K : ℚ) * 2 ^ (0 : ℤ) < 2 ^ (f.emax + 1) := by
        rw [zpow_zero, mul_one]
        calc (K : ℚ) ≤ ((2 ^ f.fb : ℕ) : ℚ) := by exact_mod_cast bound
          _ = 2 ^ (f.fb : ℤ) := (two_zpow_natCast _).symm
          _ < 2 ^ (f.emax + 1) := two_zpow_lt (by rw [Fmt.emax]; have := fits.wide; omega)
      obtain ⟨y, encoded, pattern, format⟩ := @encode_total f fits (toQ f x).neg K 0 (Nat.pos_of_ne_zero zero)
        (le_trans bound (Nat.pow_le_pow_right (by norm_num) (by omega)))
        (by rw [Fmt.emin]; have := fits.wide; omega) limit
      rw [if_neg zero, if_neg some, encoded, FpModel.signed_cast]
      rw [zpow_zero, mul_one, sign] at pattern
      exact agrees_some ⟨pattern, format⟩

/-! ### Square root -/

private theorem isqrtDown_le (n : ℕ) : ∀ x, x < 2 ^ 64 → isqrtDown n x ≤ Nat.sqrt n := by
  intro x
  induction x with
  | zero => intro _; exact Nat.zero_le _
  | succ x ih =>
    intro small
    have square : (x + 1) * (x + 1) < 2 ^ 128 :=
      lt_of_lt_of_le (Nat.mul_lt_mul'' small small) (by norm_num)
    rw [isqrtDown, Nat.mod_eq_of_lt square]
    by_cases above : (x + 1) * (x + 1) > n
    · rw [if_pos above]
      exact ih (by omega)
    · rw [if_neg above]
      exact Nat.le_sqrt.mpr (not_lt.mp above)

private theorem isqrtUp_eq {n : ℕ} (small : n < 2 ^ 126) (fuel : ℕ) :
    ∀ x, x ≤ Nat.sqrt n → Nat.sqrt n ≤ x + fuel → isqrtUp n fuel x = Nat.sqrt n := by
  have root : Nat.sqrt n < 2 ^ 63 := Nat.sqrt_lt'.mpr (by rw [← pow_mul]; exact small)
  induction fuel with
  | zero =>
    intro x below reached
    exact Nat.le_antisymm below reached
  | succ fuel ih =>
    intro x below reached
    have square : (x + 1) * (x + 1) < 2 ^ 128 := by
      have next : x + 1 < 2 ^ 64 := by omega
      exact lt_of_lt_of_le (Nat.mul_lt_mul'' next next) (by norm_num)
    rw [isqrtUp, Nat.mod_eq_of_lt square]
    by_cases more : (x + 1) * (x + 1) ≤ n
    · rw [if_pos more]
      exact ih (x + 1) (Nat.le_sqrt.mpr more) (by omega)
    · rw [if_neg more]
      have : ¬x + 1 ≤ Nat.sqrt n := fun le => more (Nat.le_sqrt.mp le)
      omega

private theorem floor_spec {y : ℚ} (nonneg : 0 ≤ y) :
    ((y.floor.toNat : ℕ) : ℚ) ≤ y ∧ y < ((y.floor.toNat + 1 : ℕ) : ℚ) := by
  have positive : 0 ≤ ⌊y⌋ := Int.floor_nonneg.mpr nonneg
  have cast : ((y.floor.toNat : ℕ) : ℤ) = ⌊y⌋ := Int.toNat_of_nonneg positive
  have castQ : ((y.floor.toNat : ℕ) : ℚ) = (⌊y⌋ : ℚ) := by rw [← Int.cast_natCast, cast]
  push_cast
  rw [castQ]
  exact ⟨Int.floor_le y, Int.lt_floor_add_one y⟩

/-- The integer root of the integer part is the integer part of the root. -/
theorem sqrt_floor_spec {y : ℚ} (nonneg : 0 ≤ y) :
    ((Nat.sqrt y.floor.toNat * Nat.sqrt y.floor.toNat : ℕ) : ℚ) ≤ y ∧
      y < (((Nat.sqrt y.floor.toNat + 1) * (Nat.sqrt y.floor.toNat + 1) : ℕ) : ℚ) := by
  obtain ⟨low, high⟩ := floor_spec nonneg
  constructor
  · exact le_trans (by exact_mod_cast Nat.sqrt_le _) low
  · refine lt_of_lt_of_le high ?_
    exact_mod_cast Nat.lt_succ_sqrt _

theorem roundIntSqrt_bounds (m : RMode) {y : ℚ} (nonneg : 0 ≤ y) :
    ∃ K : ℕ, FpModel.roundIntSqrt m y = K ∧
      ∀ N : ℕ, (((N * N : ℕ) : ℚ) ≤ y → N ≤ K) ∧ (y ≤ ((N * N : ℕ) : ℚ) → K ≤ N) := by
  have floorSpec := floor_spec nonneg
  generalize fl : y.floor.toNat = n at floorSpec
  obtain ⟨low, high⟩ := floorSpec
  have rootLow : Nat.sqrt n * Nat.sqrt n ≤ n := Nat.sqrt_le n
  have below {N : ℕ} (le : ((N * N : ℕ) : ℚ) ≤ y) : N ≤ Nat.sqrt n := by
    rw [Nat.le_sqrt]
    have : N * N < n + 1 := by exact_mod_cast lt_of_le_of_lt le high
    omega
  have above {N : ℕ} (ge : y ≤ ((N * N : ℕ) : ℚ)) : Nat.sqrt n ≤ N := by
    have : n ≤ N * N := by exact_mod_cast le_trans low ge
    exact Nat.mul_self_le_mul_self_iff.mp (le_trans rootLow this)
  have exact {N : ℕ} (ge : y ≤ ((N * N : ℕ) : ℚ)) (top : Nat.sqrt n = N) : y = ((N * N : ℕ) : ℚ) := by
    refine le_antisymm ge (le_trans ?_ low)
    rw [← top]
    exact_mod_cast rootLow
  have halfway {N : ℕ} (ge : y ≤ ((N * N : ℕ) : ℚ)) (top : Nat.sqrt n = N) :
      y < ((2 * Nat.sqrt n + 1 : ℕ) : ℚ) / 2 * (((2 * Nat.sqrt n + 1 : ℕ) : ℚ) / 2) := by
    rw [exact ge top, top]
    have : (0 : ℚ) ≤ N := Nat.cast_nonneg N
    push_cast
    nlinarith
  -- the root itself, or one more where the square is not exact
  have result (K : ℕ) (atLeast : Nat.sqrt n ≤ K) (atMost : K ≤ Nat.sqrt n + 1)
      (stays : ∀ N : ℕ, y ≤ ((N * N : ℕ) : ℚ) → Nat.sqrt n = N → K = Nat.sqrt n) :
      ∀ N : ℕ, (((N * N : ℕ) : ℚ) ≤ y → N ≤ K) ∧ (y ≤ ((N * N : ℕ) : ℚ) → K ≤ N) := by
    intro N
    refine ⟨fun le => le_trans (below le) atLeast, fun ge => ?_⟩
    by_cases top : Nat.sqrt n = N
    · exact le_of_eq ((stays N ge top).trans top)
    · have := above ge
      omega
  have parity : Nat.sqrt n % 2 < 2 := Nat.mod_lt _ (by norm_num)
  simp only [FpModel.roundIntSqrt, fl]
  cases m with
  | rn =>
    simp only
    split
    · exact ⟨Nat.sqrt n, rfl, result _ (le_refl _) (by omega) (fun _ _ _ => rfl)⟩
    next high =>
    have never {N : ℕ} (ge : y ≤ ((N * N : ℕ) : ℚ)) (top : Nat.sqrt n = N) : False := high (halfway ge top)
    split
    · exact ⟨Nat.sqrt n + 1, by push_cast; rfl, result _ (by omega) (le_refl _)
        (fun N ge top => (never ge top).elim)⟩
    · exact ⟨Nat.sqrt n + Nat.sqrt n % 2, by push_cast; rfl, result _ (by omega) (by omega)
        (fun N ge top => (never ge top).elim)⟩
  | rz => exact ⟨Nat.sqrt n, rfl, result _ (le_refl _) (by omega) (fun _ _ _ => rfl)⟩
  | rm => exact ⟨Nat.sqrt n, rfl, result _ (le_refl _) (by omega) (fun _ _ _ => rfl)⟩
  | rp =>
    simp only
    split
    · exact ⟨Nat.sqrt n, rfl, result _ (le_refl _) (by omega) (fun _ _ _ => rfl)⟩
    next inexact =>
    refine ⟨Nat.sqrt n + 1, by push_cast; rfl, result _ (by omega) (le_refl _) ?_⟩
    intro N ge top
    have square := exact ge top
    rw [← top] at square
    exact absurd square inexact

def rootPlace (f : Fmt) (x : ℚ) : ℤ := max (Int.log 2 x / 2) f.emin - f.fb

theorem roundSqrtQ_eq {m : RMode} {x : ℚ} (positive : 0 < x) :
    FpModel.roundSqrtQ f m x =
      (FpModel.roundIntSqrt m (x / 2 ^ (2 * rootPlace f x)) : ℚ) * 2 ^ rootPlace f x := by
  have place : max f.emin (Int.fdiv (FpModel.ilog2 x) 2) - f.fb = rootPlace f x := by
    rw [rootPlace, ilog2_eq_log positive, Int.fdiv_eq_ediv_of_nonneg _ (by norm_num), max_comm]
  simp only [FpModel.roundSqrtQ, place, pow2_eq]

private theorem isqrtGuess_le {n j : ℕ} (some : 1 ≤ n) (bound : n ≤ 2 ^ (2 * j)) : isqrtGuess n ≤ 2 ^ j := by
  have positive : (0 : ℚ) < n := by exact_mod_cast some
  have boundQ : (n : ℚ) ≤ 2 ^ ((2 * j : ℕ) : ℤ) := by
    rw [two_zpow_natCast]
    exact_mod_cast bound
  have logTop : Int.log 2 (n : ℚ) ≤ (2 * j : ℕ) :=
    (zpow_le_zpow_iff_right₀ (by norm_num : (1 : ℚ) < 2)).mp (le_trans (log_spec positive).1 boundQ)
  have logLow : 0 ≤ Int.log 2 (n : ℚ) := by
    have : (2 : ℚ) ^ (0 : ℤ) < 2 ^ (Int.log 2 (n : ℚ) + 1) :=
      lt_of_le_of_lt (by rw [zpow_zero]; exact_mod_cast some) (log_spec positive).2
    have := (zpow_lt_zpow_iff_right₀ (by norm_num : (1 : ℚ) < 2)).mp this
    omega
  have place : lastPlace .f64 n = Int.log 2 (n : ℚ) - 52 := by
    have least : Fmt.f64.emin = -1022 := rfl
    have digits : Fmt.f64.fb = 52 := rfl
    rw [lastPlace, least, digits, max_eq_left (by omega)]
    rfl
  obtain ⟨K, rounded⟩ := FpModel.roundsTo_exists .rn false positive (lastPlace .f64 n)
  have nearest := roundQ_signed rounded positive
  simp only [FpModel.signed_false] at nearest
  have low : (1 : ℚ) ≤ K * 2 ^ lastPlace .f64 n := by
    rw [place] at rounded ⊢
    have digits : 2 ^ 52 ≤ K := rounded.precision_le (F := .f64) positive
    calc (1 : ℚ) ≤ 2 ^ Int.log 2 (n : ℚ) := by
          rw [← zpow_zero (2 : ℚ)]
          exact two_zpow_le logLow
      _ = ((2 ^ 52 : ℕ) : ℚ) * 2 ^ (Int.log 2 (n : ℚ) - 52) := by
          rw [← two_zpow_natCast, ← two_zpow_add]
          congr 1
          push_cast
          ring
      _ ≤ K * 2 ^ (Int.log 2 (n : ℚ) - 52) :=
          mul_le_mul_of_nonneg_right (by exact_mod_cast digits) (le_of_lt (two_zpow_pos _))
  have high : (K : ℚ) * 2 ^ lastPlace .f64 n ≤ 2 ^ ((2 * j : ℕ) : ℤ) := by
    obtain ⟨gap, exponent⟩ := Int.eq_ofNat_of_zero_le
      (by rw [place]; omega : 0 ≤ ((2 * j : ℕ) : ℤ) - lastPlace .f64 n)
    have scale : (2 : ℚ) ^ ((2 * j : ℕ) : ℤ) = ((2 ^ gap : ℕ) : ℚ) * 2 ^ lastPlace .f64 n := by
      rw [← two_zpow_natCast, ← two_zpow_add, ← exponent]
      congr 1
      ring
    rw [scale] at boundQ ⊢
    exact mul_le_mul_of_nonneg_right (by exact_mod_cast rounded.ge positive boundQ) (le_of_lt (two_zpow_pos _))
  rw [isqrtGuess, nearest]
  generalize (K : ℚ) * 2 ^ lastPlace .f64 n = x at low high
  have xPos : 0 < x := lt_of_lt_of_le one_pos low
  have rootTop : rootPlace .f64 x ≤ j := by
    have : Int.log 2 x ≤ (2 * j : ℕ) :=
      (zpow_le_zpow_iff_right₀ (by norm_num : (1 : ℚ) < 2)).mp (le_trans (log_spec xPos).1 high)
    have least : Fmt.f64.emin = -1022 := rfl
    have digits : Fmt.f64.fb = 52 := rfl
    rw [rootPlace, least, digits]
    push_cast at this ⊢
    omega
  rw [roundSqrtQ_eq xPos]
  generalize rootPlace .f64 x = e at rootTop
  obtain ⟨R, root, bounds⟩ := roundIntSqrt_bounds .rn (y := x / 2 ^ (2 * e))
    (div_nonneg (le_of_lt xPos) (le_of_lt (two_zpow_pos _)))
  obtain ⟨gap, exponent⟩ := Int.eq_ofNat_of_zero_le (by omega : 0 ≤ (j : ℤ) - e)
  have square : x / 2 ^ (2 * e) ≤ ((2 ^ gap * 2 ^ gap : ℕ) : ℚ) := by
    rw [div_le_iff₀ (two_zpow_pos _), ← pow_add, ← two_zpow_natCast, ← two_zpow_add]
    refine le_trans high (two_zpow_le ?_)
    push_cast
    omega
  have atMost := (bounds _).2 square
  rw [root]
  have value : (((R : ℤ) : ℚ)) * 2 ^ e ≤ ((2 ^ j : ℕ) : ℚ) :=
    calc ((R : ℤ) : ℚ) * 2 ^ e ≤ ((2 ^ gap : ℕ) : ℚ) * 2 ^ e := by
          refine mul_le_mul_of_nonneg_right ?_ (le_of_lt (two_zpow_pos _))
          exact_mod_cast atMost
      _ = ((2 ^ j : ℕ) : ℚ) := by
          rw [← two_zpow_natCast, ← two_zpow_natCast, ← two_zpow_add]
          congr 1
          omega
  have floored : ⌊((R : ℤ) : ℚ) * 2 ^ e⌋ ≤ ((2 ^ j : ℕ) : ℤ) := by
    have := Int.floor_le_floor value
    rwa [Int.floor_natCast] at this
  exact Int.toNat_le.mpr floored

private theorem isqrt_eq {n : ℕ} (small : n < 2 ^ 126) : isqrt n = Nat.sqrt n := by
  by_cases zero : n = 0
  · rw [zero]
    rfl
  · have guess : isqrtGuess n ≤ 2 ^ 63 :=
      isqrtGuess_le (Nat.pos_of_ne_zero zero) (le_of_lt (lt_of_lt_of_le small (by norm_num)))
    have start := isqrtDown_le n (isqrtGuess n) (lt_of_le_of_lt guess (by norm_num))
    rw [isqrt, if_neg zero]
    exact isqrtUp_eq small n _ start (le_trans (Nat.sqrt_le_self n) (Nat.le_add_left _ _))

private theorem root_compare {A B k : ℕ} (den : 0 < B) :
    ((A : ℚ) / B < ((2 * k + 1 : ℕ) : ℚ) / 2 * (((2 * k + 1 : ℕ) : ℚ) / 2) ↔
        A * 2 ^ 2 < (2 * k + 1) * (2 * k + 1) * B) ∧
      (((2 * k + 1 : ℕ) : ℚ) / 2 * (((2 * k + 1 : ℕ) : ℚ) / 2) < (A : ℚ) / B ↔
        (2 * k + 1) * (2 * k + 1) * B < A * 2 ^ 2) ∧
      ((A : ℚ) / B = ((k * k : ℕ) : ℚ) ↔ A = k * k * B) := by
  have part : (0 : ℚ) < B := by exact_mod_cast den
  refine ⟨?_, ?_, ?_⟩
  · rw [div_mul_div_comm, div_lt_div_iff₀ part (by norm_num)]
    norm_num
    norm_cast
  · rw [div_mul_div_comm, div_lt_div_iff₀ (by norm_num) part]
    norm_num
    norm_cast
  · rw [div_eq_iff (ne_of_gt part)]
    norm_cast

theorem root_range (fits : FitsWord f) {x : ℚ} (positive : 0 < x) (least : f.emin - f.fb ≤ Int.log 2 x) :
    ((2 ^ f.fb * 2 ^ f.fb : ℕ) : ℚ) ≤ x / 2 ^ (2 * rootPlace f x) ∧
      x / 2 ^ (2 * rootPlace f x) < ((2 ^ (f.fb + 1) * 2 ^ (f.fb + 1) : ℕ) : ℚ) ∧
      rootPlace f x = Int.log 2 x / 2 - f.fb := by
  have wide := fits.wide
  have eminEq : f.emin = 1 - f.bias := rfl
  have place : rootPlace f x = Int.log 2 x / 2 - f.fb := by
    rw [rootPlace, max_eq_left (by omega)]
  refine ⟨?_, ?_, place⟩
  · rw [le_div_iff₀ (two_zpow_pos _), ← pow_add, ← two_zpow_natCast, ← two_zpow_add]
    refine le_trans (two_zpow_le ?_) (log_spec positive).1
    push_cast
    omega
  · rw [div_lt_iff₀ (two_zpow_pos _), ← pow_add, ← two_zpow_natCast, ← two_zpow_add]
    refine lt_of_lt_of_le (log_spec positive).2 (two_zpow_le ?_)
    push_cast
    omega

/-- Numerator and denominator of the value that the interpreter takes the root
    of: the value divided by the square of the root's last place. -/
def rootParts (f : Fmt) (a : BitVec 64) : Big × Big :=
  (toQ f a).scaled (2 * (max ((toQ f a).ilog2 / 2) (emin f) - f.fb))

theorem rootParts_spec (fits : FitsWord f) (number : f.bexp a.toNat ≠ f.expMax) (nonzero : f.isZero a.toNat = false) :
    0 < (rootParts f a).2.toNat ∧
      ((rootParts f a).1.toNat : ℚ) / (rootParts f a).2.toNat =
        (toQ f a).size / 2 ^ (2 * rootPlace f (toQ f a).size) ∧
      ∃ rest, (rootParts f a).1.divremSmall (rootParts f a).2 =
          some ((rootParts f a).1.toNat / (rootParts f a).2.toNat, rest) ∧
        (rootParts f a).1.toNat / (rootParts f a).2.toNat < 2 ^ 124 ∧
        isqrt ((rootParts f a).1.toNat / (rootParts f a).2.toNat) =
          Nat.sqrt ((rootParts f a).1.toNat / (rootParts f a).2.toNat) := by
  obtain ⟨positive, least, -, log⟩ := size_range fits number nonzero
  have whole : 0 < (toQ f a).d.toNat := by
    rw [(toNat_toQ a).2]
    exact one_pos
  have place : max ((toQ f a).ilog2 / 2) (emin f) - f.fb = rootPlace f (toQ f a).size := by
    rw [rootPlace, log, emin_eq]
  obtain ⟨-, high, -⟩ := root_range fits positive least
  obtain ⟨den, ratio⟩ := Q.scaled_spec whole (2 * rootPlace f (toQ f a).size)
  rw [rootParts, place]
  rw [← ratio] at high ⊢
  generalize ((toQ f a).scaled (2 * rootPlace f (toQ f a).size)).1 = ya at *
  generalize ((toQ f a).scaled (2 * rootPlace f (toQ f a).size)).2 = yb at *
  have bits : 2 ^ (f.fb + 1) ≤ 2 ^ 62 :=
    Nat.pow_le_pow_right (by norm_num) (by have := fits.small; have := fits.exp; omega)
  have squares : 2 ^ (f.fb + 1) * 2 ^ (f.fb + 1) ≤ 2 ^ 62 * 2 ^ 62 := Nat.mul_le_mul bits bits
  have quotient : ya.toNat / yb.toNat < 2 ^ (f.fb + 1) * 2 ^ (f.fb + 1) := by
    rw [Nat.div_lt_iff_lt_mul den]
    rw [div_lt_iff₀ (by exact_mod_cast den)] at high
    exact_mod_cast high
  have short : ya.toNat / yb.toNat < 2 ^ 124 := lt_of_lt_of_le quotient (le_trans squares (by norm_num))
  obtain ⟨rest, divided, -⟩ := divremSmall_total den (lt_trans short (by norm_num))
  exact ⟨den, rfl, rest, divided, short, isqrt_eq (lt_trans short (by norm_num))⟩

theorem fsqrt_agrees (fits : FitsWord f) (m : RMode) (ftz : Bool) (inside : InFormat f a) :
    Agrees f (fsqrt f m ftz a) (FpModel.fsqrt f m ftz a.toNat) := by
  obtain ⟨same, flushed⟩ := toNat_flush fits ftz inside
  simp only [fsqrt, FpModel.fsqrt, isNan_eq fits, isInf_eq fits, isZero_eq fits, sgn_eq fits, ← same]
  generalize flush f ftz a = x at flushed ⊢
  split
  · exact agrees_nan
  next number =>
  split
  · exact agrees_some ⟨rfl, flushed⟩
  next nonzero =>
  split
  · exact agrees_nan
  next positiveSign =>
  split
  · exact agrees_some ⟨rfl, flushed⟩
  next finite =>
  rw [Bool.not_eq_true] at number nonzero positiveSign finite
  have bounded := finite_of_number number finite
  obtain ⟨positive, least, most, log⟩ := size_range fits bounded nonzero
  have sign : (toQ f x).neg = f.sgn x.toNat := sgn_eq fits x
  have value := value_toQ fits x
  rw [Q.value_eq, sign, positiveSign, FpModel.signed_false] at value
  have place : max ((toQ f x).ilog2 / 2) (emin f) - f.fb = rootPlace f (toQ f x).size := by
    rw [rootPlace, log, emin_eq]
  obtain ⟨low, high, placeEq⟩ := root_range fits positive least
  have wide := fits.wide
  have eminEq : f.emin = 1 - f.bias := rfl
  have emaxEq : f.emax = f.bias := rfl
  obtain ⟨den, ratio, rest, divided, short, isqrt⟩ := rootParts_spec fits bounded nonzero
  rw [rootParts, place] at den ratio divided short isqrt
  simp only [place]
  rw [← value, roundSqrtQ_eq positive]
  rw [← ratio] at low high ⊢
  generalize rootPlace f (toQ f x).size = e at *
  generalize ((toQ f x).scaled (2 * e)).1 = ya at *
  generalize ((toQ f x).scaled (2 * e)).2 = yb at *
  have floored : ((ya.toNat : ℚ) / yb.toNat).floor.toNat = ya.toNat / yb.toNat := by
    have := FpModel.floor_parts (Nat.mod_lt ya.toNat den) (FpModel.quotient_parts ya.toNat yb.toNat den)
    exact congrArg Int.toNat this
  have root : Nat.sqrt (ya.toNat / yb.toNat) < 2 ^ 62 := by
    rw [Nat.sqrt_lt]
    omega
  obtain ⟨K, rounded, bounds⟩ := roundIntSqrt_bounds m (div_nonneg (Nat.cast_nonneg ya.toNat) (Nat.cast_nonneg yb.toNat))
  have chosen := rounded
  simp only [FpModel.roundIntSqrt, floored] at chosen
  rw [divided, Option.bind_eq_bind, Option.bind_some]
  simp only [isqrt]
  generalize Nat.sqrt (ya.toNat / yb.toNat) = k at root chosen
  have odd : 2 * k + 1 < 2 ^ 128 := by omega
  have product : k * k < 2 ^ 128 := lt_of_lt_of_le (Nat.mul_lt_mul'' root root) (by norm_num)
  obtain ⟨h2, squared, square⟩ := mul_total (Big.ofNat (2 * k + 1)) (Big.ofNat (2 * k + 1))
  obtain ⟨rhs, halved, half⟩ := mul_total h2 yb
  obtain ⟨kk, whole', exact⟩ := mul_total (Big.ofNat (k * k)) yb
  obtain ⟨below, above, equal⟩ := root_compare (A := ya.toNat) (k := k) den
  rw [toNat_ofNat odd] at square
  rw [square] at half
  rw [toNat_ofNat product] at exact
  simp only [squared, halved, whole', Option.bind_eq_bind, Option.bind_some, cmp_eq, toNat_shl, half, exact]
  simp only [below, above, equal] at chosen
  have code : rootUp m k (compare (ya.toNat * 2 ^ 2) ((2 * k + 1) * (2 * k + 1) * yb.toNat))
      (compare ya.toNat (k * k * yb.toNat) == .eq) = K := by
    cases m with
    | rn =>
      simp only [rootUp] at chosen ⊢
      obtain less | same | more := lt_trichotomy (ya.toNat * 2 ^ 2) ((2 * k + 1) * (2 * k + 1) * yb.toNat)
      · rw [if_pos less] at chosen
        rw [compare_lt_iff_lt.mpr less]
        exact_mod_cast chosen
      · rw [if_neg (by omega), if_neg (by omega)] at chosen
        rw [compare_eq_iff_eq.mpr same]
        exact_mod_cast chosen
      · rw [if_neg (by omega), if_pos more] at chosen
        rw [compare_gt_iff_gt.mpr more]
        exact_mod_cast chosen
    | rz =>
      simp only [rootUp] at chosen ⊢
      exact_mod_cast chosen
    | rm =>
      simp only [rootUp] at chosen ⊢
      exact_mod_cast chosen
    | rp =>
      simp only [rootUp, beq_iff_eq, compare_eq_iff_eq] at chosen ⊢
      split at chosen
      next same =>
        rw [if_pos same]
        exact_mod_cast chosen
      next other =>
        rw [if_neg other]
        exact_mod_cast chosen
  have some : 1 ≤ K := le_trans Nat.one_le_two_pow ((bounds _).1 low)
  have bound : K ≤ 2 ^ (f.fb + 1) := (bounds _).2 (le_of_lt high)
  have limit : (K : ℚ) * 2 ^ e < 2 ^ (f.emax + 1) :=
    calc (K : ℚ) * 2 ^ e ≤ ((2 ^ (f.fb + 1) : ℕ) : ℚ) * 2 ^ e :=
          mul_le_mul_of_nonneg_right (by exact_mod_cast bound) (le_of_lt (two_zpow_pos _))
      _ = 2 ^ (((f.fb + 1 : ℕ) : ℤ) + e) := by rw [← two_zpow_natCast, ← two_zpow_add]
      _ < 2 ^ (f.emax + 1) := two_zpow_lt (by push_cast; omega)
  obtain ⟨y, encoded, pattern, format⟩ := encode_total fits false some bound (by omega) limit
  rw [FpModel.signed_false] at pattern
  rw [code, encoded, Option.bind_some, rounded]
  exact agrees_some ⟨pattern, format⟩

end E5r.FpBits
