import E5r.FpNumbers

/-!
The conversions between floats and integers, between the formats and to integral
floats are exact or rounded once: clamping an integer at `±2 ^ 70` and returning
a float without fraction bits as it is never change a result.
-/
namespace E5r.FpBits
open PtxSyntax (RMode)
open FpModel (Fmt signed abs_signed two_zpow_pos two_zpow_le two_zpow_lt two_zpow_add two_zpow_natCast log_spec)
open Roundings

variable {f : Fmt} {a : BitVec 64}

theorem rounded_self (m : RMode) {x : ℕ} (member : f.toQ x ∈ numbers f) : Rounded f m (f.toQ x : ℝ) x := by
  have down : RoundsDown (numbers f) (f.toQ x : ℝ) (f.toQ x) :=
    ⟨⟨member, le_refl _⟩, fun s below => by exact_mod_cast below.2⟩
  have up : RoundsUp (numbers f) (f.toQ x : ℝ) (f.toQ x) :=
    ⟨⟨member, le_refl _⟩, fun s above => by exact_mod_cast above.2⟩
  cases m with
  | rn =>
    refine ⟨⟨member, fun s _ => ?_⟩, ?_⟩
    · rw [sub_self, abs_zero]
      exact abs_nonneg _
    · intro s _ other tied
      rw [sub_self, abs_zero, abs_eq_zero, sub_eq_zero] at tied
      exact absurd (by exact_mod_cast tied) other
  | rz =>
    rw [Rounded]
    split
    · exact down
    · exact up
  | rm => exact down
  | rp => exact up

private theorem integer_range (fits : FitsWord f) (wide : 127 ≤ f.emax) (m : RMode) {v : ℤ} (nonzero : v ≠ 0)
    (small : v.natAbs ≤ 2 ^ 127) :
    FpModel.overflows f m v = false ∧ FpModel.tiny f m v = false := by
  obtain ⟨neg, same⟩ : ∃ neg : Bool, (v : ℚ) = signed neg (v.natAbs : ℚ) := by
    rcases lt_or_gt_of_ne nonzero with below | above
    · have size : v = -(v.natAbs : ℤ) := by omega
      refine ⟨true, ?_⟩
      rw [FpModel.signed_true, ← Int.cast_natCast, ← Int.cast_neg, ← size]
    · have size : v = (v.natAbs : ℤ) := by omega
      refine ⟨false, ?_⟩
      rw [FpModel.signed_false, ← Int.cast_natCast, ← size]
  have whole : 1 ≤ v.natAbs := by omega
  rw [same]
  generalize v.natAbs = n at *
  have positive : (0 : ℚ) < n := by exact_mod_cast whole
  obtain ⟨low, high⟩ := log_spec positive
  have top : (n : ℚ) ≤ 2 ^ (127 : ℤ) :=
    calc (n : ℚ) ≤ ((2 ^ 127 : ℕ) : ℚ) := by exact_mod_cast small
      _ = 2 ^ (127 : ℤ) := (two_zpow_natCast 127).symm
  have bottom : (2 : ℚ) ^ (0 : ℤ) ≤ n := by
    rw [zpow_zero]
    exact_mod_cast whole
  have logTop := (zpow_le_zpow_iff_right₀ (by norm_num : (1 : ℚ) < 2)).mp (le_trans low top)
  have logLow := (zpow_lt_zpow_iff_right₀ (by norm_num : (1 : ℚ) < 2)).mp (lt_of_le_of_lt bottom high)
  obtain ⟨P, precise⟩ := FpModel.roundsTo_exists m neg positive (Int.log 2 (n : ℚ) - f.fb)
  constructor
  · rw [← Bool.not_eq_true, FpModel.overflows_iff precise positive]
    rintro (above | ⟨border, carried⟩)
    · omega
    · have exponent : Int.log 2 (n : ℚ) = 127 := by omega
      have bound : P ≤ 2 ^ f.fb := by
        refine precise.ge positive (le_trans top (le_of_eq ?_))
        rw [exponent, ← two_zpow_natCast, ← two_zpow_add, add_sub_cancel]
      rw [carried, pow_succ] at bound
      have := Nat.two_pow_pos f.fb
      omega
  · rw [← Bool.not_eq_true, FpModel.tiny_iff precise positive]
    rintro ⟨below, -⟩
    have := fits.wide
    rw [Fmt.emin] at below
    omega

theorem ofInt_rounded (fits : FitsWord f) (wide : 127 ≤ f.emax) (m : RMode) (ftz : Bool) {v : ℤ}
    (small : v.natAbs ≤ 2 ^ 127) : Rounded f m (v : ℝ) (FpModel.ofInt f m ftz v) := by
  rw [FpModel.ofInt]
  by_cases zero : v = 0
  · obtain ⟨value, member⟩ := zero_value fits false
    have self := rounded_self m (by rw [value]; exact member : f.toQ (f.zero false) ∈ numbers f)
    rw [value, Rat.cast_zero] at self
    rw [zero, Int.cast_zero, Fmt.round, Int.cast_zero, if_pos rfl]
    exact self
  · obtain ⟨within, large⟩ := integer_range fits wide m zero small
    have rounded := round_rounded fits m ftz false (by exact_mod_cast zero) within (by rw [large, Bool.and_false])
    rwa [Rat.cast_intCast] at rounded

theorem roundInt_clamp (fits : FitsWord f) (m : RMode) (a : BitVec 64) :
    ∃ v, roundInt f m a = some v ∧ ∀ lo hi : ℤ, -2 ^ 70 ≤ lo → lo ≤ hi → hi ≤ 2 ^ 70 →
      max lo (min hi v) = max lo (min hi (FpModel.roundInt m (f.toQ a.toNat))) := by
  obtain ⟨v, rounded, bounds⟩ := roundInt_total fits m a
  refine ⟨v, rounded, ?_⟩
  intro lo hi low ordered high
  rcases bounds with exact | ⟨exact, above⟩ | ⟨exact, below⟩
  · rw [exact]
  · omega
  · omega

private theorem number_parts (fits : FitsWord f) (number : f.bexp a.toNat ≠ f.expMax) (nonzero : f.isZero a.toNat = false) :
    ∃ n e, Canonical f n e ∧ f.toQ a.toNat = signed (f.sgn a.toNat) ((n : ℚ) * 2 ^ e) := by
  obtain ⟨canonical, -⟩ := canonical_toQ fits number nonzero
  refine ⟨_, _, canonical, ?_⟩
  rw [← value_toQ fits, Q.value, (toNat_toQ a).2, Nat.cast_one, div_one]
  exact congrArg (signed · _) (sgn_eq fits a)

/-- A format whose precision and range contain another's. -/
structure Contains (d s : Fmt) : Prop where
  frac : s.fb ≤ d.fb
  least : d.emin - d.fb ≤ s.emin - s.fb
  top : s.emax < d.emax

theorem contains_f64_f32 : Contains .f64 .f32 := ⟨by decide, by decide, by decide⟩

theorem Contains.canonical {d s : Fmt} (contains : Contains d s) (fitsD : FitsWord d) {n : ℕ} {e : ℤ}
    (canonical : Canonical s n e) (neg : Bool) (m : RMode) :
    signed neg ((n : ℚ) * 2 ^ e) ∈ numbers d ∧ FpModel.overflows d m (signed neg ((n : ℚ) * 2 ^ e)) = false := by
  have positive : (0 : ℚ) < n * 2 ^ e := mul_pos (by exact_mod_cast canonical.some) (two_zpow_pos _)
  have short : n ≤ 2 ^ (d.fb + 1) :=
    le_trans (le_of_lt canonical.short) (Nat.pow_le_pow_right (by norm_num) (by have := contains.frac; omega))
  have finite : (n : ℚ) * 2 ^ e < 2 ^ (d.emax + 1) :=
    lt_trans canonical.finite (two_zpow_lt (by have := contains.top; omega))
  refine ⟨(encode_value fitsD neg canonical.some short (le_trans contains.least canonical.least) finite).2, ?_⟩
  obtain ⟨P, precise⟩ := FpModel.roundsTo_exists m neg positive (Int.log 2 ((n : ℚ) * 2 ^ e) - d.fb)
  have log := (zpow_lt_zpow_iff_right₀ (by norm_num : (1 : ℚ) < 2)).mp
    (lt_of_le_of_lt (log_spec positive).1 canonical.finite)
  rw [← Bool.not_eq_true, FpModel.overflows_iff precise positive]
  have := contains.top
  rintro (above | ⟨border, -⟩) <;> omega

private theorem flush_finite (fits : FitsWord f) (ftz : Bool) (number : isNan f a = false) (finite : isInf f a = false) :
    f.bexp (flush f ftz a).toNat ≠ f.expMax := by
  rw [flush]
  split
  · rw [toNat_zero fits]
    exact (zero_fields fits _).2.2
  · rw [isNan_eq fits] at number
    rw [isInf_eq fits] at finite
    exact finite_of_number number finite

private theorem not_special {x : ℕ} (number : f.bexp x ≠ f.expMax) : f.isNaN x = false ∧ f.isInf x = false := by
  simp [Fmt.isNaN, Fmt.isInf, number]

private theorem convertF_number {d s : Fmt} (fitsD : FitsWord d) (fitsS : FitsWord s) (m : RMode) (ftz : Bool)
    (inside : InFormat s a) (number : isNan s a = false) (finite : isInf s a = false)
    (nonzero : s.isZero (flush s (ftz && decide (s = .f32)) a).toNat = false) :
    ∃ r, convertF d s m ftz false a = some (some r) ∧
      r.toNat = d.round m (ftz && decide (d = .f32)) (s.toQ (flush s (ftz && decide (s = .f32)) a).toNat)
        (s.sgn (flush s (ftz && decide (s = .f32)) a).toNat) := by
  obtain ⟨same, -⟩ := toNat_flush fitsS (ftz && decide (s = .f32)) inside
  obtain ⟨notNan, notInf⟩ := not_special (flush_finite fitsS (ftz && decide (s = .f32)) number finite)
  obtain ⟨result, computed, agrees⟩ := convertF_agrees fitsD fitsS m ftz false inside
  simp only [FpModel.convertF, ← same, notNan, notInf, nonzero, Bool.false_eq_true, if_false, Fmt.sat,
    Bool.not_false, if_true] at agrees
  cases agrees with
  | @some r _ pattern => exact ⟨r, computed, pattern.1⟩

theorem convertF_widens (m : RMode) (ftz : Bool) (inside : InFormat .f32 a) (number : isNan .f32 a = false)
    (finite : isInf .f32 a = false) :
    ∃ r, convertF .f64 .f32 m ftz false a = some (some r) ∧
      Fmt.f64.toQ r.toNat = Fmt.f32.toQ (flush .f32 ftz a).toNat := by
  have only : (ftz && decide ((Fmt.f32 : Fmt) = .f32)) = ftz := by simp
  have bounded := flush_finite fitsWord_f32 ftz number finite
  by_cases zero : Fmt.f32.isZero (flush .f32 ftz a).toNat = true
  · obtain ⟨notNan, notInf⟩ := not_special bounded
    refine ⟨FpBits.zero .f64 (sgn .f32 (flush .f32 ftz a)), ?_, ?_⟩
    · rw [← isZero_eq fitsWord_f32] at zero
      rw [← isNan_eq fitsWord_f32] at notNan
      rw [← isInf_eq fitsWord_f32] at notInf
      simp [convertF, notNan, notInf, zero, sat]
    · rw [toNat_zero fitsWord_f64, (zero_value fitsWord_f64 _).1, (toQ_eq_zero_iff _ _).mpr zero]
  · rw [Bool.not_eq_true] at zero
    obtain ⟨r, computed, pattern⟩ := convertF_number (d := .f64) fitsWord_f64 fitsWord_f32 m ftz inside number finite
      (by rw [only]; exact zero)
    obtain ⟨n, e, canonical, value⟩ := number_parts fitsWord_f32 bounded zero
    obtain ⟨member, within⟩ := contains_f64_f32.canonical fitsWord_f64 canonical
      (Fmt.f32.sgn (flush .f32 ftz a).toNat) m
    rw [← value] at member within
    have nonzero : Fmt.f32.toQ (flush .f32 ftz a).toNat ≠ 0 := by
      rw [Ne, toQ_eq_zero_iff, zero]
      exact Bool.false_ne_true
    have rounded := round_rounded fitsWord_f64 m false (Fmt.f32.sgn (flush .f32 ftz a).toNat) nonzero within
      (Bool.false_and _)
    have wide : (ftz && decide ((Fmt.f64 : Fmt) = .f32)) = false := by
      rw [Bool.and_eq_false_iff]
      exact .inr (by decide)
    rw [only, wide] at pattern
    refine ⟨r, computed, ?_⟩
    rw [pattern]
    exact rounded.exact member rfl

theorem convertF_narrows (m : RMode) (ftz : Bool) (inside : InFormat .f64 a) (number : isNan .f64 a = false)
    (finite : isInf .f64 a = false) (nonzero : isZero .f64 a = false)
    (within : FpModel.overflows .f32 m (Fmt.f64.toQ a.toNat) = false)
    (kept : (ftz && FpModel.tiny .f32 m (Fmt.f64.toQ a.toNat)) = false) :
    ∃ r, convertF .f32 .f64 m ftz false a = some (some r) ∧ Rounded .f32 m (Fmt.f64.toQ a.toNat : ℝ) r.toNat := by
  have never : (ftz && decide ((Fmt.f64 : Fmt) = .f32)) = false := by
    rw [Bool.and_eq_false_iff]
    exact .inr (by decide)
  have narrow : (ftz && decide ((Fmt.f32 : Fmt) = .f32)) = ftz := by simp
  have same : flush .f64 (ftz && decide ((Fmt.f64 : Fmt) = .f32)) a = a := by rw [never, flush]; rfl
  rw [isZero_eq fitsWord_f64] at nonzero
  obtain ⟨r, computed, pattern⟩ := convertF_number (d := .f32) fitsWord_f32 fitsWord_f64 m ftz inside number finite
    (by rw [same]; exact nonzero)
  rw [same, narrow] at pattern
  refine ⟨r, computed, ?_⟩
  rw [pattern]
  refine round_rounded fitsWord_f32 m ftz _ ?_ within kept
  rw [Ne, toQ_eq_zero_iff, nonzero]
  exact Bool.false_ne_true

/-- Every conversion computes the model's result and none panics: an integer is
    the rounded value clamped to its range, for which the earlier clamp at
    `±2 ^ 70` makes no difference; a float of an integer is the integer rounded
    onto the format; an integral float is the encoded rounded value, which is the
    pattern itself where the exponent leaves no fraction bits; narrowing rounds
    the value once and widening is exact. -/
theorem conversions_correct {f : Fmt} (known : f = .f32 ∨ f = .f64) (m : RMode) (ftz : Bool) :
    (∀ (signed : Bool) (w : ℕ) (a : BitVec 64), w = 32 ∨ w = 64 → InFormat f a →
      (∃ x, toInt f m ftz signed w a = some x ∧ x.toNat = FpModel.toInt f m ftz signed w a.toNat) ∧
      ∃ v, roundInt f m a = some v ∧ ∀ lo hi : ℤ, -2 ^ 70 ≤ lo → lo ≤ hi → hi ≤ 2 ^ 70 →
        max lo (min hi v) = max lo (min hi (FpModel.roundInt m (f.toQ a.toNat)))) ∧
    (∀ v : ℤ, -2 ^ 127 ≤ v → v < 2 ^ 127 →
      ∃ x, ofInt f m ftz v = some x ∧ x.toNat = FpModel.ofInt f m ftz v ∧ Rounded f m (v : ℝ) x.toNat) ∧
    (∀ a : BitVec 64, InFormat f a →
      Computes (roundIntegral f m ftz a) (FpModel.roundIntegral f m ftz a.toNat) ∧
      (isNan f a = false → isInf f a = false → isZero f a = false → (toQ f a).ilog2 ≥ f.fb →
        ((FpModel.roundInt m (f.toQ a.toNat) : ℤ) : ℚ) = f.toQ a.toNat)) ∧
    (∀ (d : Fmt) (sat : Bool) (a : BitVec 64), d = .f32 ∨ d = .f64 → InFormat f a →
      Computes (convertF d f m ftz sat a) (FpModel.convertF d f m ftz sat a.toNat)) ∧
    (∀ a : BitVec 64, InFormat .f64 a → isNan .f64 a = false → isInf .f64 a = false → isZero .f64 a = false →
      FpModel.overflows .f32 m (Fmt.f64.toQ a.toNat) = false →
      (ftz && FpModel.tiny .f32 m (Fmt.f64.toQ a.toNat)) = false →
      ∃ r, convertF .f32 .f64 m ftz false a = some (some r) ∧ Rounded .f32 m (Fmt.f64.toQ a.toNat : ℝ) r.toNat) ∧
    ∀ a : BitVec 64, InFormat .f32 a → isNan .f32 a = false → isInf .f32 a = false →
      ∃ r, convertF .f64 .f32 m ftz false a = some (some r) ∧
        Fmt.f64.toQ r.toNat = Fmt.f32.toQ (flush .f32 ftz a).toNat := by
  have fits := fitsWord_of_known known
  have wide : 127 ≤ f.emax := by
    rcases known with rfl | rfl <;> decide
  refine ⟨?_, ?_, ?_, ?_, fun a inside number finite nonzero within kept =>
    convertF_narrows m ftz inside number finite nonzero within kept,
    fun a inside number finite => convertF_widens m ftz inside number finite⟩
  · intro signed w a width inside
    obtain ⟨x, computed, same, -⟩ := toInt_agrees fits m ftz signed (by omega : 1 ≤ w) (by omega) inside
    exact ⟨⟨x, computed, same⟩, roundInt_clamp fits m a⟩
  · intro v low high
    obtain ⟨x, computed, pattern⟩ := ofInt_agrees fits m ftz (by omega : v.natAbs < 2 ^ 128)
    exact ⟨x, computed, pattern.1, by rw [pattern.1]; exact ofInt_rounded fits wide m ftz (by omega)⟩
  · intro a inside
    refine ⟨(roundIntegral_agrees fits m ftz inside).computes, ?_⟩
    intro number finite nonzero integral
    rw [isNan_eq fits] at number
    rw [isInf_eq fits] at finite
    rw [isZero_eq fits] at nonzero
    exact roundInt_of_integral fits m (finite_of_number number finite) nonzero integral
  · intro d sat a target inside
    exact (convertF_agrees (fitsWord_of_known target) fits m ftz sat inside).computes

/-- Two and a half goes to the even integer, and so does the first integer that
    no single holds. -/
theorem conversions_correct_known :
    (∃ x, toInt .f32 .rn false true 32 0x40200000#64 = some x ∧ x.toNat = 2) ∧
    ∃ x, ofInt .f32 .rn false 16777217 = some x ∧ x.toNat = 0x4b800000 := by
  obtain ⟨integers, floats, -⟩ := conversions_correct (f := .f32) (.inl rfl) .rn false
  obtain ⟨⟨x, computed, same⟩, -⟩ := integers true 32 0x40200000#64 (.inl rfl) (by unfold InFormat; decide)
  obtain ⟨y, rounded, pattern, -⟩ := floats 16777217 (by norm_num) (by norm_num)
  have half : FpModel.toInt .f32 .rn false true 32 0x40200000 = 2 := by decide +kernel
  have even : FpModel.ofInt .f32 .rn false 16777217 = 0x4b800000 := by decide +kernel
  exact ⟨⟨x, computed, same.trans half⟩, y, rounded, pattern.trans even⟩

end E5r.FpBits
