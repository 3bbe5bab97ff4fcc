import E5r.FpPatterns

/-!
The interpreter's rounding of a signed quotient is the model's rounding of its
value, and with it addition, subtraction, multiplication, fused multiply-add,
division and reciprocal return the pattern that the model defines.
-/
namespace E5r.FpBits
open PtxSyntax (RMode)
open FpModel (Fmt pow2 pow2_eq signed signed_eq_zero signed_neg_iff abs_signed RoundsTo roundsUp roundInt
  two_zpow_pos two_zpow_le two_zpow_lt two_zpow_add two_zpow_natCast log_spec log_unique ilog2_eq_log
  overflows_iff tiny_iff overflows tiny roundQ qexp)
open Limbs

/-! ### Signed quotients -/

/-- The absolute value of a signed quotient. -/
def Q.size (q : Q) : ℚ := (q.n.toNat : ℚ) / q.d.toNat * 2 ^ q.e

theorem Q.value_eq (q : Q) : q.value = signed q.neg q.size := rfl

variable {q : Q}

theorem Q.size_nonneg (q : Q) : 0 ≤ q.size :=
  mul_nonneg (div_nonneg (Nat.cast_nonneg _) (Nat.cast_nonneg _)) (le_of_lt (two_zpow_pos _))

theorem Q.size_pos (whole : 0 < q.d.toNat) (nonzero : q.n.toNat ≠ 0) : 0 < q.size :=
  mul_pos (div_pos (by exact_mod_cast Nat.pos_of_ne_zero nonzero) (by exact_mod_cast whole)) (two_zpow_pos _)

theorem Q.scaled_spec (whole : 0 < q.d.toNat) (k : ℤ) :
    0 < (q.scaled k).2.toNat ∧ ((q.scaled k).1.toNat : ℚ) / (q.scaled k).2.toNat = q.size / 2 ^ k := by
  have size : q.size / 2 ^ k = (q.n.toNat : ℚ) / q.d.toNat * 2 ^ (q.e - k) := by
    rw [Q.size, mul_div_assoc, zpow_sub₀ (by norm_num)]
  rw [size, Q.scaled]
  by_cases up : q.e - k ≥ 0
  · obtain ⟨n, exponent⟩ := Int.eq_ofNat_of_zero_le up
    simp only [if_pos up]
    simp only [exponent, Int.toNat_natCast, toNat_shl]
    refine ⟨whole, ?_⟩
    push_cast
    rw [zpow_natCast, div_mul_eq_mul_div]
  · obtain ⟨n, exponent⟩ := Int.eq_ofNat_of_zero_le (by omega : 0 ≤ -(q.e - k))
    have negated : q.e - k = -(n : ℤ) := by omega
    simp only [if_neg up]
    simp only [negated, neg_neg, Int.toNat_natCast, toNat_shl]
    refine ⟨Nat.mul_pos whole (Nat.two_pow_pos _), ?_⟩
    push_cast
    rw [zpow_neg, zpow_natCast, div_mul_eq_div_div, div_eq_mul_inv (_ / _)]

theorem Q.isZero_iff (whole : 0 < q.d.toNat) : q.isZero = true ↔ q.size = 0 := by
  rw [Q.isZero, Limbs.isZero_iff]
  constructor
  · intro zero
    simp [Q.size, zero]
  · intro zero
    by_contra nonzero
    exact absurd zero (ne_of_gt (Q.size_pos whole nonzero))

theorem Q.ltPow2_eq (whole : 0 < q.d.toNat) (k : ℤ) : q.ltPow2 k = decide (q.size < 2 ^ k) := by
  obtain ⟨den, ratio⟩ := Q.scaled_spec whole k
  have below : q.size < 2 ^ k ↔ (q.scaled k).1.toNat < (q.scaled k).2.toNat := by
    rw [← div_lt_one (two_zpow_pos k), ← ratio, div_lt_one (by exact_mod_cast den), Nat.cast_lt]
  have code : q.ltPow2 k = ((q.scaled k).1.cmp (q.scaled k).2 == .lt) := rfl
  rw [code, cmp_eq, Bool.eq_iff_iff, beq_iff_eq, Nat.compare_eq_lt, decide_eq_true_iff, below]

/-- The bit lengths give the logarithm up to one, and the comparison corrects it. -/
theorem Q.ilog2_eq (whole : 0 < q.d.toNat) (nonzero : q.n.toNat ≠ 0) : q.ilog2 = Int.log 2 q.size := by
  obtain ⟨someN, lowN, highN⟩ := bits_spec q.n nonzero
  obtain ⟨someD, lowD, highD⟩ := bits_spec q.d (Nat.pos_iff_ne_zero.mp whole)
  obtain ⟨below, above⟩ := FpModel.quotient_near (i := q.n.bits - 1) (j := q.d.bits - 1) lowN
    (by rwa [Nat.sub_add_cancel someN]) lowD (by rwa [Nat.sub_add_cancel someD])
  have code : q.ilog2 = if q.ltPow2 ((q.n.bits : ℤ) - q.d.bits + q.e) then (q.n.bits : ℤ) - q.d.bits + q.e - 1
      else (q.n.bits : ℤ) - q.d.bits + q.e := rfl
  rw [code, Q.ltPow2_eq whole]
  simp only [decide_eq_true_iff]
  apply FpModel.log_of_near
  · calc (2 : ℚ) ^ ((q.n.bits : ℤ) - q.d.bits + q.e - 1)
        = 2 ^ (((q.n.bits - 1 : ℕ) : ℤ) - ((q.d.bits - 1 : ℕ) : ℤ) - 1) * 2 ^ q.e := by
          rw [← two_zpow_add]
          congr 1
          omega
      _ ≤ q.size := mul_le_mul_of_nonneg_right below (le_of_lt (two_zpow_pos _))
  · calc q.size < 2 ^ (((q.n.bits - 1 : ℕ) : ℤ) - ((q.d.bits - 1 : ℕ) : ℤ) + 1) * 2 ^ q.e :=
          mul_lt_mul_of_pos_right above (two_zpow_pos _)
      _ = 2 ^ ((q.n.bits : ℤ) - q.d.bits + q.e + 1) := by
          rw [← two_zpow_add]
          congr 1
          omega

theorem roundAt_total (m : RMode) (whole : 0 < q.d.toNat) {qe : ℤ} (small : q.size < 2 ^ (127 + qe)) :
    ∃ K, roundAt m q qe = some K ∧ RoundsTo m q.neg q.size qe K := by
  obtain ⟨den, ratio⟩ := Q.scaled_spec whole qe
  have quotient : (q.scaled qe).1.toNat / (q.scaled qe).2.toNat < 2 ^ 127 := by
    rw [Nat.div_lt_iff_lt_mul den]
    have : ((q.scaled qe).1.toNat : ℚ) / (q.scaled qe).2.toNat < 2 ^ 127 := by
      rw [ratio, div_lt_iff₀ (two_zpow_pos qe)]
      rw [two_zpow_add] at small
      exact_mod_cast small
    rw [div_lt_iff₀ (by exact_mod_cast den)] at this
    exact_mod_cast this
  obtain ⟨r, divided, rest⟩ := divremSmall_total den quotient
  refine ⟨(q.scaled qe).1.toNat / (q.scaled qe).2.toNat +
    (roundsUp m q.neg ((q.scaled qe).1.toNat / (q.scaled qe).2.toNat) r.toNat (q.scaled qe).2.toNat).toNat,
    ?_, ?_⟩
  · have twice : (r.shl 1).toNat = 2 * r.toNat := by
      rw [toNat_shl]
      omega
    have some : r.isZero = decide (r.toNat = 0) := by
      rw [Bool.eq_iff_iff, isZero_iff, decide_eq_true_iff]
    simp only [roundAt, divided, Option.bind_eq_bind, Option.bind_some, cmp_eq, twice, some]
    congr 2
    cases m with
    | rn =>
      simp only [roundsUp]
      obtain less | same | more := lt_trichotomy (2 * r.toNat) (q.scaled qe).2.toNat
      · have : ¬(q.scaled qe).2.toNat < 2 * r.toNat := by omega
        simp [Nat.compare_eq_lt.mpr less, this, ne_of_lt less]
      · rw [Nat.compare_eq_eq.mpr same]
        simp [same]
        rfl
      · simp [Nat.compare_eq_gt.mpr more, more]
    | rz => rfl
    | rm => simp [roundsUp]
    | rp => simp [roundsUp]
  · rw [RoundsTo, ← ratio, rest]
    exact FpModel.roundInt_quotient m q.neg _ _ den

/-! ### Encoding -/

variable {f : Fmt}

/-- A significand and an exponent in the shape of the format: of full length,
    or at the least exponent. -/
structure Canonical (f : Fmt) (mm : ℕ) (qe : ℤ) : Prop where
  some : 0 < mm
  short : mm < 2 ^ (f.fb + 1)
  least : f.emin - f.fb ≤ qe
  full : 2 ^ f.fb ≤ mm ∨ qe = f.emin - f.fb
  finite : (mm : ℚ) * 2 ^ qe < 2 ^ (f.emax + 1)

/-- The pattern of a canonical significand and exponent. -/
def assemble (f : Fmt) (neg : Bool) (mm : ℕ) (qe : ℤ) : ℕ :=
  if mm < 2 ^ f.fb then f.zero neg + mm
  else f.zero neg + (qe + f.fb + f.bias).toNat * 2 ^ f.fb + (mm - 2 ^ f.fb)

theorem Canonical.exponent {mm : ℕ} {qe : ℤ} (canonical : Canonical f mm qe) (full : 2 ^ f.fb ≤ mm) :
    Int.log 2 ((mm : ℚ) * 2 ^ qe) = qe + f.fb ∧ qe + f.fb ≤ f.emax := by
  have low : (2 : ℚ) ^ (qe + f.fb) ≤ mm * 2 ^ qe := by
    rw [add_comm, two_zpow_add, two_zpow_natCast]
    exact mul_le_mul_of_nonneg_right (by exact_mod_cast full) (le_of_lt (two_zpow_pos _))
  have high : (mm : ℚ) * 2 ^ qe < 2 ^ (qe + f.fb + 1) := by
    rw [add_assoc, add_comm, two_zpow_add, ← Nat.cast_succ, two_zpow_natCast]
    exact mul_lt_mul_of_pos_right (by exact_mod_cast canonical.short) (two_zpow_pos _)
  refine ⟨log_unique low high, ?_⟩
  have := (zpow_lt_zpow_iff_right₀ (by norm_num : (1 : ℚ) < 2)).mp (lt_of_le_of_lt low canonical.finite)
  omega

theorem Canonical.encode_model {mm : ℕ} {qe : ℤ} (canonical : Canonical f mm qe) (neg : Bool) :
    f.encode (signed neg ((mm : ℚ) * 2 ^ qe)) = assemble f neg mm qe := by
  have positive : (0 : ℚ) < mm * 2 ^ qe :=
    mul_pos (by exact_mod_cast canonical.some) (two_zpow_pos _)
  have floor (k : ℤ) (same : k = qe) : ((mm : ℚ) * 2 ^ qe / 2 ^ k).floor.toNat = mm := by
    subst same
    rw [mul_div_cancel_right₀ _ (ne_of_gt (two_zpow_pos _))]
    exact congrArg Int.toNat (Int.floor_natCast (R := ℚ) mm)
  rw [Fmt.encode, assemble, signed_neg_iff neg positive, abs_signed, abs_of_pos positive,
    ilog2_eq_log positive]
  simp only [pow2_eq]
  by_cases full : 2 ^ f.fb ≤ mm
  · obtain ⟨log, -⟩ := canonical.exponent full
    have normal : ¬qe + f.fb < f.emin := by have := canonical.least; omega
    rw [log, if_neg normal, if_neg (not_lt.mpr full), floor _ (by ring)]
  · have least : qe = f.emin - f.fb := canonical.full.resolve_left full
    have below : Int.log 2 ((mm : ℚ) * 2 ^ qe) < f.emin := by
      have := (log_spec positive).1
      have small : (mm : ℚ) * 2 ^ qe < 2 ^ f.emin := by
        have split : f.emin = f.fb + (f.emin - f.fb) := by ring
        rw [least, split, two_zpow_add, two_zpow_natCast, ← split]
        exact mul_lt_mul_of_pos_right (by exact_mod_cast not_le.mp full) (two_zpow_pos _)
      exact (zpow_lt_zpow_iff_right₀ (by norm_num : (1 : ℚ) < 2)).mp (lt_of_le_of_lt this small)
    rw [if_pos below, if_pos (not_le.mp full), floor _ least.symm]

/-- Halving a significand that the rounding carried into the next power of two
    keeps its value. -/
theorem encodeDown_spec {mm : ℕ} (bound : mm ≤ 2 ^ (f.fb + 1)) (qe : ℤ) (n : ℕ) :
    encodeDown f (n + 2) mm qe =
      some (if mm = 2 ^ (f.fb + 1) then (2 ^ f.fb, qe + 1) else (mm, qe)) := by
  have limit : 1 <<< (f.fb + 1) = 2 ^ (f.fb + 1) := Nat.one_shiftLeft _
  have half := Nat.two_pow_pos f.fb
  by_cases carry : mm = 2 ^ (f.fb + 1)
  · have even : 2 ^ (f.fb + 1) % 2 = 0 := by
      rw [pow_succ]
      omega
    have halved : 2 ^ (f.fb + 1) >>> 1 = 2 ^ f.fb := by
      rw [Nat.shiftRight_eq_div_pow, pow_succ]
      omega
    have short : ¬2 ^ f.fb ≥ 2 ^ (f.fb + 1) := by
      rw [pow_succ]
      omega
    subst carry
    simp only [encodeDown, limit, even, halved, short, ge_iff_le, le_refl, if_true, if_false]
  · have short : ¬mm ≥ 2 ^ (f.fb + 1) := by omega
    simp only [encodeDown, limit, short, carry, if_false]

/-- Doubling with the exponent going down keeps the value and ends canonical. -/
theorem encodeUp_spec (n : ℕ) : ∀ {mm : ℕ} {qe : ℤ}, 0 < mm → mm < 2 ^ (f.fb + 1) →
    f.emin - f.fb ≤ qe → (qe - (f.emin - f.fb)).toNat ≤ n → (mm : ℚ) * 2 ^ qe < 2 ^ (f.emax + 1) →
    ∃ mm' qe', encodeUp f n mm qe = (mm', qe') ∧ (mm' : ℚ) * 2 ^ qe' = mm * 2 ^ qe ∧ Canonical f mm' qe' := by
  have limit : 1 <<< f.fb = 2 ^ f.fb := Nat.one_shiftLeft _
  induction n with
  | zero =>
    intro mm qe some short least done finite
    exact ⟨mm, qe, rfl, rfl, some, short, least, .inr (by omega), finite⟩
  | succ n ih =>
    intro mm qe some short least steps finite
    simp only [encodeUp, limit, emin_eq]
    by_cases more : mm < 2 ^ f.fb ∧ qe > f.emin - f.fb
    · rw [if_pos more]
      have double : mm <<< 1 = mm * 2 := by rw [Nat.shiftLeft_eq, pow_one]
      have same : ((mm <<< 1 : ℕ) : ℚ) * 2 ^ (qe - 1) = mm * 2 ^ qe := by
        rw [double, zpow_sub_one₀ (by norm_num)]
        push_cast
        ring
      obtain ⟨mm', qe', result, value, canonical⟩ := @ih (mm <<< 1) (qe - 1) (by omega)
        (by rw [double, pow_succ]; omega) (by omega) (by omega) (by rw [same]; exact finite)
      exact ⟨mm', qe', result, value.trans same, canonical⟩
    · rw [if_neg more]
      refine ⟨mm, qe, rfl, rfl, some, short, least, ?_, finite⟩
      by_cases full : 2 ^ f.fb ≤ mm
      · exact .inl full
      · right
        omega

private theorem toNat_assemble (fits : FitsWord f) (neg : Bool) {mm : ℕ} {qe : ℤ} (canonical : Canonical f mm qe) :
    let code : BitVec 64 :=
      if mm < 1 <<< f.fb then zero f neg + BitVec.ofNat 64 mm
      else zero f neg + (BitVec.ofInt 64 (qe + f.fb + bias f) <<< f.fb) + (BitVec.ofNat 64 mm - (1#64 <<< f.fb))
    code.toNat = assemble f neg mm qe ∧ InFormat f code := by
  have word : 2 ^ (f.fb + 1) ≤ 2 ^ 64 :=
    Nat.pow_le_pow_right (by norm_num) (by have := fits.small; have := fits.exp; omega)
  have wordExp : 2 ^ f.eb ≤ 2 ^ 64 := Nat.pow_le_pow_right (by norm_num) (by have := fits.small; omega)
  have short := canonical.short
  have small : (BitVec.ofNat 64 mm).toNat = mm := by
    rw [BitVec.toNat_ofNat]
    exact Nat.mod_eq_of_lt (by omega)
  intro code
  rw [assemble, InFormat]
  by_cases full : mm < 2 ^ f.fb
  · have shape : code = zero f neg + (0#64 <<< f.fb) + BitVec.ofNat 64 mm := by
      simp [code, Nat.one_shiftLeft, full]
    obtain ⟨sum, bound⟩ := @toNat_pattern f fits neg 0#64 (BitVec.ofNat 64 mm)
      (Nat.two_pow_pos _) (by rw [small]; exact full)
    rw [shape, sum, if_pos full, small]
    refine ⟨by simp, ?_⟩
    rw [small] at bound
    exact bound
  · have shape : code = zero f neg + (BitVec.ofInt 64 (qe + f.fb + bias f) <<< f.fb) +
        (BitVec.ofNat 64 mm - (1#64 <<< f.fb)) := by
      simp [code, Nat.one_shiftLeft, full]
    obtain ⟨-, top⟩ := canonical.exponent (not_lt.mp full)
    have least := canonical.least
    have range : 2 * f.bias + 2 ≤ 2 ^ f.eb := by
      have half : 2 ^ f.eb = 2 ^ (f.eb - 1) * 2 := by
        rw [← pow_succ, Nat.sub_add_cancel (by have := fits.exp; omega)]
      have := Nat.two_pow_pos (f.eb - 1)
      rw [Fmt.bias, half]
      omega
    rw [Fmt.emin] at least
    rw [Fmt.emax] at top
    obtain ⟨b, exponent⟩ := Int.eq_ofNat_of_zero_le (by omega : 0 ≤ qe + f.fb + f.bias)
    have field : (BitVec.ofInt 64 (qe + f.fb + bias f)).toNat = b := by
      rw [bias_eq, exponent, BitVec.ofInt_natCast, BitVec.toNat_ofNat]
      exact Nat.mod_eq_of_lt (by omega)
    have rest : (BitVec.ofNat 64 mm - (1#64 <<< f.fb)).toNat = mm - 2 ^ f.fb := by
      rw [BitVec.toNat_sub_of_le, small, toNat_one_shl]
      · have := fits.small
        have := fits.exp
        omega
      · rw [BitVec.le_def, small, toNat_one_shl]
        · omega
        · have := fits.small
          have := fits.exp
          omega
    obtain ⟨sum, bound⟩ := @toNat_pattern f fits neg (BitVec.ofInt 64 (qe + f.fb + bias f))
      (BitVec.ofNat 64 mm - (1#64 <<< f.fb)) (by rw [field]; omega) (by rw [rest]; rw [pow_succ] at short; omega)
    rw [shape, sum, if_neg full, field, rest, exponent]
    refine ⟨rfl, ?_⟩
    rw [field, rest] at bound
    exact bound

private theorem normalize_total {mm : ℕ} {qe : ℤ} (some : 0 < mm) (bound : mm ≤ 2 ^ (f.fb + 1))
    (least : f.emin - f.fb ≤ qe) (finite : (mm : ℚ) * 2 ^ qe < 2 ^ (f.emax + 1)) :
    ∃ mm₁ qe₁ mm₂ qe₂, encodeDown f 128 mm qe = Option.some (mm₁, qe₁) ∧
      encodeUp f (qe₁ - (f.emin - f.fb)).toNat mm₁ qe₁ = (mm₂, qe₂) ∧
      (mm₂ : ℚ) * 2 ^ qe₂ = mm * 2 ^ qe ∧ Canonical f mm₂ qe₂ := by
  have down := encodeDown_spec bound qe 126
  obtain ⟨mm₁, qe₁, step, value, some₁, short₁, least₁⟩ : ∃ mm₁ qe₁,
      encodeDown f 128 mm qe = Option.some (mm₁, qe₁) ∧ (mm₁ : ℚ) * 2 ^ qe₁ = mm * 2 ^ qe ∧
        0 < mm₁ ∧ mm₁ < 2 ^ (f.fb + 1) ∧ f.emin - f.fb ≤ qe₁ := by
    by_cases carry : mm = 2 ^ (f.fb + 1)
    · refine ⟨2 ^ f.fb, qe + 1, ?_, ?_, Nat.two_pow_pos _, Nat.pow_lt_pow_right (by norm_num) (by omega), by omega⟩
      · simpa [carry] using down
      · rw [carry, zpow_add_one₀ (by norm_num), pow_succ]
        push_cast
        ring
    · refine ⟨mm, qe, ?_, rfl, some, by omega, least⟩
      simpa [carry] using down
  obtain ⟨mm₂, qe₂, up, same, canonical⟩ := encodeUp_spec (qe₁ - (f.emin - f.fb)).toNat some₁ short₁ least₁
    (le_refl _) (by rw [value]; exact finite)
  exact ⟨mm₁, qe₁, mm₂, qe₂, step, up, same.trans value, canonical⟩

theorem canonical_exists {mm : ℕ} {qe : ℤ} (some : 0 < mm) (bound : mm ≤ 2 ^ (f.fb + 1))
    (least : f.emin - f.fb ≤ qe) (finite : (mm : ℚ) * 2 ^ qe < 2 ^ (f.emax + 1)) :
    ∃ (mm' : ℕ) (qe' : ℤ), (mm' : ℚ) * 2 ^ qe' = mm * 2 ^ qe ∧ Canonical f mm' qe' := by
  obtain ⟨-, -, mm₂, qe₂, -, -, same, canonical⟩ := normalize_total some bound least finite
  exact ⟨mm₂, qe₂, same, canonical⟩

/-- The pattern of a significand that fits with its exponent into the format is
    the model's. -/
theorem encode_total (fits : FitsWord f) (neg : Bool) {mm : ℕ} {qe : ℤ} (some : 0 < mm)
    (bound : mm ≤ 2 ^ (f.fb + 1)) (least : f.emin - f.fb ≤ qe) (finite : (mm : ℚ) * 2 ^ qe < 2 ^ (f.emax + 1)) :
    ∃ x, encode f neg mm qe = Option.some x ∧ x.toNat = f.encode (signed neg ((mm : ℚ) * 2 ^ qe)) ∧
      InFormat f x := by
  obtain ⟨mm₁, qe₁, mm₂, qe₂, step, up, same, canonical⟩ := normalize_total some bound least finite
  obtain ⟨pattern, inside⟩ := toNat_assemble fits neg canonical
  refine ⟨_, ?_, pattern.trans ?_, inside⟩
  · simp only [encode, step, Option.bind_eq_bind, Option.bind_some, emin_eq, up]
    split <;> rfl
  · rw [← same, canonical.encode_model]

/-! ### Rounding -/

/-- A pattern of the format with the value that the model gives it. -/
def Encodes (f : Fmt) (x : BitVec 64) (p : ℕ) : Prop := x.toNat = p ∧ InFormat f x

theorem encodes_zero (fits : FitsWord f) (neg : Bool) : Encodes f (zero f neg) (f.zero neg) :=
  ⟨toNat_zero fits neg, inFormat_zero fits neg⟩

def lastPlace (f : Fmt) (x : ℚ) : ℤ := max (Int.log 2 x) f.emin - f.fb

theorem roundQ_signed {m : RMode} {neg : Bool} {x : ℚ} {K : ℕ}
    (rounded : RoundsTo m neg x (lastPlace f x) K) (positive : 0 < x) :
    roundQ f m (signed neg x) = signed neg ((K : ℚ) * 2 ^ lastPlace f x) := by
  have nonzero : signed neg x ≠ 0 := by
    rw [Ne, signed_eq_zero]
    exact ne_of_gt positive
  have place : qexp f (signed neg x) = lastPlace f x := by
    rw [qexp, lastPlace, abs_signed, abs_of_pos positive, ilog2_eq_log positive, max_comm]
  rw [roundQ, if_neg nonzero, place, pow2_eq, FpModel.signed_div, rounded, FpModel.signed_cast,
    FpModel.signed_mul]

theorem rounded_fits {m : RMode} {neg : Bool} {x : ℚ} {K P : ℕ}
    (rounded : RoundsTo m neg x (lastPlace f x) K) (precise : RoundsTo m neg x (Int.log 2 x - f.fb) P)
    (positive : 0 < x) (finite : ¬(f.emax < Int.log 2 x ∨ (Int.log 2 x = f.emax ∧ P = 2 ^ (f.fb + 1))))
    (range : f.emin ≤ f.emax) :
    K ≤ 2 ^ (f.fb + 1) ∧ (K : ℚ) * 2 ^ lastPlace f x < 2 ^ (f.emax + 1) := by
  have bound : K ≤ 2 ^ (f.fb + 1) := rounded.le_precision positive (by rw [lastPlace]; omega)
  refine ⟨bound, ?_⟩
  have within {n : ℕ} {k : ℤ} (le : K ≤ 2 ^ n) (top : (n : ℤ) + k ≤ f.emax) (same : lastPlace f x = k) :
      (K : ℚ) * 2 ^ lastPlace f x < 2 ^ (f.emax + 1) :=
    calc (K : ℚ) * 2 ^ lastPlace f x ≤ ((2 ^ n : ℕ) : ℚ) * 2 ^ k := by
          rw [same]
          exact mul_le_mul_of_nonneg_right (by exact_mod_cast le) (le_of_lt (two_zpow_pos _))
      _ = 2 ^ ((n : ℤ) + k) := by rw [two_zpow_add, two_zpow_natCast]
      _ < 2 ^ (f.emax + 1) := two_zpow_lt (by omega)
  by_cases sub : Int.log 2 x < f.emin
  · -- a subnormal rounds to the least normal number at most
    have place : lastPlace f x = f.emin - f.fb := by rw [lastPlace]; omega
    have le : K ≤ 2 ^ f.fb := by
      refine rounded.ge positive (le_of_lt (lt_of_lt_of_le (log_spec positive).2 ?_))
      rw [place, ← two_zpow_natCast, ← two_zpow_add]
      exact two_zpow_le (by omega)
    exact within le (by omega) place
  · have place : lastPlace f x = Int.log 2 x - f.fb := by rw [lastPlace]; omega
    rw [place] at rounded
    obtain rfl : K = P := FpModel.signed_inj (rounded.symm.trans precise)
    by_cases top : Int.log 2 x = f.emax
    · have short : K < 2 ^ (f.fb + 1) := lt_of_le_of_ne bound (fun same => finite (.inr ⟨top, same⟩))
      calc (K : ℚ) * 2 ^ lastPlace f x < ((2 ^ (f.fb + 1) : ℕ) : ℚ) * 2 ^ (f.emax - f.fb) := by
            rw [place, top]
            exact mul_lt_mul_of_pos_right (by exact_mod_cast short) (two_zpow_pos _)
        _ = 2 ^ (f.emax + 1) := by
            rw [← two_zpow_natCast, ← two_zpow_add]
            congr 1
            push_cast
            ring
    · exact within bound (by push_cast; omega) place

theorem round_total (fits : FitsWord f) (m : RMode) (ftz : Bool) (whole : 0 < q.d.toNat) (zneg : Bool) :
    ∃ x, round f m ftz q zneg = some x ∧ Encodes f x (f.round m ftz q.value zneg) := by
  have exact : q.isZero = decide (q.value = 0) := by
    rw [Bool.eq_iff_iff, Q.isZero_iff whole, decide_eq_true_iff, Q.value_eq, signed_eq_zero]
  by_cases zero : q.value = 0
  · refine ⟨FpBits.zero f zneg, ?_, ?_⟩
    · simp [round, exact, zero]
    · rw [Fmt.round, if_pos zero]
      exact encodes_zero fits zneg
  have sizeNonzero : q.size ≠ 0 := fun none => zero (by rw [Q.value_eq, signed_eq_zero, none])
  have positive : 0 < q.size := lt_of_le_of_ne q.size_nonneg (Ne.symm sizeNonzero)
  have nonzero : q.n.toNat ≠ 0 := by
    intro none
    exact sizeNonzero (by simp [Q.size, none])
  have log := Q.ilog2_eq whole nonzero
  have negative : decide (q.value < 0) = q.neg := by rw [Q.value_eq, signed_neg_iff _ positive]
  have small : f.fb + 1 ≤ 127 := by have := fits.small; omega
  have below : q.size < 2 ^ (127 + (Int.log 2 q.size - f.fb)) :=
    lt_of_lt_of_le (log_spec positive).2 (two_zpow_le (by omega))
  obtain ⟨P, precise, precision⟩ := roundAt_total m whole below
  obtain ⟨K, rounding, rounded⟩ := @roundAt_total q m whole (lastPlace f q.size)
    (lt_of_lt_of_le below (two_zpow_le (by rw [lastPlace]; omega)))
  have overflow := overflows_iff precision positive
  have flushed := tiny_iff precision positive
  rw [← Q.value_eq] at overflow flushed
  have code : round f m ftz q zneg =
      if overflows f m q.value then
        some (if m == .rn || (m == .rm && q.neg) || (m == .rp && !q.neg) then inf f q.neg else maxFin f q.neg)
      else if ftz && tiny f m q.value then some (FpBits.zero f q.neg)
      else if K = 0 then some (FpBits.zero f q.neg) else encode f q.neg K (lastPlace f q.size) := by
    have beyond : (decide (q.ilog2 > emax f) || (q.ilog2 == emax f && P == 1 <<< (f.fb + 1))) =
        overflows f m q.value := by
      rw [Bool.eq_iff_iff, overflow, log, emax_eq, Nat.one_shiftLeft]
      simp
    have under : (decide (q.ilog2 < emin f) && !(q.ilog2 == emin f - 1 && P == 1 <<< (f.fb + 1))) =
        tiny f m q.value := by
      rw [Bool.eq_iff_iff, flushed, log, emin_eq, Nat.one_shiftLeft]
      simp only [Bool.and_eq_true, decide_eq_true_iff, Bool.not_eq_true', Bool.and_eq_false_iff,
        beq_eq_false_iff_ne, not_and_or]
    have place : max q.ilog2 (emin f) - f.fb = lastPlace f q.size := by rw [log, emin_eq, lastPlace]
    have unfolded : round f m ftz q zneg =
        if (decide (q.ilog2 > emax f) || (q.ilog2 == emax f && P == 1 <<< (f.fb + 1))) = true then
          if m == .rn || (m == .rm && q.neg) || (m == .rp && !q.neg) then some (inf f q.neg)
          else some (maxFin f q.neg)
        else if (ftz && (decide (q.ilog2 < emin f) && !(q.ilog2 == emin f - 1 && P == 1 <<< (f.fb + 1)))) = true then
          some (FpBits.zero f q.neg)
        else (roundAt m q (max q.ilog2 (emin f) - f.fb)).bind fun K =>
          if K = 0 then some (FpBits.zero f q.neg) else encode f q.neg K (max q.ilog2 (emin f) - f.fb) := by
      have nonzeroBool : q.isZero = false := by rw [exact]; exact decide_eq_false zero
      rw [← log] at precise
      simp only [round, nonzeroBool, precise, Option.bind_eq_bind, Option.bind_some]
      simp
    rw [unfolded, beyond, under, place, rounding]
    split
    · split <;> simp_all
    · rfl
  rw [code, Fmt.round, if_neg zero, negative]
  by_cases beyond : overflows f m q.value = true
  · rw [if_pos beyond, if_pos beyond]
    refine ⟨_, rfl, ?_⟩
    have direction : (m == .rn || (m == .rm && q.neg) || (m == .rp && !q.neg)) =
        (decide (m = .rn) || (decide (m = .rm) && q.neg) || (decide (m = .rp) && !q.neg)) := by
      cases m <;> rfl
    rw [direction]
    simp only [Bool.or_eq_true, Bool.and_eq_true, decide_eq_true_iff]
    split
    · exact toNat_inf fits q.neg
    · exact toNat_maxFin fits q.neg
  by_cases under : (ftz && tiny f m q.value) = true
  · rw [if_neg beyond, if_pos under, if_neg beyond, if_pos under]
    exact ⟨_, rfl, encodes_zero fits q.neg⟩
  rw [if_neg beyond, if_neg under, if_neg beyond, if_neg under]
  have result := roundQ_signed rounded positive
  rw [← Q.value_eq] at result
  rw [result]
  by_cases vanishes : K = 0
  · rw [if_pos vanishes]
    refine ⟨_, rfl, ?_⟩
    simp only [vanishes, Nat.cast_zero, zero_mul, signed_eq_zero, if_true]
    exact encodes_zero fits q.neg
  have range : f.emin ≤ f.emax := by
    have : 2 ≤ 2 ^ (f.eb - 1) :=
      le_trans (by norm_num) (Nat.pow_le_pow_right (n := 2) (by norm_num) (by have := fits.exp; omega : 1 ≤ f.eb - 1))
    rw [Fmt.emin, Fmt.emax, Fmt.bias]
    omega
  have finite : ¬(f.emax < Int.log 2 q.size ∨ (Int.log 2 q.size = f.emax ∧ P = 2 ^ (f.fb + 1))) :=
    fun above => beyond (overflow.mpr above)
  obtain ⟨bound, inside⟩ := rounded_fits rounded precision positive finite range
  obtain ⟨x, encoded, pattern, format⟩ := @encode_total f fits q.neg K (lastPlace f q.size)
    (Nat.pos_of_ne_zero vanishes) bound (by rw [lastPlace]; omega) inside
  have nonzeroResult : signed q.neg ((K : ℚ) * 2 ^ lastPlace f q.size) ≠ 0 := by
    rw [Ne, signed_eq_zero]
    exact mul_ne_zero (by exact_mod_cast vanishes) (ne_of_gt (two_zpow_pos _))
  rw [if_neg vanishes]
  simp only [nonzeroResult, if_false]
  exact ⟨x, encoded, pattern, format⟩

/-! ### Saturation -/

private theorem beq_zero_of_lt {k : ℕ} (x : ℕ) (less : x < k) : (x / k % 2 == 1) = false := by
  rw [Nat.div_eq_of_lt less]
  rfl

theorem one_fields (fits : FitsWord f) :
    f.sgn f.one = false ∧ f.toQ f.one = 1 ∧ magnitude f f.one = f.one := by
  obtain ⟨-, -, narrow⟩ := toNat_one fits
  have field : 1 ≤ f.bias := by
    have : 2 ^ 1 ≤ 2 ^ (f.eb - 1) := Nat.pow_le_pow_right (by norm_num) (by have := fits.exp; omega)
    rw [Fmt.bias]
    omega
  have below : f.one < 2 ^ (f.eb + f.fb) := by
    rw [Fmt.one, pow_add]
    exact Nat.mul_lt_mul_of_pos_right narrow (Nat.two_pow_pos _)
  have sign : f.sgn f.one = false := beq_zero_of_lt _ below
  have bexp : f.bexp f.one = f.bias := by
    rw [Fmt.bexp, Fmt.one, Nat.mul_div_cancel _ (Nat.two_pow_pos _)]
    exact Nat.mod_eq_of_lt narrow
  have frac : f.frac f.one = 0 := by rw [Fmt.frac, Fmt.one, Nat.mul_mod_left]
  refine ⟨sign, ?_, Nat.mod_eq_of_lt below⟩
  have nonzero : f.bias ≠ 0 := by omega
  simp [Fmt.toQ, bexp, frac, sign, pow2_eq, nonzero]

theorem gtOne_eq (fits : FitsWord f) {x : BitVec 64} (inside : InFormat f x) (positive : f.sgn x.toNat = false) :
    gtOne f x = decide (1 < f.toQ x.toNat) := by
  obtain ⟨sign, value, whole⟩ := one_fields fits
  have code : gtOne f x = decide (f.one < x.toNat) := by
    simp only [gtOne, BitVec.lt_def, (toNat_one fits).1]
  rw [code, Bool.eq_iff_iff, decide_eq_true_iff, decide_eq_true_iff]
  have scale : (0 : ℚ) < 2 ^ (f.emin - f.fb) := two_zpow_pos _
  rw [toQ_units, sign] at value
  rw [toQ_units, positive, ← value]
  simp only [FpModel.signed_false]
  rw [mul_lt_mul_iff_left₀ scale, Nat.cast_lt, units_lt_iff, whole, ← inside.toNat_lt positive]

theorem encodes_one (fits : FitsWord f) : Encodes f (one f) f.one := ⟨(toNat_one fits).1, (toNat_one fits).2.1⟩

abbrev EncodesResult (f : Fmt) : Option (BitVec 64) → Option ℕ → Prop := Option.Rel (Encodes f)

theorem sat_encodes (fits : FitsWord f) (on : Bool) {r : Option (BitVec 64)} {p : Option ℕ}
    (same : EncodesResult f r p) : EncodesResult f (sat f on r) (f.sat on p) := by
  cases on with
  | false => cases same with
    | none => exact .none
    | some pattern => exact .some pattern
  | true => cases same with
    | none => exact .some ⟨rfl, Nat.two_pow_pos _⟩
    | @some x p pattern =>
      obtain ⟨rfl, inside⟩ := pattern
      simp only [sat, Fmt.sat, isNan_eq fits, sgn_eq fits, isInf_eq fits, Bool.not_true, Bool.false_eq_true,
        if_false]
      by_cases low : (f.isNaN x.toNat || f.sgn x.toNat) = true
      · rw [if_pos low, if_pos low]
        exact .some ⟨rfl, Nat.two_pow_pos _⟩
      · have positive : f.sgn x.toNat = false := by
          rw [Bool.not_eq_true, Bool.or_eq_false_iff] at low
          exact low.2
        rw [if_neg low, if_neg low, gtOne_eq fits inside positive]
        by_cases high : (f.isInf x.toNat || decide (1 < f.toQ x.toNat)) = true
        · rw [if_pos high, if_pos (by simpa using high)]
          exact .some (encodes_one fits)
        · rw [if_neg high, if_neg (by simpa using high)]
          exact .some ⟨rfl, inside⟩

/-! ### Exact sums and products -/

theorem addQ_value {a b : Q} (wholeA : a.d.toNat = 1) (wholeB : b.d.toNat = 1) :
    (addQ a b).value = a.value + b.value ∧ (addQ a b).d.toNat = 1 := by
  have aligned {c : Q} (whole : c.d.toNat = 1) {e : ℤ} (le : e ≤ c.e) :
      c.value = signed c.neg (((c.n.shl (c.e - e).toNat).toNat : ℚ) * 2 ^ e) := by
    obtain ⟨n, gap⟩ := Int.eq_ofNat_of_zero_le (by omega : 0 ≤ c.e - e)
    have exponent : c.e = n + e := by omega
    rw [Q.value, whole, toNat_shl, gap, exponent, two_zpow_add, zpow_natCast, Int.toNat_natCast]
    push_cast
    congr 1
    ring
  refine ⟨?_, toNat_ofNat (by norm_num)⟩
  rw [aligned wholeA (min_le_left a.e b.e), aligned wholeB (min_le_right a.e b.e)]
  simp only [addQ, Q.value, toNat_ofNat (by norm_num : 1 < 2 ^ 128), cmp_eq]
  generalize a.n.shl (a.e - min a.e b.e).toNat = x
  generalize b.n.shl (b.e - min a.e b.e).toNat = y
  generalize min a.e b.e = e
  by_cases same : a.neg = b.neg
  · simp only [same, if_true, toNat_add]
    cases b.neg with
    | false =>
      simp
      ring
    | true =>
      simp
      ring
  · have opposite : a.neg = !b.neg := by
      cases ha : a.neg <;> cases hb : b.neg <;> simp_all
    simp only [opposite, Bool.not_eq_self, if_false]
    by_cases less : x.toNat < y.toNat
    · rw [Nat.compare_eq_lt.mpr less]
      simp only [toNat_sub (le_of_lt less)]
      push_cast [Nat.cast_sub (le_of_lt less)]
      cases b.neg with
      | false =>
        simp
        ring
      | true =>
        simp
        ring
    · have le : y.toNat ≤ x.toNat := not_lt.mp less
      have order : compare x.toNat y.toNat ≠ .lt := fun lt => less (Nat.compare_eq_lt.mp lt)
      simp only [toNat_sub le]
      push_cast [Nat.cast_sub le]
      cases b.neg with
      | false =>
        simp
        ring
      | true =>
        simp
        ring

theorem mulQ_total (a b : Q) :
    ∃ p, mulQ a b = some p ∧ p.value = a.value * b.value ∧ p.d.toNat = a.d.toNat * b.d.toNat := by
  obtain ⟨n, numerator, productN⟩ := mul_total a.n b.n
  obtain ⟨d, denominator, productD⟩ := mul_total a.d b.d
  refine ⟨{ neg := a.neg != b.neg, n, d, e := a.e + b.e }, ?_, ?_, productD⟩
  · simp [mulQ, numerator, denominator]
  · have size : (n.toNat : ℚ) / d.toNat * 2 ^ (a.e + b.e) =
        (a.n.toNat / a.d.toNat * 2 ^ a.e) * (b.n.toNat / b.d.toNat * 2 ^ b.e) := by
      rw [productN, productD, two_zpow_add]
      push_cast
      rw [mul_div_mul_comm]
      ring
    simp only [Q.value, size]
    cases a.neg with
    | false => cases b.neg <;> simp
    | true => cases b.neg <;> simp

/-! ### The operations -/

/-- The operation does not panic, and its result is the model's. -/
def Agrees (f : Fmt) (code : Option (Option (BitVec 64))) (model : Option ℕ) : Prop :=
  ∃ r, code = some r ∧ EncodesResult f r model

theorem Agrees.sat (fits : FitsWord f) (on : Bool) {code : Option (Option (BitVec 64))} {model : Option ℕ}
    (agrees : Agrees f code model) : Agrees f (code.map (FpBits.sat f on)) (f.sat on model) := by
  obtain ⟨r, rfl, same⟩ := agrees
  exact ⟨_, rfl, sat_encodes fits on same⟩

theorem agrees_nan : Agrees f (some none) none := ⟨_, rfl, .none⟩
theorem agrees_some {x : BitVec 64} {p : ℕ} (same : Encodes f x p) : Agrees f (some (some x)) (some p) :=
  ⟨_, rfl, .some same⟩

theorem agrees_round (fits : FitsWord f) (m : RMode) (ftz : Bool) (zneg : Bool) (whole : 0 < q.d.toNat) {v : ℚ}
    (value : q.value = v) : Agrees f ((round f m ftz q zneg).map some) (some (f.round m ftz v zneg)) := by
  obtain ⟨x, rounded, same⟩ := round_total fits m ftz whole zneg
  rw [rounded, ← value]
  exact agrees_some same

variable {a b c : BitVec 64}

theorem addCore_agrees (fits : FitsWord f) (m : RMode) (ftz : Bool) (insideA : InFormat f a) (insideB : InFormat f b) :
    Agrees f (addCore f m ftz a b) (FpModel.addCore f m ftz a.toNat b.toNat) := by
  simp only [addCore, FpModel.addCore, isNan_eq fits, isInf_eq fits, isZero_eq fits, sgn_eq fits]
  split
  · exact agrees_nan
  split
  · split
    · exact agrees_some (toNat_inf fits _)
    · exact agrees_nan
  split
  · exact agrees_some ⟨rfl, insideA⟩
  split
  · exact agrees_some ⟨rfl, insideB⟩
  · obtain ⟨value, one⟩ := addQ_value (a := toQ f a) (b := toQ f b) (toNat_toQ a).2 (toNat_toQ b).2
    exact agrees_round fits m ftz _ (by rw [one]; exact one_pos)
      (by rw [value, value_toQ fits, value_toQ fits])

theorem fadd_agrees (fits : FitsWord f) (m : RMode) (ftz sat : Bool) (insideA : InFormat f a)
    (insideB : InFormat f b) :
    Agrees f (fadd f m ftz sat a b) (FpModel.fadd f m ftz sat a.toNat b.toNat) := by
  obtain ⟨sameA, flushedA⟩ := toNat_flush fits ftz insideA
  obtain ⟨sameB, flushedB⟩ := toNat_flush fits ftz insideB
  rw [FpModel.fadd, ← sameA, ← sameB]
  exact (addCore_agrees fits m ftz flushedA flushedB).sat fits sat

theorem fsub_agrees (fits : FitsWord f) (m : RMode) (ftz sat : Bool) (insideA : InFormat f a)
    (insideB : InFormat f b) :
    Agrees f (fsub f m ftz sat a b) (FpModel.fsub f m ftz sat a.toNat b.toNat) := by
  obtain ⟨sameA, flushedA⟩ := toNat_flush fits ftz insideA
  obtain ⟨sameB, flushedB⟩ := toNat_flush fits ftz insideB
  obtain ⟨negated, -, negatedInside⟩ := toNat_negBits fits flushedB
  simp only [fsub, FpModel.fsub, isNan_eq fits]
  rw [← sameA, ← sameB]
  by_cases nan : f.isNaN (flush f ftz b).toNat = true
  · rw [if_pos nan, if_pos nan]
    exact (addCore_agrees fits m ftz flushedA flushedB).sat fits sat
  · rw [if_neg nan, if_neg nan, ← negated]
    exact (addCore_agrees fits m ftz flushedA negatedInside).sat fits sat

private theorem agrees_join {nan invalid : Bool} {code : Option (Option (BitVec 64))} {model : Option ℕ}
    (rest : ¬(nan || invalid) = true → Agrees f code model) :
    Agrees f (if (nan || invalid) = true then some none else code)
      (if nan = true then none else if invalid = true then none else model) := by
  cases nan with
  | true => exact agrees_nan
  | false =>
    cases invalid with
    | true => exact agrees_nan
    | false => exact rest (by simp)

theorem fmul_agrees (fits : FitsWord f) (m : RMode) (ftz sat : Bool) (insideA : InFormat f a)
    (insideB : InFormat f b) :
    Agrees f (fmul f m ftz sat a b) (FpModel.fmul f m ftz sat a.toNat b.toNat) := by
  obtain ⟨sameA, -⟩ := toNat_flush fits ftz insideA
  obtain ⟨sameB, -⟩ := toNat_flush fits ftz insideB
  simp only [fmul, FpModel.fmul, isNan_eq fits, isInf_eq fits, isZero_eq fits, sgn_eq fits, ← sameA, ← sameB]
  generalize flush f ftz a = x
  generalize flush f ftz b = y
  apply Agrees.sat fits sat
  apply agrees_join
  intro _
  split
  · exact agrees_some (toNat_inf fits _)
  · obtain ⟨p, product, value, den⟩ := mulQ_total (toQ f x) (toQ f y)
    rw [product, Option.bind_some]
    rw [(toNat_toQ x).2, (toNat_toQ y).2] at den
    exact agrees_round fits m ftz _ (by rw [den]; exact one_pos) (by rw [value, value_toQ fits, value_toQ fits])

theorem ffma_agrees (fits : FitsWord f) (m : RMode) (ftz sat : Bool) (insideA : InFormat f a)
    (insideB : InFormat f b) (insideC : InFormat f c) :
    Agrees f (ffma f m ftz sat a b c) (FpModel.ffma f m ftz sat a.toNat b.toNat c.toNat) := by
  obtain ⟨sameA, -⟩ := toNat_flush fits ftz insideA
  obtain ⟨sameB, -⟩ := toNat_flush fits ftz insideB
  obtain ⟨sameC, flushedC⟩ := toNat_flush fits ftz insideC
  simp only [ffma, FpModel.ffma, isNan_eq fits, isInf_eq fits, isZero_eq fits, sgn_eq fits, ← sameA, ← sameB,
    ← sameC]
  generalize flush f ftz a = x
  generalize flush f ftz b = y
  generalize flush f ftz c = z at flushedC ⊢
  apply Agrees.sat fits sat
  apply agrees_join
  intro _
  split
  · split
    · exact agrees_nan
    · exact agrees_some (toNat_inf fits _)
  split
  · exact agrees_some ⟨rfl, flushedC⟩
  · obtain ⟨p, product, value, den⟩ := mulQ_total (toQ f x) (toQ f y)
    rw [product, Option.bind_some]
    rw [(toNat_toQ x).2, (toNat_toQ y).2] at den
    obtain ⟨sum, one⟩ := addQ_value (a := p) (b := toQ f z) den (toNat_toQ z).2
    exact agrees_round fits m ftz _ (by rw [one]; exact one_pos)
      (by rw [sum, value, value_toQ fits, value_toQ fits, value_toQ fits])

theorem mantissa_pos (fits : FitsWord f) (nonzero : f.isZero a.toNat = false) : 0 < (toQ f a).n.toNat := by
  rw [(toNat_toQ a).1, (toNat_me fits a).1]
  split
  · rw [Fmt.isZero, Bool.and_eq_false_iff, beq_eq_false_iff_ne, beq_eq_false_iff_ne] at nonzero
    omega
  · have := Nat.two_pow_pos f.fb
    omega

theorem fdiv_agrees (fits : FitsWord f) (m : RMode) (ftz : Bool) (insideA : InFormat f a) (insideB : InFormat f b) :
    Agrees f (fdiv f m ftz a b) (FpModel.fdiv f m ftz a.toNat b.toNat) := by
  obtain ⟨sameA, -⟩ := toNat_flush fits ftz insideA
  obtain ⟨sameB, -⟩ := toNat_flush fits ftz insideB
  simp only [fdiv, FpModel.fdiv, isNan_eq fits, isInf_eq fits, isZero_eq fits, sgn_eq fits, ← sameA, ← sameB]
  generalize flush f ftz a = x
  generalize flush f ftz b = y
  split
  · exact agrees_nan
  split
  · exact agrees_nan
  split
  · exact agrees_some (toNat_inf fits _)
  split
  · exact agrees_some (encodes_zero fits _)
  split
  · exact agrees_some (toNat_inf fits _)
  · next nonzero =>
    have den := mantissa_pos fits (Bool.eq_false_iff.mpr nonzero)
    refine agrees_round fits m ftz _ den ?_
    have quotient : ((toQ f x).n.toNat : ℚ) / (toQ f y).n.toNat * 2 ^ ((toQ f x).e - (toQ f y).e) =
        (toQ f x).n.toNat * 2 ^ (toQ f x).e / ((toQ f y).n.toNat * 2 ^ (toQ f y).e) := by
      rw [zpow_sub₀ (by norm_num), mul_div_mul_comm]
    rw [← value_toQ fits, ← value_toQ fits]
    simp only [Q.value, (toNat_toQ x).2, (toNat_toQ y).2, quotient, Nat.cast_one, div_one]
    have signX : (toQ f x).neg = f.sgn x.toNat := sgn_eq fits x
    have signY : (toQ f y).neg = f.sgn y.toNat := sgn_eq fits y
    rw [signX, signY]
    cases f.sgn x.toNat with
    | false => cases f.sgn y.toNat <;> simp [div_neg]
    | true => cases f.sgn y.toNat <;> simp [neg_div, div_neg]

theorem frcp_agrees (fits : FitsWord f) (m : RMode) (ftz : Bool) (insideA : InFormat f a) :
    Agrees f (frcp f m ftz a) (FpModel.frcp f m ftz a.toNat) := by
  rw [frcp, FpModel.frcp, ← (encodes_one fits).1]
  exact fdiv_agrees fits m ftz (encodes_one fits).2 insideA

/-- The operation returns exactly the model's pattern, and nothing in it panics. -/
def Computes (code : Option (Option (BitVec 64))) (model : Option ℕ) : Prop :=
  code.map (Option.map BitVec.toNat) = some model

theorem Agrees.computes {code : Option (Option (BitVec 64))} {model : Option ℕ} (agrees : Agrees f code model) :
    Computes code model := by
  obtain ⟨r, rfl, same⟩ := agrees
  cases same with
  | none => rfl
  | some pattern => simp [Computes, pattern.1]

/-- The arithmetic of both formats is the correctly rounded one, for every
    rounding mode, flushing and saturation, and on all patterns. -/
theorem arithmetic_correct {f : Fmt} (known : f = .f32 ∨ f = .f64) (m : RMode) (ftz sat : Bool)
    {a b c : BitVec 64} (insideA : InFormat f a) (insideB : InFormat f b) (insideC : InFormat f c) :
    Computes (fadd f m ftz sat a b) (FpModel.fadd f m ftz sat a.toNat b.toNat) ∧
    Computes (fsub f m ftz sat a b) (FpModel.fsub f m ftz sat a.toNat b.toNat) ∧
    Computes (fmul f m ftz sat a b) (FpModel.fmul f m ftz sat a.toNat b.toNat) ∧
    Computes (ffma f m ftz sat a b c) (FpModel.ffma f m ftz sat a.toNat b.toNat c.toNat) ∧
    Computes (fdiv f m ftz a b) (FpModel.fdiv f m ftz a.toNat b.toNat) ∧
    Computes (frcp f m ftz a) (FpModel.frcp f m ftz a.toNat) := by
  have fits := fitsWord_of_known known
  exact ⟨(fadd_agrees fits m ftz sat insideA insideB).computes, (fsub_agrees fits m ftz sat insideA insideB).computes,
    (fmul_agrees fits m ftz sat insideA insideB).computes,
    (ffma_agrees fits m ftz sat insideA insideB insideC).computes,
    (fdiv_agrees fits m ftz insideA insideB).computes, (frcp_agrees fits m ftz insideA).computes⟩

/-- A product that rounds up to the least normal number is not flushed, and one
    third is rounded up. -/
theorem arithmetic_correct_known :
    Computes (fmul .f32 .rn false false 0x3f7fffff#64 0x00800000#64) (some 0x00800000) ∧
    Computes (fdiv .f32 .rn false 0x3f800000#64 0x40400000#64) (some 0x3eaaaaab) := by
  have first := arithmetic_correct (f := .f32) (.inl rfl) .rn false false (a := 0x3f7fffff#64) (b := 0x00800000#64)
    (c := 0#64) (by unfold InFormat; decide) (by unfold InFormat; decide) (by unfold InFormat; decide)
  have second := arithmetic_correct (f := .f32) (.inl rfl) .rn false false (a := 0x3f800000#64) (b := 0x40400000#64)
    (c := 0#64) (by unfold InFormat; decide) (by unfold InFormat; decide) (by unfold InFormat; decide)
  have product : FpModel.fmul .f32 .rn false false 0x3f7fffff 0x00800000 = some 0x00800000 := by decide +kernel
  have quotient : FpModel.fdiv .f32 .rn false 0x3f800000 0x40400000 = some 0x3eaaaaab := by decide +kernel
  exact ⟨by simpa [product] using first.2.2.1, by simpa [quotient] using second.2.2.2.2.1⟩

end E5r.FpBits
