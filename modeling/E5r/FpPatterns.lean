import E5r.FpBits
import E5r.FpRounding
import Mathlib.Data.Nat.Bitwise

/-!
The fields of a pattern, as the interpreter computes them on 64-bit words, are
those of the model's natural numbers, for every format that fits into a word.
-/
namespace E5r.FpBits
open FpModel (Fmt pow2 pow2_eq signed)
open Limbs

structure FitsWord (f : Fmt) : Prop where
  frac : 1 ≤ f.fb
  exp : 2 ≤ f.eb
  small : 1 + f.eb + f.fb ≤ 64
  wide : f.fb < f.bias

theorem fitsWord_f32 : FitsWord .f32 := ⟨by decide, by decide, by decide, by decide⟩
theorem fitsWord_f64 : FitsWord .f64 := ⟨by decide, by decide, by decide, by decide⟩

theorem fitsWord_of_known {f : Fmt} (known : f = .f32 ∨ f = .f64) : FitsWord f := by
  rcases known with rfl | rfl
  · exact fitsWord_f32
  · exact fitsWord_f64

def InFormat (f : Fmt) (x : BitVec 64) : Prop := x.toNat < 2 ^ (1 + f.eb + f.fb)

variable {f : Fmt}

private theorem pow_le_word {k : ℕ} (fits : FitsWord f) (le : k ≤ 1 + f.eb + f.fb) : 2 ^ k ≤ 2 ^ 64 :=
  Nat.pow_le_pow_right (by norm_num) (le.trans fits.small)

theorem toNat_one_shl {k : ℕ} (inside : k < 64) : (1#64 <<< k).toNat = 2 ^ k := by
  rw [BitVec.toNat_shiftLeft, Nat.shiftLeft_eq]
  simp only [BitVec.toNat_ofNat]
  rw [Nat.mod_eq_of_lt (by norm_num : 1 < 2 ^ 64), Nat.one_mul]
  exact Nat.mod_eq_of_lt (Nat.pow_lt_pow_right (by norm_num) inside)

private theorem toNat_mask {k : ℕ} (inside : k < 64) : ((1#64 <<< k) - 1#64).toNat = 2 ^ k - 1 := by
  have one := toNat_one_shl inside
  have low : 1 ≤ 2 ^ k := Nat.one_le_two_pow
  have high : 2 ^ k < 2 ^ 64 := Nat.pow_lt_pow_right (by norm_num) inside
  rw [BitVec.toNat_sub, one]
  simp only [BitVec.toNat_ofNat]
  omega

theorem toNat_signBit (fits : FitsWord f) : (signBit f).toNat = f.signBit :=
  toNat_one_shl (by have := fits.small; omega)

theorem toNat_expMax (fits : FitsWord f) : (expMax f).toNat = f.expMax :=
  toNat_mask (by have := fits.small; have := fits.frac; omega)

theorem bias_eq (f : Fmt) : bias f = f.bias := by
  rw [bias, Fmt.bias]
  have : 1 ≤ 2 ^ (f.eb - 1) := Nat.one_le_two_pow
  push_cast [Nat.cast_sub this]
  rfl

theorem emin_eq (f : Fmt) : emin f = f.emin := by rw [emin, bias_eq, Fmt.emin]
theorem emax_eq (f : Fmt) : emax f = f.emax := by rw [emax, bias_eq, Fmt.emax]

theorem toNat_and_signBit (fits : FitsWord f) (x : BitVec 64) :
    (x &&& signBit f).toNat = f.zero (f.sgn x.toNat) := by
  have bit : f.sgn x.toNat = x.toNat.testBit (f.eb + f.fb) := by
    rw [Fmt.sgn, Fmt.signBit, Nat.testBit_eq_decide_div_mod_eq]
    rfl
  rw [BitVec.toNat_and, toNat_signBit fits, bit, Fmt.zero, Fmt.signBit, Nat.and_two_pow]
  cases x.toNat.testBit (f.eb + f.fb) <;> simp

theorem sgn_eq (fits : FitsWord f) (x : BitVec 64) : sgn f x = f.sgn x.toNat := by
  have word := toNat_and_signBit fits x
  rw [sgn]
  cases set : f.sgn x.toNat with
  | false =>
    rw [set] at word
    have : x &&& signBit f = 0#64 := BitVec.eq_of_toNat_eq (by simpa [Fmt.zero] using word)
    simp [this]
  | true =>
    rw [set] at word
    have : x &&& signBit f ≠ 0#64 := by
      intro zero
      rw [zero] at word
      have := Nat.two_pow_pos (f.eb + f.fb)
      simp [Fmt.zero, Fmt.signBit] at word
      omega
    simp [this]

theorem toNat_bexp (fits : FitsWord f) (x : BitVec 64) : (bexp f x).toNat = f.bexp x.toNat := by
  rw [bexp, BitVec.toNat_and, toNat_expMax fits, BitVec.toNat_ushiftRight, Fmt.expMax,
    Nat.and_two_pow_sub_one_eq_mod, Nat.shiftRight_eq_div_pow, Fmt.bexp]

theorem toNat_frac (fits : FitsWord f) (x : BitVec 64) : (frac f x).toNat = f.frac x.toNat := by
  rw [frac, BitVec.toNat_and, toNat_mask (by have := fits.small; have := fits.exp; omega),
    Nat.and_two_pow_sub_one_eq_mod, Fmt.frac]

private theorem beq_toNat (x y : BitVec 64) : (x == y) = (x.toNat == y.toNat) := by
  rw [Bool.eq_iff_iff, beq_iff_eq, beq_iff_eq, BitVec.toNat_inj]

private theorem bne_toNat (x y : BitVec 64) : (x != y) = (x.toNat != y.toNat) := by
  rw [bne, bne, beq_toNat]

theorem isNan_eq (fits : FitsWord f) (x : BitVec 64) : isNan f x = f.isNaN x.toNat := by
  rw [isNan, Fmt.isNaN, beq_toNat, bne_toNat, toNat_bexp fits, toNat_expMax fits, toNat_frac fits]
  rfl

theorem isInf_eq (fits : FitsWord f) (x : BitVec 64) : isInf f x = f.isInf x.toNat := by
  rw [isInf, Fmt.isInf, beq_toNat, beq_toNat, toNat_bexp fits, toNat_expMax fits, toNat_frac fits]
  rfl

theorem isZero_eq (fits : FitsWord f) (x : BitVec 64) : isZero f x = f.isZero x.toNat := by
  rw [isZero, Fmt.isZero, beq_toNat, beq_toNat, toNat_bexp fits, toNat_frac fits]
  rfl

theorem isSub_eq (fits : FitsWord f) (x : BitVec 64) : isSub f x = f.isSub x.toNat := by
  rw [isSub, Fmt.isSub, beq_toNat, bne_toNat, toNat_bexp fits, toNat_frac fits]
  rfl

theorem toNat_zero (fits : FitsWord f) (neg : Bool) : (zero f neg).toNat = f.zero neg := by
  cases neg with
  | false => rfl
  | true => exact toNat_signBit fits

theorem toNat_pattern (fits : FitsWord f) (neg : Bool) {be m : BitVec 64} (exp : be.toNat < 2 ^ f.eb)
    (frac : m.toNat < 2 ^ f.fb) :
    (zero f neg + (be <<< f.fb) + m).toNat = f.zero neg + be.toNat * 2 ^ f.fb + m.toNat ∧
      f.zero neg + be.toNat * 2 ^ f.fb + m.toNat < 2 ^ (1 + f.eb + f.fb) := by
  have sign : f.zero neg ≤ 2 ^ (f.eb + f.fb) := by
    cases neg with
    | false => exact Nat.zero_le _
    | true => exact le_refl _
  have field : be.toNat * 2 ^ f.fb + 2 ^ f.fb ≤ 2 ^ (f.eb + f.fb) := by
    rw [pow_add, ← Nat.succ_mul]
    exact Nat.mul_le_mul_right _ exp
  have whole : 2 ^ (1 + f.eb + f.fb) = 2 ^ (f.eb + f.fb) + 2 ^ (f.eb + f.fb) := by
    rw [Nat.add_assoc, pow_add]
    omega
  have word := pow_le_word fits (le_refl (1 + f.eb + f.fb))
  have shifted : (be <<< f.fb).toNat = be.toNat * 2 ^ f.fb := by
    rw [BitVec.toNat_shiftLeft, Nat.shiftLeft_eq]
    exact Nat.mod_eq_of_lt (by omega)
  refine ⟨?_, by omega⟩
  rw [BitVec.toNat_add, BitVec.toNat_add, toNat_zero fits, shifted]
  rw [Nat.mod_eq_of_lt (a := f.zero neg + _) (by omega)]
  exact Nat.mod_eq_of_lt (by omega)

theorem toNat_inf (fits : FitsWord f) (neg : Bool) : (inf f neg).toNat = f.inf neg ∧ InFormat f (inf f neg) := by
  have exp : (expMax f).toNat < 2 ^ f.eb := by
    rw [toNat_expMax fits, Fmt.expMax]
    exact Nat.sub_lt (Nat.two_pow_pos _) (by norm_num)
  obtain ⟨sum, bound⟩ := toNat_pattern fits neg exp (m := 0#64) (Nat.two_pow_pos _)
  have same : inf f neg = zero f neg + (expMax f <<< f.fb) + 0#64 := by simp [inf]
  rw [InFormat, same, sum]
  refine ⟨?_, bound⟩
  rw [toNat_expMax fits]
  rfl

theorem toNat_maxFin (fits : FitsWord f) (neg : Bool) :
    (maxFin f neg).toNat = f.maxFin neg ∧ InFormat f (maxFin f neg) := by
  have top := toNat_expMax fits
  have some : 2 ^ 2 ≤ 2 ^ f.eb := Nat.pow_le_pow_right (by norm_num) fits.exp
  have mask := toNat_mask (k := f.fb) (by have := fits.small; have := fits.exp; omega)
  have less : (expMax f - 1#64).toNat = f.expMax - 1 := by
    have bound := (expMax f).isLt
    rw [BitVec.toNat_sub, top]
    rw [top, Fmt.expMax] at bound
    simp only [BitVec.toNat_ofNat, Fmt.expMax]
    omega
  have exp : (expMax f - 1#64).toNat < 2 ^ f.eb := by
    rw [less, Fmt.expMax]
    omega
  have frac : ((1#64 <<< f.fb) - 1#64).toNat < 2 ^ f.fb := by
    rw [mask]
    exact Nat.sub_lt (Nat.two_pow_pos _) (by norm_num)
  obtain ⟨sum, bound⟩ := toNat_pattern fits neg exp frac
  rw [InFormat, maxFin, sum]
  refine ⟨?_, bound⟩
  rw [less, mask]
  rfl

theorem toNat_one (fits : FitsWord f) : (one f).toNat = f.one ∧ InFormat f (one f) ∧ f.bias < 2 ^ f.eb := by
  have narrow : f.bias < 2 ^ f.eb := by
    have : 2 ^ (f.eb - 1) ≤ 2 ^ f.eb := Nat.pow_le_pow_right (by norm_num) (by omega)
    have := Nat.two_pow_pos (f.eb - 1)
    rw [Fmt.bias]
    omega
  have word := pow_le_word fits (k := f.eb) (by omega)
  have cast : BitVec.ofInt 64 (bias f) = BitVec.ofNat 64 f.bias := by
    rw [bias_eq]
    exact BitVec.ofInt_ofNat 64 f.bias
  have exp : (BitVec.ofNat 64 f.bias).toNat = f.bias := by
    rw [BitVec.toNat_ofNat]
    exact Nat.mod_eq_of_lt (by omega)
  obtain ⟨sum, bound⟩ := toNat_pattern fits false (by rw [exp]; exact narrow) (m := 0#64) (Nat.two_pow_pos _)
  have same : one f = zero f false + (BitVec.ofNat 64 f.bias <<< f.fb) + 0#64 := by simp [one, cast, zero]
  rw [InFormat, same, sum, exp]
  refine ⟨?_, by simpa [exp] using bound, narrow⟩
  simp [Fmt.zero, Fmt.one]

def Q.value (q : Q) : ℚ := signed q.neg ((q.n.toNat : ℚ) / q.d.toNat * 2 ^ q.e)

theorem toNat_me (fits : FitsWord f) (x : BitVec 64) :
    (me f x).1.toNat = (if f.bexp x.toNat = 0 then f.frac x.toNat else f.frac x.toNat + 2 ^ f.fb) ∧
      (me f x).2 = if f.bexp x.toNat = 0 then f.emin - f.fb else (f.bexp x.toNat : ℤ) - f.bias - f.fb := by
  have field : (bexp f x == 0#64) = decide (f.bexp x.toNat = 0) := by
    rw [beq_toNat, toNat_bexp fits]
    rfl
  have short : f.frac x.toNat < 2 ^ f.fb := Nat.mod_lt _ (Nat.two_pow_pos _)
  have word : 2 ^ f.fb + 2 ^ f.fb ≤ 2 ^ 64 := by
    have := pow_le_word fits (k := f.fb + 1) (by have := fits.exp; omega)
    rw [pow_succ] at this
    omega
  by_cases sub : f.bexp x.toNat = 0
  · simp only [me, field, sub, decide_true, if_true]
    exact ⟨toNat_frac fits x, by rw [emin_eq]⟩
  · simp only [me, field, sub, decide_false, if_false]
    refine ⟨?_, by rw [toNat_bexp fits, bias_eq]; rfl⟩
    simp only [Bool.false_eq_true, if_false]
    rw [BitVec.toNat_add, toNat_frac fits, toNat_one_shl (by have := fits.small; have := fits.exp; omega)]
    exact Nat.mod_eq_of_lt (by omega)

private theorem small_mantissa (x : BitVec 64) : x.toNat < 2 ^ 128 :=
  lt_of_lt_of_le x.isLt (Nat.pow_le_pow_right (by norm_num) (by norm_num))

theorem toNat_toQ (x : BitVec 64) : (toQ f x).n.toNat = (me f x).1.toNat ∧ (toQ f x).d.toNat = 1 :=
  ⟨toNat_ofNat (small_mantissa _), toNat_ofNat (by norm_num)⟩

theorem value_toQ (fits : FitsWord f) (x : BitVec 64) : (toQ f x).value = f.toQ x.toNat := by
  obtain ⟨mantissa, exponent⟩ := toNat_me fits x
  obtain ⟨num, den⟩ := toNat_toQ (f := f) x
  have sign : (toQ f x).neg = f.sgn x.toNat := sgn_eq fits x
  have exp : (toQ f x).e = (me f x).2 := rfl
  rw [Q.value, num, den, sign, exp, mantissa, exponent, Fmt.toQ]
  by_cases sub : f.bexp x.toNat = 0
  · simp [sub, pow2_eq, signed]
  · simp [sub, pow2_eq, signed]

/-- A pattern without its sign. -/
def magnitude (f : Fmt) (x : ℕ) : ℕ := x % 2 ^ (f.eb + f.fb)

theorem magnitude_lt (f : Fmt) (x : ℕ) : magnitude f x < 2 ^ (f.eb + f.fb) := Nat.mod_lt _ (Nat.two_pow_pos _)

theorem magnitude_fields (f : Fmt) (x : ℕ) : magnitude f x = f.bexp x * 2 ^ f.fb + f.frac x := by
  rw [magnitude, Fmt.bexp, Fmt.frac, Nat.add_comm f.eb, pow_add, Nat.mod_mul]
  ring

theorem bexp_lt (f : Fmt) (x : ℕ) : f.bexp x < 2 ^ f.eb := Nat.mod_lt _ (Nat.two_pow_pos _)
theorem frac_lt (f : Fmt) (x : ℕ) : f.frac x < 2 ^ f.fb := Nat.mod_lt _ (Nat.two_pow_pos _)

theorem InFormat.parts {x : BitVec 64} (inside : InFormat f x) :
    x.toNat = f.zero (f.sgn x.toNat) + magnitude f x.toNat := by
  have whole : 2 ^ (1 + f.eb + f.fb) = 2 ^ (f.eb + f.fb) * 2 := by
    rw [Nat.add_assoc, Nat.add_comm 1, pow_succ]
  rw [InFormat, whole] at inside
  have bit := Nat.div_lt_of_lt_mul inside
  have split := Nat.div_add_mod x.toNat (2 ^ (f.eb + f.fb))
  rw [magnitude, Fmt.sgn, Fmt.signBit, Fmt.zero, Fmt.signBit]
  obtain zero | one : x.toNat / 2 ^ (f.eb + f.fb) = 0 ∨ x.toNat / 2 ^ (f.eb + f.fb) = 1 :=
    Nat.le_one_iff_eq_zero_or_eq_one.mp (Nat.lt_succ_iff.mp bit)
  · rw [zero] at split ⊢
    simpa using split.symm
  · rw [one] at split ⊢
    simpa using split.symm

theorem InFormat.toNat_lt {x : BitVec 64} (inside : InFormat f x) (positive : f.sgn x.toNat = false) :
    x.toNat = magnitude f x.toNat := by
  have parts := inside.parts
  rw [positive] at parts
  simpa [Fmt.zero] using parts

theorem inFormat_zero (fits : FitsWord f) (neg : Bool) : InFormat f (zero f neg) := by
  rw [InFormat, toNat_zero fits]
  have : 2 ^ (f.eb + f.fb) < 2 ^ (1 + f.eb + f.fb) := Nat.pow_lt_pow_right (by norm_num) (by omega)
  have := Nat.two_pow_pos (f.eb + f.fb)
  cases neg with
  | false => simp [Fmt.zero]
  | true =>
    simp only [Fmt.zero, Fmt.signBit, if_true]
    omega

theorem toNat_flush (fits : FitsWord f) (ftz : Bool) {x : BitVec 64} (inside : InFormat f x) :
    (flush f ftz x).toNat = f.flush ftz x.toNat ∧ InFormat f (flush f ftz x) := by
  rw [flush, Fmt.flush, isSub_eq fits, sgn_eq fits]
  by_cases tiny : (ftz && f.isSub x.toNat) = true
  · rw [if_pos tiny, if_pos tiny]
    exact ⟨toNat_zero fits _, inFormat_zero fits _⟩
  · rw [if_neg tiny, if_neg tiny]
    exact ⟨rfl, inside⟩

private theorem xor_two_pow {k y : ℕ} (below : y < 2 ^ k) : y ^^^ 2 ^ k = 2 ^ k + y := by
  have union : 2 ^ k + y = 2 ^ k ||| y := by simpa using Nat.two_pow_add_eq_or_of_lt below 1
  rw [union]
  apply Nat.eq_of_testBit_eq
  intro i
  rw [Nat.testBit_xor, Nat.testBit_or, Nat.testBit_two_pow]
  by_cases bit : k = i
  · subst bit
    simp [Nat.testBit_lt_two_pow below]
  · simp [bit]

theorem toNat_negBits (fits : FitsWord f) {x : BitVec 64} (inside : InFormat f x) :
    (negBits f x).toNat = FpModel.negBits f x.toNat ∧
      (negBits f x).toNat = f.zero (!f.sgn x.toNat) + magnitude f x.toNat ∧ InFormat f (negBits f x) := by
  have parts := inside.parts
  have below := magnitude_lt f x.toNat
  have flip := xor_two_pow below
  have whole : 2 ^ (1 + f.eb + f.fb) = 2 ^ (f.eb + f.fb) + 2 ^ (f.eb + f.fb) := by
    rw [Nat.add_assoc, Nat.add_comm 1, pow_succ]
    omega
  rw [InFormat, FpModel.negBits, negBits, BitVec.toNat_xor, toNat_signBit fits, Fmt.signBit]
  cases sign : f.sgn x.toNat with
  | false =>
    rw [sign] at parts
    simp only [Fmt.zero, Bool.false_eq_true, if_false, Nat.zero_add] at parts
    rw [← parts] at flip below
    simp only [flip, ← parts, Fmt.zero, Fmt.signBit]
    simp
    omega
  | true =>
    rw [sign] at parts
    simp only [Fmt.zero, Fmt.signBit, if_true] at parts
    have back : x.toNat ^^^ 2 ^ (f.eb + f.fb) = magnitude f x.toNat := by
      calc x.toNat ^^^ 2 ^ (f.eb + f.fb)
          = (magnitude f x.toNat ^^^ 2 ^ (f.eb + f.fb)) ^^^ 2 ^ (f.eb + f.fb) := by rw [flip, ← parts]
        _ = magnitude f x.toNat := by rw [Nat.xor_assoc, Nat.xor_self, Nat.xor_zero]
    rw [back]
    simp [Fmt.zero]
    omega

/-- The absolute value of a pattern in multiples of the least subnormal. -/
def units (f : Fmt) (x : ℕ) : ℕ :=
  if f.bexp x = 0 then f.frac x else (2 ^ f.fb + f.frac x) * 2 ^ (f.bexp x - 1)

theorem toQ_units (f : Fmt) (x : ℕ) :
    f.toQ x = signed (f.sgn x) ((units f x : ℚ) * 2 ^ (f.emin - f.fb)) := by
  rw [Fmt.toQ, units]
  by_cases sub : f.bexp x = 0
  · simp [sub, pow2_eq, signed]
  · have normal : f.bexp x = f.bexp x - 1 + 1 := by omega
    have exponent : (f.bexp x : ℤ) - f.bias - f.fb = ((f.bexp x - 1 : ℕ) : ℤ) + (f.emin - f.fb) := by
      rw [Fmt.emin]
      omega
    simp only [sub, if_false, pow2_eq, exponent, signed]
    rw [FpModel.two_zpow_add, zpow_natCast]
    push_cast
    have : ((f.frac x : ℚ) + 2 ^ f.fb) * (2 ^ (f.bexp x - 1) * 2 ^ (f.emin - f.fb)) =
        (2 ^ f.fb + f.frac x) * 2 ^ (f.bexp x - 1) * 2 ^ (f.emin - f.fb) := by ring
    rw [this]

private theorem units_lt_of_bexp_lt {x y : ℕ} (less : f.bexp x < f.bexp y) : units f x < units f y := by
  have short := frac_lt f x
  have normal : units f y = (2 ^ f.fb + f.frac y) * 2 ^ (f.bexp y - 1) := by
    rw [units, if_neg (by omega)]
  have low : 2 ^ f.fb * 2 ^ (f.bexp y - 1) ≤ units f y := by
    rw [normal]
    exact Nat.mul_le_mul_right _ (Nat.le_add_right _ _)
  refine lt_of_lt_of_le ?_ low
  by_cases sub : f.bexp x = 0
  · rw [units, if_pos sub]
    exact lt_of_lt_of_le short (Nat.le_mul_of_pos_right _ (Nat.two_pow_pos _))
  · rw [units, if_neg sub]
    calc (2 ^ f.fb + f.frac x) * 2 ^ (f.bexp x - 1) < 2 ^ f.fb * 2 * 2 ^ (f.bexp x - 1) :=
          Nat.mul_lt_mul_of_pos_right (by omega) (Nat.two_pow_pos _)
      _ = 2 ^ f.fb * 2 ^ f.bexp x := by
          rw [Nat.mul_assoc, ← pow_succ', Nat.sub_add_cancel (by omega)]
      _ ≤ 2 ^ f.fb * 2 ^ (f.bexp y - 1) :=
          Nat.mul_le_mul_left _ (Nat.pow_le_pow_right (by norm_num) (by omega))

theorem units_lt_of_magnitude_lt {x y : ℕ} (less : magnitude f x < magnitude f y) : units f x < units f y := by
  rw [magnitude_fields, magnitude_fields] at less
  have shortX := frac_lt f x
  have shortY := frac_lt f y
  obtain lower | same | higher := lt_trichotomy (f.bexp x) (f.bexp y)
  · exact units_lt_of_bexp_lt lower
  · have fraction : f.frac x < f.frac y := by
      rw [same] at less
      omega
    rw [units, units, same]
    by_cases sub : f.bexp y = 0
    · simpa [sub] using fraction
    · simp only [sub, if_false]
      exact Nat.mul_lt_mul_of_pos_right (by omega) (Nat.two_pow_pos _)
  · have : (f.bexp y + 1) * 2 ^ f.fb ≤ f.bexp x * 2 ^ f.fb := Nat.mul_le_mul_right _ higher
    rw [Nat.succ_mul] at this
    omega

/-- Magnitudes are ordered as the absolute values. -/
theorem units_lt_iff {x y : ℕ} : units f x < units f y ↔ magnitude f x < magnitude f y := by
  constructor
  · intro less
    by_contra above
    obtain same | lower := Nat.eq_or_lt_of_le (not_lt.mp above)
    · have bexp : f.bexp x = f.bexp y ∧ f.frac x = f.frac y := by
        rw [magnitude_fields, magnitude_fields] at same
        have shortX := frac_lt f x
        have shortY := frac_lt f y
        have quotients := congrArg (· / 2 ^ f.fb) same
        have rests := congrArg (· % 2 ^ f.fb) same
        simp only [Nat.mul_add_div (Nat.two_pow_pos _), Nat.mul_comm _ (2 ^ f.fb), Nat.mul_add_mod,
          Nat.div_eq_of_lt shortX, Nat.div_eq_of_lt shortY, Nat.mod_eq_of_lt shortX,
          Nat.mod_eq_of_lt shortY, Nat.add_zero] at quotients rests
        exact ⟨quotients.symm, rests.symm⟩
      rw [units, units, bexp.1, bexp.2] at less
      exact lt_irrefl _ less
    · exact lt_asymm less (units_lt_of_magnitude_lt lower)
  · exact units_lt_of_magnitude_lt

end E5r.FpBits
