import E5r.FpCorrect
import Mathlib.Data.EReal.Basic

/-!
Negation, absolute value, minimum, maximum and comparison of patterns are the
model's. The interpreter orders two numbers by an integer made from their
patterns, the model by their rational values, and both by the extended real
numbers that the patterns stand for.
-/
namespace E5r.FpBits
open PtxSyntax (FCmp)
open FpModel (Fmt signed two_zpow_pos)

variable {f : Fmt} {a b x : BitVec 64}

theorem toNat_clearSign (fits : FitsWord f) (inside : InFormat f x) :
    (x &&& ~~~signBit f).toNat = magnitude f x.toNat := by
  have disjoint : (x &&& ~~~signBit f) &&& (x &&& signBit f) = 0#64 := by
    rw [BitVec.and_comm (x &&& ~~~signBit f), BitVec.and_assoc]
    ext i inside
    simp
    intro _ set _
    simpa using set
  have whole : (x &&& ~~~signBit f) ||| (x &&& signBit f) = x := by
    ext i inside
    simp
    cases x[i] <;> cases (signBit f)[i] <;> rfl
  have sum := BitVec.toNat_add_of_and_eq_zero disjoint
  rw [BitVec.add_eq_or_of_and_eq_zero _ _ disjoint, whole, toNat_and_signBit fits] at sum
  have := inside.parts
  omega

theorem magnitude_inFormat (fits : FitsWord f) (inside : InFormat f x) : InFormat f (x &&& ~~~signBit f) := by
  have below := magnitude_lt f x.toNat
  have : 2 ^ (f.eb + f.fb) ≤ 2 ^ (1 + f.eb + f.fb) := Nat.pow_le_pow_right (by norm_num) (by omega)
  rw [InFormat, toNat_clearSign fits inside]
  omega

theorem fneg_encodes (fits : FitsWord f) (ftz : Bool) (inside : InFormat f a) :
    EncodesResult f (fneg f ftz a) (FpModel.fneg f ftz a.toNat) := by
  obtain ⟨same, flushed⟩ := toNat_flush fits ftz inside
  obtain ⟨negated, -, negatedInside⟩ := toNat_negBits fits flushed
  simp only [fneg, FpModel.fneg, isNan_eq fits, ← same]
  split
  · exact .none
  · exact .some ⟨negated, negatedInside⟩

theorem fabs_encodes (fits : FitsWord f) (ftz : Bool) (inside : InFormat f a) :
    EncodesResult f (fabs f ftz a) (FpModel.fabs f ftz a.toNat) := by
  obtain ⟨same, flushed⟩ := toNat_flush fits ftz inside
  simp only [fabs, FpModel.fabs, isNan_eq fits, ← same]
  split
  · exact .none
  · refine .some ⟨?_, magnitude_inFormat fits flushed⟩
    have parts := flushed.parts
    rw [toNat_clearSign fits flushed]
    cases sign : f.sgn (flush f ftz a).toNat with
    | false =>
      rw [sign] at parts
      simpa [Fmt.zero] using parts.symm
    | true =>
      rw [sign] at parts
      simp only [Fmt.zero, if_true] at parts ⊢
      omega

theorem units_eq_zero_iff (f : Fmt) (x : ℕ) : units f x = 0 ↔ magnitude f x = 0 := by
  have positive := Nat.two_pow_pos f.fb
  rw [units, magnitude_fields]
  by_cases sub : f.bexp x = 0
  · simp [sub]
  · have scale := Nat.two_pow_pos (f.bexp x - 1)
    rw [if_neg sub]
    constructor
    · intro zero
      rcases Nat.mul_eq_zero.mp zero with low | high
      · omega
      · omega
    · intro zero
      have : f.bexp x * 2 ^ f.fb ≠ 0 := Nat.mul_ne_zero sub (ne_of_gt positive)
      omega

theorem isZero_iff_magnitude (f : Fmt) (x : ℕ) : f.isZero x = true ↔ magnitude f x = 0 := by
  have positive := Nat.two_pow_pos f.fb
  rw [Fmt.isZero, Bool.and_eq_true, beq_iff_eq, beq_iff_eq, magnitude_fields]
  constructor
  · rintro ⟨exp, frac⟩
    rw [exp, frac, Nat.zero_mul]
  · intro zero
    have product : f.bexp x * 2 ^ f.fb = 0 := by omega
    exact ⟨(Nat.mul_eq_zero.mp product).resolve_right (ne_of_gt positive), by omega⟩

theorem magnitude_of_number {x : ℕ} (number : f.isNaN x = false) :
    magnitude f x ≤ f.expMax * 2 ^ f.fb ∧ (f.isInf x = true ↔ magnitude f x = f.expMax * 2 ^ f.fb) := by
  have short := frac_lt f x
  have field := bexp_lt f x
  rw [Fmt.isNaN, Bool.and_eq_false_iff, beq_eq_false_iff_ne, bne_eq_false_iff_eq] at number
  rw [Fmt.isInf, Bool.and_eq_true, beq_iff_eq, beq_iff_eq, magnitude_fields]
  by_cases top : f.bexp x = f.expMax
  · have frac : f.frac x = 0 := number.resolve_left (fun other => other top)
    simp [top, frac]
  · have less : f.bexp x + 1 ≤ f.expMax := by
      rw [Fmt.expMax] at top ⊢
      omega
    have := Nat.mul_le_mul_right (2 ^ f.fb) less
    rw [Nat.succ_mul] at this
    refine ⟨by omega, ?_⟩
    constructor
    · rintro ⟨exp, -⟩
      exact absurd exp top
    · intro same
      omega

private theorem key_eq (fits : FitsWord f) (inside : InFormat f x) :
    key f x = if f.sgn x.toNat then -(magnitude f x.toNat : ℤ) - 1 else magnitude f x.toNat := by
  simp only [key, sgn_eq fits, toNat_clearSign fits inside]

private theorem signed_units_lt {p q : Bool} {j k : ℕ} {s : ℚ} (scale : 0 < s) (some : ¬(j = 0 ∧ k = 0)) :
    signed p ((j : ℚ) * s) < signed q ((k : ℚ) * s) ↔
      (if p then -(j : ℤ) - 1 else j) < (if q then -(k : ℤ) - 1 else k) := by
  have left : 0 ≤ (j : ℚ) * s := mul_nonneg (Nat.cast_nonneg j) (le_of_lt scale)
  have right : 0 ≤ (k : ℚ) * s := mul_nonneg (Nat.cast_nonneg k) (le_of_lt scale)
  cases p with
  | false =>
    cases q with
    | false => simp [mul_lt_mul_iff_left₀ scale]
    | true =>
      simp only [FpModel.signed_false, FpModel.signed_true, if_true, Bool.false_eq_true, if_false]
      refine iff_of_false ?_ (by omega)
      linarith
  | true =>
    cases q with
    | false =>
      simp only [FpModel.signed_false, FpModel.signed_true, if_true, Bool.false_eq_true, if_false]
      refine iff_of_true ?_ (by omega)
      rcases Nat.eq_zero_or_pos j with zero | positive
      · have : 0 < (k : ℚ) * s := mul_pos (by exact_mod_cast (by omega : 0 < k)) scale
        linarith
      · have : 0 < (j : ℚ) * s := mul_pos (by exact_mod_cast positive) scale
        linarith
    | true =>
      simp [mul_lt_mul_iff_left₀ scale]

/-- The order of the keys of two numbers is the order of the model. -/
theorem ltSigned_eq (fits : FitsWord f) (insideA : InFormat f a) (insideB : InFormat f b)
    (numberA : f.isNaN a.toNat = false) (numberB : f.isNaN b.toNat = false) :
    ltSigned f a b = FpModel.ltSigned f a.toNat b.toNat := by
  obtain ⟨boundA, infA⟩ := magnitude_of_number numberA
  obtain ⟨boundB, infB⟩ := magnitude_of_number numberB
  have zeroA := isZero_iff_magnitude f a.toNat
  have zeroB := isZero_iff_magnitude f b.toNat
  generalize f.expMax * 2 ^ f.fb = top at boundA infA boundB infB
  rw [ltSigned, key_eq fits insideA, key_eq fits insideB, FpModel.ltSigned, toQ_units, toQ_units]
  by_cases infiniteA : f.isInf a.toNat = true
  · rw [if_pos infiniteA, infA.mp infiniteA]
    by_cases infiniteB : f.isInf b.toNat = true
    · rw [infiniteB, infB.mp infiniteB]
      cases f.sgn a.toNat <;> cases f.sgn b.toNat <;> simp <;> omega
    · have less := lt_of_le_of_ne boundB (fun same => infiniteB (infB.mpr same))
      rw [Bool.not_eq_true] at infiniteB
      rw [infiniteB]
      cases f.sgn a.toNat <;> cases f.sgn b.toNat <;> simp <;> omega
  rw [if_neg infiniteA]
  by_cases infiniteB : f.isInf b.toNat = true
  · have less := lt_of_le_of_ne boundA (fun same => infiniteA (infA.mpr same))
    rw [if_pos infiniteB, infB.mp infiniteB]
    cases f.sgn a.toNat <;> cases f.sgn b.toNat <;> simp <;> omega
  rw [if_neg infiniteB]
  by_cases zeros : (f.isZero a.toNat && f.isZero b.toNat) = true
  · rw [if_pos zeros]
    rw [Bool.and_eq_true] at zeros
    rw [zeroA.mp zeros.1, zeroB.mp zeros.2]
    cases f.sgn a.toNat <;> cases f.sgn b.toNat <;> simp
  · rw [if_neg zeros]
    have some : ¬(units f a.toNat = 0 ∧ units f b.toNat = 0) := by
      rw [units_eq_zero_iff, units_eq_zero_iff, ← zeroA, ← zeroB]
      simpa using zeros
    have forward := units_lt_iff (f := f) (x := a.toNat) (y := b.toNat)
    have backward := units_lt_iff (f := f) (x := b.toNat) (y := a.toNat)
    rw [Bool.eq_iff_iff, decide_eq_true_iff, decide_eq_true_iff, signed_units_lt (two_zpow_pos _) some]
    cases f.sgn a.toNat <;> cases f.sgn b.toNat <;> simp <;> omega

theorem fminmax_encodes (fits : FitsWord f) (isMax ftz nan : Bool) (insideA : InFormat f a)
    (insideB : InFormat f b) :
    EncodesResult f (fminmax f isMax ftz nan a b) (FpModel.fminmax f isMax ftz nan a.toNat b.toNat) := by
  obtain ⟨sameA, flushedA⟩ := toNat_flush fits ftz insideA
  obtain ⟨sameB, flushedB⟩ := toNat_flush fits ftz insideB
  simp only [fminmax, FpModel.fminmax, isNan_eq fits, ← sameA, ← sameB]
  generalize flush f ftz a = x at flushedA ⊢
  generalize flush f ftz b = y at flushedB ⊢
  split
  · exact .none
  split
  · exact .none
  split
  · exact .some ⟨rfl, flushedB⟩
  split
  · exact .some ⟨rfl, flushedA⟩
  next numberA numberB =>
    rw [Bool.not_eq_true] at numberA numberB
    rw [ltSigned_eq fits flushedB flushedA numberB numberA, ltSigned_eq fits flushedA flushedB numberA numberB]
    cases isMax with
    | false =>
      simp only [Bool.false_eq_true, if_false]
      split
      · exact .some ⟨rfl, flushedA⟩
      · exact .some ⟨rfl, flushedB⟩
    | true =>
      simp only [if_true]
      split
      · exact .some ⟨rfl, flushedA⟩
      · exact .some ⟨rfl, flushedB⟩

private theorem compare_key {j k : ℤ} : compare j k = if j < k then .lt else if k < j then .gt else .eq := by
  obtain less | same | more := lt_trichotomy j k
  · rw [compare_lt_iff_lt.mpr less, if_pos less]
  · subst same
    simp
  · rw [compare_gt_iff_gt.mpr more, if_neg (not_lt.mpr (le_of_lt more)), if_pos more]

theorem fsetp_eq (fits : FitsWord f) (c : FCmp) (ftz : Bool) (insideA : InFormat f a) (insideB : InFormat f b) :
    fsetp f c ftz a b = FpModel.fsetp f c ftz a.toNat b.toNat := by
  obtain ⟨sameA, flushedA⟩ := toNat_flush fits ftz insideA
  obtain ⟨sameB, flushedB⟩ := toNat_flush fits ftz insideB
  simp only [fsetp, FpModel.fsetp, isNan_eq fits, isZero_eq fits, ← sameA, ← sameB]
  generalize flush f ftz a = x at flushedA ⊢
  generalize flush f ftz b = y at flushedB ⊢
  by_cases unordered : (f.isNaN x.toNat || f.isNaN y.toNat) = true
  · cases c <;> simp only [unordered, Bool.not_true, Bool.false_and, Bool.true_or]
  · rw [Bool.not_eq_true] at unordered
    obtain ⟨numberA, numberB⟩ := Bool.or_eq_false_iff.mp unordered
    have order : (if (f.isZero x.toNat && f.isZero y.toNat) = true then Ordering.eq
        else if (!false) = true then compare (key f x) (key f y) else .eq) = FpModel.cmpNum f x.toNat y.toNat := by
      have less := ltSigned_eq fits flushedA flushedB numberA numberB
      have more := ltSigned_eq fits flushedB flushedA numberB numberA
      rw [FpModel.cmpNum, ← less, ← more, compare_key]
      simp only [ltSigned, Bool.not_false, if_true, decide_eq_true_iff]
    cases c <;> rw [unordered, order]

noncomputable def extended (f : Fmt) (x : ℕ) : EReal :=
  if f.isInf x then (if f.sgn x then ⊥ else ⊤) else ((f.toQ x : ℝ) : EReal)

/-- The order of the extended real numbers, with a negative zero below a
    positive one. -/
def Precedes (f : Fmt) (x y : ℕ) : Prop :=
  extended f x < extended f y ∨ (f.isZero x = true ∧ f.sgn x = true ∧ f.isZero y = true ∧ f.sgn y = false)

theorem isInf_of_isZero {x : ℕ} (fits : FitsWord f) (zero : f.isZero x = true) : f.isInf x = false := by
  rw [Fmt.isZero, Bool.and_eq_true, beq_iff_eq, beq_iff_eq] at zero
  have top : 0 ≠ f.expMax := by
    have : 2 ^ 2 ≤ 2 ^ f.eb := Nat.pow_le_pow_right (by norm_num) fits.exp
    rw [Fmt.expMax]
    omega
  simp [Fmt.isInf, zero.1, top]

theorem toQ_eq_zero_iff (f : Fmt) (x : ℕ) : f.toQ x = 0 ↔ f.isZero x = true := by
  rw [toQ_units, FpModel.signed_eq_zero, mul_eq_zero_iff_right (ne_of_gt (two_zpow_pos _)), Nat.cast_eq_zero,
    units_eq_zero_iff, isZero_iff_magnitude]

theorem extended_zero {x : ℕ} (fits : FitsWord f) (zero : f.isZero x = true) : extended f x = 0 := by
  rw [extended, isInf_of_isZero fits zero, (toQ_eq_zero_iff f x).mpr zero]
  simp

/-- The model's order is the order of the extended real numbers. -/
theorem ltSigned_iff (fits : FitsWord f) (x y : ℕ) : FpModel.ltSigned f x y = true ↔ Precedes f x y := by
  rw [FpModel.ltSigned, Precedes]
  by_cases infiniteX : f.isInf x = true
  · have some : f.isZero x = false := by
      by_contra zero
      rw [isInf_of_isZero fits (by simpa using zero)] at infiniteX
      exact absurd infiniteX (by decide)
    rw [if_pos infiniteX, extended, if_pos infiniteX, some, extended]
    cases signX : f.sgn x with
    | false => simp
    | true =>
      cases infiniteY : f.isInf y <;> cases signY : f.sgn y <;> simp [EReal.bot_lt_coe]
  rw [if_neg infiniteX]
  by_cases infiniteY : f.isInf y = true
  · have some : f.isZero y = false := by
      by_contra zero
      rw [isInf_of_isZero fits (by simpa using zero)] at infiniteY
      exact absurd infiniteY (by decide)
    rw [if_pos infiniteY, extended, if_neg infiniteX, some, extended, if_pos infiniteY]
    cases signY : f.sgn y <;> simp [EReal.coe_lt_top]
  rw [if_neg infiniteY, extended, if_neg infiniteX, extended, if_neg infiniteY, EReal.coe_lt_coe_iff, Rat.cast_lt]
  by_cases zeros : (f.isZero x && f.isZero y) = true
  · rw [if_pos zeros]
    rw [Bool.and_eq_true] at zeros
    rw [(toQ_eq_zero_iff f x).mpr zeros.1, (toQ_eq_zero_iff f y).mpr zeros.2, zeros.1, zeros.2]
    simp
  · rw [if_neg zeros, decide_eq_true_iff]
    constructor
    · exact .inl
    · rintro (less | ⟨zeroX, -, zeroY, -⟩)
      · exact less
      · rw [zeroX, zeroY] at zeros
        exact absurd rfl zeros

/-- Two numbers that compare neither way are equal as extended real numbers. -/
theorem cmpNum_spec (fits : FitsWord f) (x y : ℕ) :
    (FpModel.cmpNum f x y = .lt ↔ extended f x < extended f y) ∧
      (FpModel.cmpNum f x y = .gt ↔ extended f y < extended f x) ∧
      (FpModel.cmpNum f x y = .eq ↔ extended f x = extended f y) := by
  have less := ltSigned_iff fits x y
  have more := ltSigned_iff fits y x
  rw [Precedes] at less more
  rw [FpModel.cmpNum]
  by_cases zeros : (f.isZero x && f.isZero y) = true
  · rw [if_pos zeros]
    rw [Bool.and_eq_true] at zeros
    rw [extended_zero fits zeros.1, extended_zero fits zeros.2]
    simp
  rw [if_neg zeros]
  rw [Bool.and_eq_true] at zeros
  have notLess : ¬(f.isZero x = true ∧ f.sgn x = true ∧ f.isZero y = true ∧ f.sgn y = false) :=
    fun both => zeros ⟨both.1, both.2.2.1⟩
  have notMore : ¬(f.isZero y = true ∧ f.sgn y = true ∧ f.isZero x = true ∧ f.sgn x = false) :=
    fun both => zeros ⟨both.2.2.1, both.1⟩
  rw [or_iff_left notLess] at less
  rw [or_iff_left notMore] at more
  obtain below | same | above := lt_trichotomy (extended f x) (extended f y)
  · rw [if_pos (less.mpr below)]
    simp [below, not_lt_of_gt below, ne_of_lt below]
  · have first : ¬FpModel.ltSigned f x y = true := fun lt => ne_of_lt (less.mp lt) same
    have second : ¬FpModel.ltSigned f y x = true := fun lt => ne_of_lt (more.mp lt) same.symm
    rw [if_neg first, if_neg second, same]
    simp
  · have first : ¬FpModel.ltSigned f x y = true := fun lt => lt_asymm (less.mp lt) above
    rw [if_neg first, if_pos (more.mpr above)]
    simp [above, not_lt_of_gt above, ne_of_gt above]

/-- The minimum or maximum of two patterns in the order of the extended real
    numbers with signed zeros. One NaN gives the other pattern, unless a NaN is
    asked for. -/
def IsMinMax (f : Fmt) (isMax nan : Bool) (x y : BitVec 64) : Option (BitVec 64) → Prop
  | none => (f.isNaN x.toNat ∧ f.isNaN y.toNat) ∨ (nan ∧ (f.isNaN x.toNat ∨ f.isNaN y.toNat))
  | some r =>
    if f.isNaN x.toNat then nan = false ∧ f.isNaN y.toNat = false ∧ r = y
    else if f.isNaN y.toNat then nan = false ∧ r = x
    else (r = x ∨ r = y) ∧
      if isMax then ¬Precedes f r.toNat x.toNat ∧ ¬Precedes f r.toNat y.toNat
      else ¬Precedes f x.toNat r.toNat ∧ ¬Precedes f y.toNat r.toNat

/-- What a comparison says about two extended real numbers, of which at least
    one is missing when the operands are unordered. -/
def Holds (unordered : Prop) (x y : EReal) : FCmp → Prop
  | .eq => ¬unordered ∧ x = y
  | .ne => ¬unordered ∧ x ≠ y
  | .lt => ¬unordered ∧ x < y
  | .le => ¬unordered ∧ x ≤ y
  | .gt => ¬unordered ∧ y < x
  | .ge => ¬unordered ∧ y ≤ x
  | .equ => unordered ∨ x = y
  | .neu => unordered ∨ x ≠ y
  | .ltu => unordered ∨ x < y
  | .leu => unordered ∨ x ≤ y
  | .gtu => unordered ∨ y < x
  | .geu => unordered ∨ y ≤ x
  | .num => ¬unordered
  | .nan => unordered

theorem fsetp_iff (fits : FitsWord f) (c : FCmp) (ftz : Bool) (insideA : InFormat f a) (insideB : InFormat f b) :
    fsetp f c ftz a b = true ↔
      Holds (f.isNaN (flush f ftz a).toNat = true ∨ f.isNaN (flush f ftz b).toNat = true)
        (extended f (flush f ftz a).toNat) (extended f (flush f ftz b).toNat) c := by
  obtain ⟨sameA, -⟩ := toNat_flush fits ftz insideA
  obtain ⟨sameB, -⟩ := toNat_flush fits ftz insideB
  rw [fsetp_eq fits c ftz insideA insideB]
  simp only [FpModel.fsetp, ← sameA, ← sameB]
  generalize (flush f ftz a).toNat = x
  generalize (flush f ftz b).toNat = y
  obtain ⟨less, more, same⟩ := cmpNum_spec fits x y
  cases c <;> simp [Holds, less, more, same, not_or]

theorem not_precedes_self (x : ℕ) : ¬Precedes f x x := by
  rintro (less | ⟨-, sign, -, other⟩)
  · exact lt_irrefl _ less
  · rw [sign] at other
    exact absurd other (by decide)

theorem Precedes.asymm (fits : FitsWord f) {x y : ℕ} (before : Precedes f x y) : ¬Precedes f y x := by
  rintro (more | ⟨zeroY, -, zeroX, signX⟩)
  · rcases before with less | ⟨zeroX, -, zeroY, -⟩
    · exact lt_asymm less more
    · rw [extended_zero fits zeroX, extended_zero fits zeroY] at more
      exact lt_irrefl _ more
  · rcases before with less | ⟨-, sign, -, -⟩
    · rw [extended_zero fits zeroX, extended_zero fits zeroY] at less
      exact lt_irrefl _ less
    · rw [signX] at sign
      exact absurd sign (by decide)

theorem fminmax_isMinMax (fits : FitsWord f) (isMax ftz nan : Bool) (insideA : InFormat f a) (insideB : InFormat f b) :
    IsMinMax f isMax nan (flush f ftz a) (flush f ftz b) (fminmax f isMax ftz nan a b) := by
  obtain ⟨-, flushedA⟩ := toNat_flush fits ftz insideA
  obtain ⟨-, flushedB⟩ := toNat_flush fits ftz insideB
  simp only [fminmax, isNan_eq fits]
  generalize flush f ftz a = x at flushedA ⊢
  generalize flush f ftz b = y at flushedB ⊢
  by_cases nanX : f.isNaN x.toNat = true
  · by_cases nanY : f.isNaN y.toNat = true
    · simp [IsMinMax, nanX, nanY]
    · cases nan <;> simp [IsMinMax, nanX, nanY]
  by_cases nanY : f.isNaN y.toNat = true
  · cases nan <;> simp [IsMinMax, nanX, nanY]
  rw [Bool.not_eq_true] at nanX nanY
  have less := ltSigned_iff fits x.toNat y.toNat
  have more := ltSigned_iff fits y.toNat x.toNat
  rw [← ltSigned_eq fits flushedA flushedB nanX nanY] at less
  rw [← ltSigned_eq fits flushedB flushedA nanY nanX] at more
  simp only [nanX, nanY, Bool.and_false, Bool.or_false, Bool.false_eq_true, if_false]
  cases isMax with
  | true =>
    by_cases above : ltSigned f y x = true
    · simp [IsMinMax, nanX, nanY, above, not_precedes_self, (more.mp above).asymm fits]
    · have rest : ¬Precedes f y.toNat x.toNat := fun before => above (more.mpr before)
      simp [IsMinMax, nanX, nanY, above, not_precedes_self, rest]
  | false =>
    by_cases below : ltSigned f x y = true
    · simp [IsMinMax, nanX, nanY, below, not_precedes_self, (less.mp below).asymm fits]
    · have rest : ¬Precedes f x.toNat y.toNat := fun before => below (less.mpr before)
      simp [IsMinMax, nanX, nanY, below, not_precedes_self, rest]

/-- The integers that order the patterns of numbers order them as extended real
    numbers with the negative zero below the positive one, the minimum and the
    maximum are taken in that order, and every comparison has its ordered or
    unordered meaning on the flushed operands. -/
theorem order_correct {f : Fmt} (known : f = .f32 ∨ f = .f64) {a b : BitVec 64} (insideA : InFormat f a)
    (insideB : InFormat f b) :
    (isNan f a = false → isNan f b = false →
      (key f a < key f b ↔ extended f a.toNat < extended f b.toNat ∨
        (isZero f a = true ∧ sgn f a = true ∧ isZero f b = true ∧ sgn f b = false))) ∧
    (∀ isMax ftz nan : Bool,
      IsMinMax f isMax nan (flush f ftz a) (flush f ftz b) (fminmax f isMax ftz nan a b)) ∧
    ∀ (c : FCmp) (ftz : Bool), fsetp f c ftz a b = true ↔
      Holds (isNan f (flush f ftz a) = true ∨ isNan f (flush f ftz b) = true)
        (extended f (flush f ftz a).toNat) (extended f (flush f ftz b).toNat) c := by
  have fits := fitsWord_of_known known
  refine ⟨?_, fun isMax ftz nan => fminmax_isMinMax fits isMax ftz nan insideA insideB, ?_⟩
  · intro numberA numberB
    rw [isNan_eq fits] at numberA numberB
    have order := ltSigned_iff fits a.toNat b.toNat
    rw [← ltSigned_eq fits insideA insideB numberA numberB, ltSigned, decide_eq_true_iff] at order
    rw [isZero_eq fits, isZero_eq fits, sgn_eq fits, sgn_eq fits]
    exact order
  · intro c ftz
    rw [isNan_eq fits, isNan_eq fits]
    exact fsetp_iff fits c ftz insideA insideB

/-- The negative zero comes before the positive one, and a comparison does not
    tell them apart. -/
theorem order_correct_zeros : key .f32 0x80000000#64 < key .f32 0#64 ∧ fsetp .f32 .lt false 0x80000000#64 0#64 = false := by
  obtain ⟨keys, -, comparisons⟩ := order_correct (f := .f32) (.inl rfl) (a := 0x80000000#64) (b := 0#64)
    (by unfold InFormat; decide) (by unfold InFormat; decide)
  refine ⟨(keys (by decide) (by decide)).mpr (.inr (by decide)), ?_⟩
  rw [← Bool.not_eq_true, comparisons]
  have left : extended .f32 (flush .f32 false 0x80000000#64).toNat = 0 := extended_zero fitsWord_f32 (by decide)
  have right : extended .f32 (flush .f32 false 0#64).toNat = 0 := extended_zero fitsWord_f32 (by decide)
  rw [left, right]
  rintro ⟨-, less⟩
  exact lt_irrefl _ less

end E5r.FpBits
