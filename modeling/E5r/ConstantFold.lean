import E5r.IrBuilder
import Mathlib.Data.Nat.ModEq

/-!
# The constant folder

The folder works out operations on constants with code of its own, and is compared with one
step of the interpreter. `none` is a division by zero or a shift by more than a word.
-/

namespace E5r.ConstantFold

open IrModel

/-- The operations on floating point numbers. -/
inductive FloatOp where
  | floatAdd | floatSub | floatMul | floatDiv | floatMulAdd | floatNeg | floatAbs | floatSqrt | floatMax | floatMin
  | floatEqual | floatNotEqual | floatLess | floatLessEqual | floatNan | floatTrunc | floatRound | floatCeil
  | floatFloor | intToFloat | uIntToFloat | floatToInt | floatToUInt | floatConvert
  deriving DecidableEq

inductive Operation where
  | basic (op : Op)
  | float (op : FloatOp)
  deriving DecidableEq

/-- A constant operand: what is stored, and the size it is read at. -/
structure Constant where
  value : UInt64
  size : UInt8
  deriving DecidableEq

def Constant.varnode (c : Constant) : Varnode := Varnode.constant c.value.toNat c.size.toNat

def mask (size : ℕ) : ℕ :=
  if size ≤ 7 then 2 ^ (size * 8) - 1 else 2 ^ 64 - 1

def signExtend (v s : ℕ) : ℤ :=
  if 8 ≤ s then asI64 v else asI64 (shl64 v (64 - s * 8)) >>> (64 - s * 8)

def shiftLeft (x y : ℕ) : Option (Option ℕ) :=
  if 64 ≤ y then none else some (some (x <<< y % 2 ^ 64))

def shiftRight (x y : ℕ) : Option (Option ℕ) :=
  if 64 ≤ y then none else some (some (x >>> y))

/-- What an operation gives for its operands as they are stored and as signed numbers. -/
def work (op : Op) (x y : ℕ) (xs ys : ℤ) (bits : ℕ) : Option (Option ℕ) :=
  match op with
  | .intAdd => some (some ((x + y) % 2 ^ 64))
  | .intSub => some (some ((x + 2 ^ 64 - y) % 2 ^ 64))
  | .intMul => some (some (x * y % 2 ^ 64))
  | .intDiv => if y = 0 then some none else some (some (x / y))
  | .intRem => if y = 0 then some none else some (some (x % y))
  | .intSDiv => if y = 0 then some none else if ys = 0 then none else some (some (asU64 (xs.tdiv ys)))
  | .intSRem => if y = 0 then some none else if ys = 0 then none else some (some (asU64 (xs.tmod ys)))
  | .intAnd => some (some (x &&& y))
  | .intOr => some (some (x ||| y))
  | .intXor => some (some (x ^^^ y))
  | .intNot => some (some (2 ^ 64 - 1 - x))
  | .intNegate => some (some ((2 ^ 64 - x) % 2 ^ 64))
  | .intLeft => if bits ≤ y then some (some 0) else shiftLeft x y
  | .intRight => if bits ≤ y then some (some 0) else shiftRight x y
  | .intSRight =>
    if bits ≤ y then some (some (if xs < 0 then 2 ^ 64 - 1 else 0))
    else if 64 ≤ y then none else some (some (asU64 (xs >>> y)))
  | .intEqual => some (some (x == y).toNat)
  | .intNotEqual => some (some (x != y).toNat)
  | .intLess => some (some (decide (x < y)).toNat)
  | .intSLess => some (some (decide (xs < ys)).toNat)
  | .intLessEqual => some (some (decide (x ≤ y)).toNat)
  | .intSLessEqual => some (some (decide (xs ≤ ys)).toNat)
  | .intZExt => some (some x)
  | .intSExt => some (some (asU64 xs))
  | .popCount => some (some (countOnes x))
  | .boolAnd => some (some (x != 0 && y != 0).toNat)
  | .boolOr => some (some (x != 0 || y != 0).toNat)
  | .boolXor => some (some ((x != 0) ^^ (y != 0)).toNat)
  | .boolNot => some (some (x == 0).toNat)
  | .subPiece => if 2 ^ 64 ≤ y * 8 then none else shiftRight x (y * 8)
  | _ => some none

/-- Evaluate a constant operation; the inner `none` is a result that is not defined. -/
def evaluate (op : Operation) (inputs : List Constant) (size : ℕ) : Option (Option ℕ) :=
  if size = 0 then some none
  else
    let inSize (n : ℕ) : ℕ := max ((inputs[n]?.map fun i => i.size.toNat).getD size) 1
    match inputs[0]?.map fun i => i.value.toNat with
    | none => some none
    | some x =>
      let y := (inputs[1]?.map fun i => i.value.toNat).getD 0
      match op with
      | .float _ => some none
      | .basic op =>
        (work op x y (signExtend x (inSize 0)) (signExtend y (inSize 1)) (inSize 0 * 8)).map fun out =>
          out.map fun v => v &&& mask size

/-- The folder does not stop, and what it gives is what one step writes to an output of
    that size. -/
structure Meets (op : Operation) (inputs : List Constant) (size : ℕ) : Prop where
  total : evaluate op inputs size ≠ none
  exact : ∀ v, evaluate op inputs size = some (some v) → v < 256 ^ size ∧ ∃ o, op = .basic o ∧
    ∀ m out addr, out.size = size →
      step m ⟨o, some out, inputs.map Constant.varnode, addr⟩ = (m.write out v, .next)

/-- The bytes of the first operand that the folder looks at. -/
def readsFirst (op : Op) (s y size : ℕ) : ℕ :=
  match op with
  | .intAdd | .intSub | .intMul | .intAnd | .intOr | .intXor | .intNot | .intNegate | .intZExt | .intLeft => size
  | .intDiv | .intRem => if y = 0 then 0 else 8
  | .intSDiv | .intSRem => if y = 0 then 0 else max s 1
  | .intSRight | .intSExt | .intSLess | .intSLessEqual => max s 1
  | .subPiece => y + size
  | .intRight | .intEqual | .intNotEqual | .intLess | .intLessEqual | .popCount | .boolAnd | .boolOr | .boolXor
  | .boolNot => 8
  | _ => 0

def readsSecond (op : Op) (s size : ℕ) : ℕ :=
  match op with
  | .intAdd | .intSub | .intMul | .intAnd | .intOr | .intXor => size
  | .intSDiv | .intSRem | .intSLess | .intSLessEqual => max s 1
  | .intDiv | .intRem | .intLeft | .intRight | .intSRight | .intEqual | .intNotEqual | .intLess | .intLessEqual
  | .boolAnd | .boolOr | .boolXor | .subPiece => 8
  | _ => 0

/-- No bits above the size of an operand are in the bytes that are looked at. -/
def Seen (x s n : ℕ) : Prop :=
  x % 256 ^ s % 256 ^ n = x % 256 ^ n

instance (x s n : ℕ) : Decidable (Seen x s n) :=
  inferInstanceAs (Decidable (_ = _))

/-- The divisor or the amount that the folder cannot divide or shift by. -/
def Stops (op : Op) (y s₀ s₁ : ℕ) : Prop :=
  match op with
  | .intLeft | .intRight | .intSRight => 64 ≤ y ∧ y < max s₀ 1 * 8
  | .intSDiv | .intSRem => y ≠ 0 ∧ y % 256 ^ max s₁ 1 = 0
  | .subPiece => 8 ≤ y
  | _ => False

theorem and_mask {size : ℕ} (least : 1 ≤ size) (most : size ≤ 8) (v : ℕ) : v &&& mask size = v % 256 ^ size := by
  have := IrModel.and_mask v (v := Varnode.constant 0 size) most
  rwa [Varnode.mask, show (Varnode.constant 0 size).size = size from rfl, if_neg (by omega)] at this

theorem power_dvd {n : ℕ} (short : n ≤ 8) : 256 ^ n ∣ 2 ^ 64 :=
  pow_dvd_pow 256 short

section Operand

variable {x s n : ℕ}

theorem Seen.modEq (seen : Seen x s n) : x % 256 ^ s ≡ x [MOD 256 ^ n] :=
  seen

theorem Seen.eq (seen : Seen x s 8) (small : x < 2 ^ 64) : x % 256 ^ s = x := by
  have le := Nat.mod_le x (256 ^ s)
  have := seen
  rw [Seen, Nat.mod_eq_of_lt (show x < 256 ^ 8 by omega), Nat.mod_eq_of_lt (show x % 256 ^ s < 256 ^ 8 by omega)] at this
  exact this

theorem signExtend_eq_sext (some : 1 ≤ s) : signExtend x s = sext x s := by
  rw [signExtend, sext]
  by_cases wide : 8 ≤ s
  · rw [if_pos wide, if_neg (show ¬s = 0 by omega), if_neg (show ¬s ≤ 7 by omega)]
  · rw [if_neg wide, if_neg (show ¬s = 0 by omega), if_pos (show s ≤ 7 by omega)]

/-- Sign extension looks at the bytes of the size only. -/
theorem sext_mod (small : x < 2 ^ 64) (some : 1 ≤ s) : sext (x % 256 ^ s) s = sext x s := by
  by_cases wide : 8 ≤ s
  · have : (256 : ℕ) ^ 8 ≤ 256 ^ s := Nat.pow_le_pow_right (by decide) wide
    rw [Nat.mod_eq_of_lt (by omega)]
  · simp only [sext, if_neg (show ¬s = 0 by omega), if_pos (show s ≤ 7 by omega)]
    have amount : (64 - s * 8) % 64 = 64 - s * 8 := Nat.mod_eq_of_lt (by omega)
    have split : 2 ^ 64 = 256 ^ s * 2 ^ (64 - s * 8) := by
      rw [show (256 : ℕ) = 2 ^ 8 from rfl, ← pow_mul, ← pow_add]
      congr 1
      omega
    rw [shl64, shl64, amount, Nat.shiftLeft_eq, Nat.shiftLeft_eq, split, Nat.mul_mod_mul_right, Nat.mul_mod_mul_right,
      Nat.mod_mod]

theorem sext_zero (s : ℕ) : sext 0 s = 0 := by
  rw [sext]
  split
  · rfl
  · split
    · rw [shl64, Nat.zero_shiftLeft, Nat.zero_mod]
      exact Int.zero_shiftRight _
    · rfl

theorem sext_eq_zero_iff (small : x < 2 ^ 64) (some : 1 ≤ s) : sext x s = 0 ↔ x % 256 ^ s = 0 := by
  by_cases wide : 8 ≤ s
  · have : (256 : ℕ) ^ 8 ≤ 256 ^ s := Nat.pow_le_pow_right (by decide) wide
    rw [Nat.mod_eq_of_lt (by omega), sext, if_neg (show ¬s = 0 by omega), if_neg (show ¬s ≤ 7 by omega), asI64]
    split <;> omega
  · rw [sext, if_neg (show ¬s = 0 by omega), if_pos (show s ≤ 7 by omega), shl64, asI64, Int.shiftRight_eq_div_pow, Nat.shiftLeft_eq]
    have : s = 1 ∨ s = 2 ∨ s = 3 ∨ s = 4 ∨ s = 5 ∨ s = 6 ∨ s = 7 := by omega
    rcases this with rfl | rfl | rfl | rfl | rfl | rfl | rfl <;> norm_num <;> split <;> omega

theorem signExtend_seen (small : x < 2 ^ 64) (seen : Seen x s (max s 1)) :
    signExtend x (max s 1) = sext (x % 256 ^ s) s := by
  rw [signExtend_eq_sext (le_max_right s 1)]
  by_cases none : s = 0
  · subst none
    have low : x % 256 ^ 1 = 0 := by
      rw [Seen, pow_zero, Nat.mod_one, Nat.zero_mod] at seen
      exact seen.symm
    rw [show max 0 1 = 1 from rfl, (sext_eq_zero_iff small (Nat.le_refl 1)).mpr low]
    rfl
  · rw [show max s 1 = s from Nat.max_eq_left (by omega), sext_mod small (by omega)]

end Operand

section Working

variable {op : Op} {x y s₀ s₁ size v : ℕ}

theorem mod_word (most : size ≤ 8) (n : ℕ) : n % 2 ^ 64 % 256 ^ size = n % 256 ^ size :=
  Nat.mod_mod_of_dvd n (power_dvd most)

/-- Taking away from a word goes by the lowest bytes. -/
theorem modEq_sub {a b c n : ℕ} (la : a ≤ c) (lb : b ≤ c) (same : a ≡ b [MOD n]) : c - a ≡ c - b [MOD n] := by
  refine Nat.ModEq.add_right_cancel same ?_
  rw [Nat.sub_add_cancel la, Nat.sub_add_cancel lb]

theorem and_mod (a b : ℕ) : (a &&& b) % 256 ^ size = a % 256 ^ size &&& b % 256 ^ size := by
  rw [show (256 : ℕ) = 2 ^ 8 from rfl, ← pow_mul, Nat.and_mod_two_pow]

theorem or_mod (a b : ℕ) : (a ||| b) % 256 ^ size = a % 256 ^ size ||| b % 256 ^ size := by
  rw [show (256 : ℕ) = 2 ^ 8 from rfl, ← pow_mul, Nat.or_mod_two_pow]

theorem xor_mod (a b : ℕ) : (a ^^^ b) % 256 ^ size = a % 256 ^ size ^^^ b % 256 ^ size := by
  rw [show (256 : ℕ) = 2 ^ 8 from rfl, ← pow_mul, Nat.xor_mod_two_pow]

theorem shiftLeft_mod {a b : ℕ} (most : size ≤ 8) (same : a ≡ b [MOD 256 ^ size]) (k : ℕ) :
    a <<< k % 2 ^ 64 % 256 ^ size = b <<< k % 2 ^ 64 % 256 ^ size := by
  rw [mod_word most, mod_word most, Nat.shiftLeft_eq, Nat.shiftLeft_eq]
  exact same.mul_right _

theorem shiftRight_mod {a b k : ℕ} (same : a ≡ b [MOD 256 ^ (k + size)]) :
    a >>> (k * 8) % 256 ^ size = b >>> (k * 8) % 256 ^ size := by
  have power : (2 : ℕ) ^ (k * 8) = 256 ^ k := by
    rw [show (256 : ℕ) = 2 ^ 8 from rfl, ← pow_mul, Nat.mul_comm]
  rw [Nat.shiftRight_eq_div_pow, Nat.shiftRight_eq_div_pow, power, ← Nat.mod_mul_right_div_self,
    ← Nat.mod_mul_right_div_self, ← pow_add, same]

theorem work_none_iff (small : y < 2 ^ 64) (xs : ℤ) :
    work op x y xs (signExtend y (max s₁ 1)) (max s₀ 1 * 8) = none ↔ Stops op y s₀ s₁ := by
  have zero : signExtend y (max s₁ 1) = 0 ↔ y % 256 ^ max s₁ 1 = 0 := by
    rw [signExtend_eq_sext (le_max_right s₁ 1), sext_eq_zero_iff small (le_max_right s₁ 1)]
  cases op with
  | intSDiv | intSRem =>
    simp only [work, Stops, ← zero]
    split_ifs <;> simp_all
  | intLeft | intRight | intSRight =>
    simp only [work, Stops, shiftLeft, shiftRight]
    split_ifs <;> simp <;> omega
  | subPiece =>
    simp only [work, Stops, shiftRight]
    split_ifs <;> simp <;> omega
  | intDiv | intRem =>
    simp only [work, Stops]
    split_ifs <;> simp
  | _ => simp [work, Stops]

/-- Operations whose result depends on the lowest bytes of what they read. -/
theorem work_agrees (least : 1 ≤ size) (most : size ≤ 8) (smallX : x < 2 ^ 64) (smallY : y < 2 ^ 64)
    (goes : ¬Stops op y s₀ s₁) (first : Seen x s₀ (readsFirst op s₀ y size)) (second : Seen y s₁ (readsSecond op s₁ size))
    (worked : work op x y (signExtend x (max s₀ 1)) (signExtend y (max s₁ 1)) (max s₀ 1 * 8) = some (some v)) :
    ∃ r, compute op [(x % 256 ^ s₀, s₀), (y % 256 ^ s₁, s₁)] = .value r ∧ r % 256 ^ size = v % 256 ^ size := by
  have belowX : x % 256 ^ s₀ < 2 ^ 64 := lt_of_le_of_lt (Nat.mod_le _ _) smallX
  have belowY : y % 256 ^ s₁ < 2 ^ 64 := lt_of_le_of_lt (Nat.mod_le _ _) smallY
  cases op with
  | intAdd =>
    cases worked
    exact ⟨_, rfl, by
      rw [mod_word most, mod_word most]
      exact Nat.ModEq.add first second⟩
  | intSub =>
    cases worked
    refine ⟨_, IrBuilder.compute_intSub, ?_⟩
    rw [mod_word most, mod_word most, Nat.add_sub_assoc (by omega), Nat.add_sub_assoc (by omega)]
    exact Nat.ModEq.add first (modEq_sub (by omega) (by omega) second)
  | intMul =>
    cases worked
    exact ⟨_, rfl, by
      rw [mod_word most, mod_word most]
      exact Nat.ModEq.mul first second⟩
  | intAnd =>
    cases worked
    exact ⟨_, rfl, by
      rw [and_mod, and_mod]
      exact congrArg₂ _ first second⟩
  | intOr =>
    cases worked
    exact ⟨_, rfl, by
      rw [or_mod, or_mod]
      exact congrArg₂ _ first second⟩
  | intXor =>
    cases worked
    exact ⟨_, rfl, by
      rw [xor_mod, xor_mod]
      exact congrArg₂ _ first second⟩
  | intNot =>
    cases worked
    exact ⟨_, IrBuilder.compute_intNot, modEq_sub (by omega) (by omega) first⟩
  | intNegate =>
    cases worked
    exact ⟨_, IrBuilder.compute_intNegate, by
      rw [mod_word most, mod_word most]
      exact modEq_sub (by omega) (by omega) first⟩
  | intZExt =>
    cases worked
    exact ⟨_, rfl, first⟩
  | intSExt =>
    cases worked
    exact ⟨_, rfl, by rw [signExtend_seen smallX first]; rfl⟩
  | intDiv | intRem =>
    simp only [work] at worked
    split at worked
    · cases worked
    · rename_i nonzero
      rw [readsFirst, if_neg nonzero] at first
      cases worked
      rw [first.eq smallX, second.eq smallY]
      exact ⟨_, if_neg nonzero, rfl⟩
  | intSDiv | intSRem =>
    simp only [work] at worked
    split at worked
    · cases worked
    · rename_i nonzero
      split at worked
      · cases worked
      · rename_i divisor
        rw [readsFirst, if_neg nonzero] at first
        rw [signExtend_seen smallY second] at divisor
        have read : y % 256 ^ s₁ ≠ 0 := by
          intro zero
          rw [zero, sext_zero] at divisor
          exact divisor rfl
        cases worked
        rw [signExtend_seen smallX first, signExtend_seen smallY second]
        exact ⟨_, if_neg read, rfl⟩
  | intLeft =>
    simp only [work, shiftLeft] at worked
    have amount := second.eq smallY
    rw [amount]
    by_cases none : s₀ = 0
    · subst none
      have low : x ≡ 0 [MOD 256 ^ size] := by
        have := first.modEq
        rw [pow_zero, Nat.mod_one] at this
        exact this.symm
      refine ⟨0, by simp [compute], ?_⟩
      split at worked
      · cases worked
        rfl
      · split at worked
        · cases worked
        · cases worked
          rw [shiftLeft_mod most low, Nat.zero_shiftLeft]
          simp
    · rw [Nat.max_eq_left (by omega)] at worked
      split at worked
      · rename_i past
        cases worked
        exact ⟨0, if_pos past, rfl⟩
      · rename_i inside
        split at worked
        · cases worked
        · rename_i short
          cases worked
          refine ⟨_, if_neg inside, ?_⟩
          simp only [List.getElem?_cons_zero, List.getElem?_cons_succ, Option.map_some, Option.getD_some]
          rw [shl64, Nat.mod_eq_of_lt (by omega : y < 64)]
          exact shiftLeft_mod most first _
  | intRight =>
    simp only [work, shiftRight] at worked
    rw [second.eq smallY, first.eq smallX]
    by_cases none : s₀ = 0
    · subst none
      have zero : x = 0 := by
        have := first.eq smallX
        rw [pow_zero, Nat.mod_one] at this
        exact this.symm
      subst zero
      refine ⟨0, by simp [compute], ?_⟩
      split at worked
      · cases worked
        rfl
      · split at worked
        · cases worked
        · cases worked
          rw [Nat.zero_shiftRight]
    · rw [Nat.max_eq_left (by omega)] at worked
      split at worked
      · rename_i past
        cases worked
        exact ⟨0, if_pos past, rfl⟩
      · rename_i inside
        split at worked
        · cases worked
        · rename_i short
          cases worked
          refine ⟨_, if_neg inside, ?_⟩
          simp only [List.getElem?_cons_zero, List.getElem?_cons_succ, Option.map_some, Option.getD_some]
          rw [shr64, Nat.mod_eq_of_lt (by omega : y < 64)]
  | intSRight =>
    simp only [work] at worked
    rw [second.eq smallY]
    rw [signExtend_seen smallX first] at worked
    by_cases none : s₀ = 0
    · subst none
      refine ⟨0, by simp [compute, sext], ?_⟩
      rw [show sext (x % 256 ^ 0) 0 = 0 from rfl] at worked
      split at worked
      · cases worked
        rfl
      · split at worked
        · cases worked
        · cases worked
          rw [Int.zero_shiftRight]
          rfl
    · rw [Nat.max_eq_left (by omega)] at worked
      split at worked
      · rename_i past
        cases worked
        refine ⟨_, ?_, rfl⟩
        simp only [compute, List.getElem?_cons_zero, List.getElem?_cons_succ, Option.map_some, Option.getD_some, if_pos past]
        split <;> rfl
      · rename_i inside
        split at worked
        · cases worked
        · rename_i short
          cases worked
          refine ⟨_, if_neg inside, ?_⟩
          simp only [List.getElem?_cons_zero, List.getElem?_cons_succ, Option.map_some, Option.getD_some]
          rw [Nat.mod_eq_of_lt (by omega : y < 64)]
  | intSLess | intSLessEqual =>
    cases worked
    exact ⟨_, rfl, by rw [signExtend_seen smallX first, signExtend_seen smallY second]; rfl⟩
  | intEqual | intNotEqual | intLess | intLessEqual | boolAnd | boolOr | boolXor =>
    cases worked
    rw [first.eq smallX, second.eq smallY]
    exact ⟨_, rfl, rfl⟩
  | popCount | boolNot =>
    cases worked
    rw [first.eq smallX]
    exact ⟨_, rfl, rfl⟩
  | subPiece =>
    have amount : y < 8 := by
      rw [Stops] at goes
      omega
    simp only [work, shiftRight] at worked
    rw [if_neg (by omega), if_neg (by omega)] at worked
    cases worked
    rw [second.eq smallY]
    refine ⟨_, rfl, ?_⟩
    simp only [List.getElem?_cons_zero, List.getElem?_cons_succ, Option.map_some, Option.getD_some]
    rw [shr64, Nat.mod_eq_of_lt (by omega : y * 8 < 2 ^ 64), Nat.mod_eq_of_lt (by omega : y * 8 < 64)]
    exact shiftRight_mod first
  | _ => cases worked

end Working

/-- What is stored for the second operand and its size; a missing one is zero. -/
def second (rest : List Constant) : ℕ × ℕ :=
  (rest.head?.map fun i => (i.value.toNat, i.size.toNat)).getD (0, 1)

/-- The folder would divide by zero or shift by more than a word. -/
def StopsOn (op : Operation) (inputs : List Constant) : Prop :=
  match op, inputs with
  | .basic op, first :: rest => Stops op (second rest).1 first.size.toNat (second rest).2
  | _, _ => False

/-- The folder does not stop and looks at no bits above the size of an operand. -/
def Safe (op : Operation) (inputs : List Constant) (size : ℕ) : Prop :=
  match op, inputs with
  | .basic op, first :: rest => ¬Stops op (second rest).1 first.size.toNat (second rest).2 ∧
      Seen first.value.toNat first.size.toNat (readsFirst op first.size.toNat (second rest).1 size) ∧
      Seen (second rest).1 (second rest).2 (readsSecond op (second rest).2 size)
  | _, _ => True

theorem second_small (rest : List Constant) : (second rest).1 < 2 ^ 64 := by
  cases rest with
  | nil => decide
  | cons i _ => exact i.value.toNat_lt

theorem signExtend_zero (s : ℕ) : signExtend 0 (max s 1) = 0 := by
  rw [signExtend_eq_sext (le_max_right s 1), sext_zero]

theorem evaluate_basic (op : Op) (first : Constant) (rest : List Constant) {size : ℕ} (least : 1 ≤ size) :
    evaluate (.basic op) (first :: rest) size =
      (work op first.value.toNat (second rest).1 (signExtend first.value.toNat (max first.size.toNat 1))
        (signExtend (second rest).1 (max (second rest).2 1)) (max first.size.toNat 1 * 8)).map fun out =>
          out.map fun v => v &&& mask size := by
  rw [evaluate, if_neg (by omega)]
  cases rest with
  | nil =>
    simp only [List.getElem?_cons_zero, List.getElem?_cons_succ, List.getElem?_nil, Option.map_some, Option.map_none,
      Option.getD_some, Option.getD_none, second, List.head?_nil]
    rw [signExtend_zero, signExtend_zero]
  | cons i _ => rfl

theorem compute_two {op : Op} {x y v : ℕ} {xs ys : ℤ} {bits : ℕ} (worked : work op x y xs ys bits = some (some v)) (p : ℕ × ℕ)
    (rest : List (ℕ × ℕ)) : compute op (p :: rest) = compute op [p, rest.head?.getD (0, 1)] := by
  have two : compute op [p] = compute op [p, (0, 1)] ∧ ∀ q rest, compute op (p :: q :: rest) = compute op [p, q] := by
    cases op with
    | copy | load | store | branch | cbranch | branchInd | call | callInd | ret | intMulHigh | intSMulHigh | intDiv128
    | intSDiv128 | intRem128 | intSRem128 | intCarry | intSCarry | intSBorrow | lzCount | undefine | piece
    | unimplemented => cases worked
    | _ => exact ⟨rfl, fun _ _ => rfl⟩
  cases rest with
  | nil => exact two.1
  | cons q rest => exact two.2 q rest

theorem write_mask (m : Machine) (out : Varnode) {v w : ℕ} (same : v &&& out.mask = w &&& out.mask) :
    m.write out v = m.write out w := by
  rw [Machine.write, Machine.write, same]

theorem read_constant (m : Machine) (c : Constant) : m.read c.varnode = c.value.toNat % 256 ^ c.size.toNat := by
  have small := c.value.toNat_lt
  show c.value.toNat &&& c.varnode.mask = _
  by_cases short : c.size.toNat ≤ 8
  · exact IrModel.and_mask _ short
  · have : (256 : ℕ) ^ 8 ≤ 256 ^ c.size.toNat := Nat.pow_le_pow_right (by decide) (by omega)
    rw [Nat.mod_eq_of_lt (by omega), Varnode.mask, show c.varnode.size = c.size.toNat from rfl, if_neg (by omega),
      if_neg (by omega), Nat.and_two_pow_sub_one_eq_mod, Nat.mod_eq_of_lt small]

theorem evaluate_none_iff (op : Operation) (inputs : List Constant) {size : ℕ} (least : 1 ≤ size) :
    evaluate op inputs size = none ↔ StopsOn op inputs := by
  cases inputs with
  | nil => cases op <;> simp [evaluate, StopsOn]
  | cons first rest =>
    cases op with
    | float _ =>
      rw [evaluate, if_neg (by omega)]
      simp [StopsOn]
    | basic op =>
      rw [evaluate_basic op first rest least, Option.map_eq_none_iff, work_none_iff (second_small rest)]
      rfl

theorem meets_of_safe {op : Operation} {inputs : List Constant} {size : ℕ} (least : 1 ≤ size) (most : size ≤ 8)
    (safe : Safe op inputs size) : Meets op inputs size := by
  have goes : ¬StopsOn op inputs := by
    cases op with
    | float _ => exact id
    | basic op =>
      cases inputs with
      | nil => exact id
      | cons first rest => exact safe.1
  refine ⟨fun stops => goes ((evaluate_none_iff op inputs least).mp stops), ?_⟩
  intro v evaluated
  cases inputs with
  | nil =>
    rw [evaluate, if_neg (by omega)] at evaluated
    cases evaluated
  | cons first rest =>
    cases op with
    | float _ =>
      rw [evaluate, if_neg (by omega)] at evaluated
      cases evaluated
    | basic op =>
      rw [evaluate_basic op first rest least] at evaluated
      obtain ⟨out, worked, cut⟩ := Option.map_eq_some_iff.mp evaluated
      obtain ⟨w, rfl, rfl⟩ := Option.map_eq_some_iff.mp cut
      obtain ⟨goes, seen, seen'⟩ := safe
      obtain ⟨r, computed, same⟩ := work_agrees least most first.value.toNat_lt (second_small rest) goes seen seen' worked
      have low : w &&& mask size = w % 256 ^ size := and_mask least most w
      refine ⟨by rw [low]; exact Nat.mod_lt _ (Nat.pow_pos (by decide)), op, rfl, ?_⟩
      intro m out addr sized
      have read : (((first :: rest).map Constant.varnode).map fun v => (m.read v, v.size)) =
          (first.value.toNat % 256 ^ first.size.toNat, first.size.toNat) ::
            rest.map fun c => (c.value.toNat % 256 ^ c.size.toNat, c.size.toNat) := by
        simp only [List.map_cons, List.map_map, read_constant]
        congr 1
        refine List.map_congr_left ?_
        intro c _
        rw [Function.comp_apply, read_constant]
        rfl
      have next : (rest.map fun c : Constant => (c.value.toNat % 256 ^ c.size.toNat, c.size.toNat)).head?.getD (0, 1) =
          ((second rest).1 % 256 ^ (second rest).2, (second rest).2) := by
        cases rest with
        | nil => rfl
        | cons _ _ => rfl
      rw [IrBuilder.step_compute _ rfl (r := r) (by rw [read, compute_two worked, next]; exact computed)]
      have short : out.size ≤ 8 := by omega
      rw [write_mask m out (v := r) (w := w &&& mask size)]
      rw [IrModel.and_mask _ short, IrModel.and_mask _ short, sized, low, Nat.mod_mod, same]

/-- The number minus one, stored whole and stored in four bytes. -/
def minusOnes : List Constant := [⟨0xffffffffffffffff, 4⟩, ⟨0xffffffff, 4⟩]

end E5r.ConstantFold
