import Mathlib.Data.List.DropRight
import Mathlib.Data.Nat.Size
import Mathlib.Data.UInt
import Mathlib.Tactic.Ring

/-!
Unsigned big integers as lists of 64-bit limbs, lowest first, with no zero limb
on top. Every operation is connected to the number it stands for (`Big.toNat`):
shifting, comparing, adding, subtracting, multiplying, and the division whose
quotient is small. The multiplication writes into a fixed row of limbs and fails
when it would leave it, and the division refuses a quotient of 128 bits or more;
`mul_total` and `divremSmall_total` say when neither happens.
-/
namespace E5r.Limbs

/-- The number that a list of limbs stands for. -/
def value : List UInt64 → ℕ
  | [] => 0
  | x :: rest => x.toNat + 2 ^ 64 * value rest

@[simp] theorem value_nil : value [] = 0 := rfl

@[simp] theorem value_cons (x : UInt64) (rest : List UInt64) :
    value (x :: rest) = x.toNat + 2 ^ 64 * value rest := rfl

/-- A big integer: its limbs, the highest of them not zero. -/
structure Big where
  limbs : List UInt64
  normal : limbs.getLast? ≠ some 0
deriving DecidableEq

variable (xs v : List UInt64)

private theorem rdropWhile_normal : (v.rdropWhile (· == 0)).getLast? ≠ some 0 := by
  induction v using List.reverseRecOn with
  | nil => simp
  | append_singleton v x ih =>
    rw [List.rdropWhile_concat]
    by_cases zero : x = 0
    · simpa [zero] using ih
    · simp [zero]

/-- Drop the zero limbs on top. -/
def norm (v : List UInt64) : Big := ⟨v.rdropWhile (· == 0), rdropWhile_normal v⟩

/-- Zero bits above the highest set bit of a limb. -/
def leadingZeros (x : UInt64) : ℕ := if x = 0 then 64 else 63 - x.toNat.log2

def shlLimbs (b : ℕ) (carry : UInt64) : List UInt64 → List UInt64
  | [] => if carry = 0 then [] else [carry]
  | x :: rest => ((x <<< UInt64.ofNat b) ||| carry) :: shlLimbs b (x >>> UInt64.ofNat (64 - b)) rest

def compareTop : List UInt64 → List UInt64 → Ordering
  | x :: xs, y :: ys => (compare x.toNat y.toNat).then (compareTop xs ys)
  | _, _ => .eq

/-- Add `n` limbs of two numbers and a carry. -/
def addLimbs : ℕ → ℕ → List UInt64 → List UInt64 → List UInt64
  | 0, c, _, _ => if c = 0 then [] else [UInt64.ofNat c]
  | n + 1, c, xs, ys =>
    let s := (xs.headD 0).toNat + (ys.headD 0).toNat + c
    UInt64.ofNat s :: addLimbs n (s / 2 ^ 64) xs.tail ys.tail

def subLimbs : ℤ → List UInt64 → List UInt64 → List UInt64
  | _, [], _ => []
  | borrow, x :: xs, ys =>
    let d : ℤ := x.toNat - (ys.headD 0).toNat - borrow
    if d < 0 then UInt64.ofNat (d + 2 ^ 64).toNat :: subLimbs 1 xs ys.tail
    else UInt64.ofNat d.toNat :: subLimbs 0 xs ys.tail

/-- Add a carry into a row of limbs. It fails when the row ends before the carry
    does. -/
def addCarry (c : ℕ) : List UInt64 → Option (List UInt64)
  | [] => if c = 0 then some [] else none
  | x :: v =>
    if c = 0 then some (x :: v)
    else (addCarry ((x.toNat + c) / 2 ^ 64) v).map (UInt64.ofNat (x.toNat + c) :: ·)

/-- Add `a` times a number into a row of limbs. -/
def mulRow (a : UInt64) (c : ℕ) : List UInt64 → List UInt64 → Option (List UInt64)
  | v, [] => addCarry c v
  | [], _ :: _ => none
  | x :: v, b :: bs =>
    let t := x.toNat + a.toNat * b.toNat + c
    (mulRow a (t / 2 ^ 64) v bs).map (UInt64.ofNat t :: ·)

/-- Add the product of two numbers into a row of limbs, one limb of the first
    after another. -/
def mulLimbs (ys : List UInt64) : List UInt64 → List UInt64 → Option (List UInt64)
  | [], v => some v
  | a :: xs, v => do
    match ← mulRow a 0 v ys with
    | [] => none
    | x :: v => (mulLimbs ys xs v).map (x :: ·)

namespace Big

def toNat (x : Big) : ℕ := value x.limbs

/-- The number below `2 ^ 128` as limbs. -/
def ofNat (x : ℕ) : Big := norm [UInt64.ofNat x, UInt64.ofNat (x >>> 64)]

def isZero (x : Big) : Bool := x.limbs.isEmpty

def bits (x : Big) : ℕ :=
  match x.limbs.getLast? with
  | none => 0
  | some h => 64 * (x.limbs.length - 1) + (64 - leadingZeros h)

def shl (x : Big) (n : ℕ) : Big :=
  if x.isZero then x
  else
    norm (List.replicate (n / 64) 0 ++ if n % 64 = 0 then x.limbs else shlLimbs (n % 64) 0 x.limbs)

def cmp (x y : Big) : Ordering :=
  (compare x.limbs.length y.limbs.length).then (compareTop x.limbs.reverse y.limbs.reverse)

def add (x y : Big) : Big := norm (addLimbs (max x.limbs.length y.limbs.length) 0 x.limbs y.limbs)

/-- The difference, for a subtrahend that is not larger. -/
def sub (x y : Big) : Big := norm (subLimbs 0 x.limbs y.limbs)

def mul (x y : Big) : Option Big :=
  (mulLimbs y.limbs x.limbs (List.replicate (x.limbs.length + y.limbs.length) 0)).map norm

/-- Subtract the shifted divisor where it fits, from bit `n - 1` down. -/
def divLoop (d : Big) : ℕ → ℕ → Big → ℕ × Big
  | 0, q, r => (q, r)
  | i + 1, q, r =>
    if r.cmp (d.shl i) ≠ .lt then divLoop d i (q ||| 1 <<< i) (r.sub (d.shl i)) else divLoop d i q r

/-- Quotient and remainder. It fails on a quotient of 128 bits or more. -/
def divremSmall (x d : Big) : Option (ℕ × Big) :=
  if x.cmp d = .lt then some (0, x)
  else if x.bits - d.bits < 128 then some (divLoop d (x.bits - d.bits + 1) 0 x)
  else none

end Big

variable (ys : List UInt64)

theorem value_append : value (xs ++ ys) = value xs + 2 ^ (64 * xs.length) * value ys := by
  induction xs with
  | nil => simp
  | cons x rest ih =>
    simp only [List.cons_append, value_nil, value_cons, ih, List.length_cons]
    ring

theorem value_replicate_zero (n : ℕ) : value (List.replicate n 0) = 0 := by
  induction n with
  | zero => rfl
  | succ n ih => simp [List.replicate_succ, ih]

theorem value_lt : value xs < 2 ^ (64 * xs.length) := by
  induction xs with
  | nil => simp
  | cons x rest ih =>
    have limb := x.toNat_lt
    have room : value rest + 1 ≤ 2 ^ (64 * rest.length) := ih
    have scaled := Nat.mul_le_mul_left (2 ^ 64) room
    have power : 2 ^ (64 * (x :: rest).length) = 2 ^ 64 * 2 ^ (64 * rest.length) := by
      rw [← pow_add]
      congr 1
      simp only [List.length_cons]
      ring
    rw [power, value_cons]
    omega

private theorem value_rdropWhile : value (v.rdropWhile (· == 0)) = value v := by
  induction v using List.reverseRecOn with
  | nil => rfl
  | append_singleton v x ih =>
    rw [List.rdropWhile_concat]
    by_cases zero : x = 0
    · subst zero
      simp [ih, value_append]
    · simp [zero]

@[simp] theorem toNat_norm : (norm v).toNat = value v := value_rdropWhile v

theorem toNat_ofNat {x : ℕ} (small : x < 2 ^ 128) : (Big.ofNat x).toNat = x := by
  rw [Big.ofNat, toNat_norm]
  simp only [value_nil, value_cons, UInt64.toNat_ofNat', Nat.shiftRight_eq_div_pow]
  omega

theorem isZero_iff (x : Big) : x.isZero = true ↔ x.toNat = 0 := by
  obtain ⟨limbs, normal⟩ := x
  simp only [Big.isZero, Big.toNat, List.isEmpty_iff]
  constructor
  · rintro rfl
    rfl
  · intro zero
    cases limbs using List.reverseRecOn with
    | nil => rfl
    | append_singleton v x =>
      -- A top limb that is not zero would make the value positive.
      have top : x ≠ 0 := by simpa using normal
      have positive : 0 < x.toNat := Nat.pos_of_ne_zero (fun h => top (UInt64.toNat_inj.mp h))
      rw [value_append] at zero
      simp only [value_nil, value_cons, Nat.mul_zero, Nat.add_zero] at zero
      have := Nat.mul_pos (Nat.pow_pos (n := 64 * v.length) (Nat.zero_lt_two)) positive
      omega

private theorem leadingZeros_le (h : UInt64) (nonzero : h ≠ 0) :
    2 ^ (63 - leadingZeros h) ≤ h.toNat ∧ h.toNat < 2 ^ (64 - leadingZeros h) ∧ leadingZeros h ≤ 63 := by
  have positive : h.toNat ≠ 0 := fun zero => nonzero (UInt64.toNat_inj.mp zero)
  have low := Nat.log2_self_le positive
  have high := Nat.lt_log2_self (n := h.toNat)
  have small : h.toNat.log2 < 64 := (Nat.log2_lt positive).mpr h.toNat_lt
  rw [leadingZeros, if_neg nonzero]
  have first : 63 - (63 - h.toNat.log2) = h.toNat.log2 := by omega
  have second : 64 - (63 - h.toNat.log2) = h.toNat.log2 + 1 := by omega
  rw [first, second]
  exact ⟨low, high, by omega⟩

theorem bits_spec (x : Big) (nonzero : x.toNat ≠ 0) :
    1 ≤ x.bits ∧ 2 ^ (x.bits - 1) ≤ x.toNat ∧ x.toNat < 2 ^ x.bits := by
  obtain ⟨limbs, normal⟩ := x
  cases limbs using List.reverseRecOn with
  | nil => exact absurd rfl nonzero
  | append_singleton v h =>
    have top : h ≠ 0 := by simpa using normal
    obtain ⟨low, high, few⟩ := leadingZeros_le h top
    have tail := value_lt v
    have total : (Big.mk (v ++ [h]) normal).toNat = value v + 2 ^ (64 * v.length) * h.toNat := by
      simp [Big.toNat, value_append]
    have count : (Big.mk (v ++ [h]) normal).bits = 64 * v.length + (64 - leadingZeros h) := by
      simp [Big.bits]
    rw [total, count]
    refine ⟨by omega, ?_, ?_⟩
    · calc 2 ^ (64 * v.length + (64 - leadingZeros h) - 1)
          = 2 ^ (64 * v.length) * 2 ^ (63 - leadingZeros h) := by
            rw [← pow_add]
            congr 1
            omega
        _ ≤ 2 ^ (64 * v.length) * h.toNat := Nat.mul_le_mul_left _ low
        _ ≤ value v + 2 ^ (64 * v.length) * h.toNat := Nat.le_add_left ..
    · calc value v + 2 ^ (64 * v.length) * h.toNat
          < 2 ^ (64 * v.length) * (h.toNat + 1) := by
            rw [Nat.mul_add, Nat.mul_one]
            omega
        _ ≤ 2 ^ (64 * v.length) * 2 ^ (64 - leadingZeros h) := Nat.mul_le_mul_left _ high
        _ = 2 ^ (64 * v.length + (64 - leadingZeros h)) := (pow_add 2 _ _).symm

private theorem value_shlLimbs {b : ℕ} (inside : 0 < b ∧ b < 64) (carry : UInt64) (small : carry.toNat < 2 ^ b)
    (xs : List UInt64) : value (shlLimbs b carry xs) = 2 ^ b * value xs + carry.toNat := by
  induction xs generalizing carry with
  | nil =>
    by_cases zero : carry = 0
    · simp [shlLimbs, zero]
    · simp [shlLimbs, zero]
  | cons x rest ih =>
    have amount : (UInt64.ofNat b).toNat = b := by
      rw [UInt64.toNat_ofNat']
      omega
    have amountBack : (UInt64.ofNat (64 - b)).toNat = 64 - b := by
      rw [UInt64.toNat_ofNat']
      omega
    have limb := x.toNat_lt
    have power : 2 ^ 64 = 2 ^ b * 2 ^ (64 - b) := by
      rw [← pow_add]
      congr 1
      omega
    -- The limb splits into the part that leaves it and the part that stays.
    have high : (x >>> UInt64.ofNat (64 - b)).toNat = x.toNat / 2 ^ (64 - b) := by
      rw [UInt64.toNat_shiftRight, amountBack, Nat.mod_eq_of_lt (by omega), Nat.shiftRight_eq_div_pow]
    have low : ((x <<< UInt64.ofNat b) ||| carry).toNat = 2 ^ b * (x.toNat % 2 ^ (64 - b)) + carry.toNat := by
      rw [UInt64.toNat_or, UInt64.toNat_shiftLeft, amount, Nat.mod_eq_of_lt (a := b) (by omega),
        Nat.shiftLeft_eq, Nat.mul_comm, power, Nat.mul_mod_mul_left, Nat.two_pow_add_eq_or_of_lt small]
    have fits : (x >>> UInt64.ofNat (64 - b)).toNat < 2 ^ b := by
      rw [high]
      exact Nat.div_lt_of_lt_mul (by rwa [Nat.mul_comm, ← power])
    rw [shlLimbs, value_cons, value_cons, ih _ fits, low, high]
    have whole := Nat.div_add_mod x.toNat (2 ^ (64 - b))
    calc 2 ^ b * (x.toNat % 2 ^ (64 - b)) + carry.toNat
          + 2 ^ 64 * (2 ^ b * value rest + x.toNat / 2 ^ (64 - b))
        = 2 ^ b * (2 ^ (64 - b) * (x.toNat / 2 ^ (64 - b)) + x.toNat % 2 ^ (64 - b))
          + 2 ^ b * (2 ^ 64 * value rest) + carry.toNat := by
          rw [power]
          ring
      _ = 2 ^ b * (x.toNat + 2 ^ 64 * value rest) + carry.toNat := by
          rw [whole]
          ring

theorem toNat_shl (x : Big) (n : ℕ) : (x.shl n).toNat = x.toNat * 2 ^ n := by
  rw [Big.shl]
  by_cases zero : x.isZero = true
  · rw [if_pos zero, (isZero_iff x).mp zero, Nat.zero_mul]
  · rw [if_neg zero, toNat_norm, value_append, value_replicate_zero, List.length_replicate, Nat.zero_add]
    have split : 2 ^ n = 2 ^ (64 * (n / 64)) * 2 ^ (n % 64) := by
      rw [← pow_add]
      congr 1
      omega
    by_cases whole : n % 64 = 0
    · rw [if_pos whole, split, whole, Big.toNat]
      ring
    · rw [if_neg whole, value_shlLimbs ⟨Nat.pos_of_ne_zero whole, Nat.mod_lt _ (by omega)⟩ 0 (by simp), split,
        Big.toNat]
      simp only [UInt64.toNat_zero]
      ring

private theorem compareTop_snoc (x y : UInt64) (same : xs.length = ys.length) :
    compareTop (xs ++ [x]) (ys ++ [y]) = (compareTop xs ys).then (compare x.toNat y.toNat) := by
  induction xs generalizing ys with
  | nil =>
    cases ys with
    | nil => simp [compareTop]
    | cons => simp at same
  | cons a rest ih =>
    cases ys with
    | nil => simp at same
    | cons b later =>
      simp only [List.cons_append, compareTop, ih later (by simpa using same), Ordering.then_assoc]

private theorem compareTop_value (same : xs.length = ys.length) :
    compareTop xs.reverse ys.reverse = compare (value xs) (value ys) := by
  induction xs generalizing ys with
  | nil =>
    cases ys with
    | nil => simp [compareTop]
    | cons => simp at same
  | cons x rest ih =>
    cases ys with
    | nil => simp at same
    | cons y later =>
      have tails : rest.length = later.length := by simpa using same
      have hx := x.toNat_lt
      have hy := y.toNat_lt
      rw [List.reverse_cons, List.reverse_cons, compareTop_snoc _ _ _ _ (by simpa using tails), ih later tails,
        value, value]
      rcases lt_trichotomy (value rest) (value later) with less | equal | more
      · rw [compare_lt_iff_lt.mpr less, Ordering.lt_then, eq_comm]
        exact compare_lt_iff_lt.mpr (by omega)
      · rw [equal, compare_eq_iff_eq.mpr rfl, Ordering.eq_then]
        rcases lt_trichotomy x.toNat y.toNat with less | equal' | more
        · rw [compare_lt_iff_lt.mpr less, eq_comm]
          exact compare_lt_iff_lt.mpr (by omega)
        · rw [equal']
          simp
        · rw [compare_gt_iff_gt.mpr more, eq_comm]
          exact compare_gt_iff_gt.mpr (by omega)
      · rw [compare_gt_iff_gt.mpr more, Ordering.gt_then, eq_comm]
        exact compare_gt_iff_gt.mpr (by omega)

private theorem value_lt_of_length {x y : Big} (shorter : x.limbs.length < y.limbs.length) :
    x.toNat < y.toNat := by
  obtain ⟨xs, normalX⟩ := x
  obtain ⟨ys, normal⟩ := y
  cases ys using List.reverseRecOn with
  | nil => simp at shorter
  | append_singleton v h =>
    have top : h ≠ 0 := by simpa using normal
    have positive : 0 < h.toNat := Nat.pos_of_ne_zero (fun zero => top (UInt64.toNat_inj.mp zero))
    have shorter : xs.length < v.length + 1 := by simpa using shorter
    calc value xs < 2 ^ (64 * xs.length) := value_lt xs
      _ ≤ 2 ^ (64 * v.length) := Nat.pow_le_pow_right (by omega) (by omega)
      _ ≤ 2 ^ (64 * v.length) * h.toNat := Nat.le_mul_of_pos_right _ positive
      _ ≤ value (v ++ [h]) := by
        simp only [value_append, value_nil, value_cons, Nat.mul_zero, Nat.add_zero]
        exact Nat.le_add_left ..

theorem cmp_eq (x y : Big) : x.cmp y = compare x.toNat y.toNat := by
  rw [Big.cmp]
  rcases lt_trichotomy x.limbs.length y.limbs.length with less | same | more
  · rw [compare_lt_iff_lt.mpr less, Ordering.lt_then, eq_comm]
    exact compare_lt_iff_lt.mpr (value_lt_of_length less)
  · rw [compare_eq_iff_eq.mpr same, Ordering.eq_then]
    exact compareTop_value _ _ same
  · rw [compare_gt_iff_gt.mpr more, Ordering.gt_then, eq_comm]
    exact compare_gt_iff_gt.mpr (value_lt_of_length more)

private theorem value_headD_tail : value xs = (xs.headD 0).toNat + 2 ^ 64 * value xs.tail := by
  cases xs with
  | nil => simp
  | cons x rest => simp

private theorem value_addLimbs (n c : ℕ) (xs ys : List UInt64) (small : c < 2 ^ 64) (left : xs.length ≤ n)
    (right : ys.length ≤ n) : value (addLimbs n c xs ys) = value xs + value ys + c := by
  induction n generalizing c xs ys with
  | zero =>
    rw [List.length_eq_zero_iff.mp (Nat.le_zero.mp left), List.length_eq_zero_iff.mp (Nat.le_zero.mp right)]
    by_cases zero : c = 0
    · simp [addLimbs, zero]
    · simp only [addLimbs, zero, if_false, value_nil, value_cons, UInt64.toNat_ofNat']
      omega
  | succ n ih =>
    have hx := (xs.headD 0).toNat_lt
    have hy := (ys.headD 0).toNat_lt
    rw [addLimbs, value, UInt64.toNat_ofNat', ih _ _ _ (by omega) (by simp; omega) (by simp; omega),
      value_headD_tail xs, value_headD_tail ys]
    omega

theorem toNat_add (x y : Big) : (x.add y).toNat = x.toNat + y.toNat := by
  rw [Big.add, toNat_norm, value_addLimbs _ _ _ _ (by omega) (le_max_left ..) (le_max_right ..)]
  rfl

private theorem value_subLimbs (borrow : ℤ) (xs ys : List UInt64) (bit : borrow = 0 ∨ borrow = 1)
    (shorter : ys.length ≤ xs.length) (larger : (value ys : ℤ) + borrow ≤ value xs) :
    (value (subLimbs borrow xs ys) : ℤ) = value xs - value ys - borrow := by
  induction xs generalizing borrow ys with
  | nil =>
    rw [List.length_eq_zero_iff.mp (Nat.le_zero.mp shorter)] at larger ⊢
    simp only [subLimbs, value_nil, value_cons] at larger ⊢
    omega
  | cons x rest ih =>
    have hx := x.toNat_lt
    have hy := (ys.headD 0).toNat_lt
    rw [value_headD_tail ys, value_cons] at larger ⊢
    rw [subLimbs]
    have tail : ys.tail.length ≤ rest.length := by
      simp only [List.length_tail, List.length_cons] at shorter ⊢
      omega
    by_cases negative : (x.toNat : ℤ) - (ys.headD 0).toNat - borrow < 0
    · simp only [negative, if_true, value_nil, value_cons, UInt64.toNat_ofNat']
      have next := ih 1 ys.tail (.inr rfl) tail (by push_cast at larger ⊢; omega)
      push_cast
      rw [next]
      omega
    · simp only [negative, if_false, value_nil, value_cons, UInt64.toNat_ofNat']
      have next := ih 0 ys.tail (.inl rfl) tail (by push_cast at larger ⊢; omega)
      push_cast
      rw [next]
      omega

theorem toNat_sub {x y : Big} (larger : y.toNat ≤ x.toNat) : (x.sub y).toNat = x.toNat - y.toNat := by
  have shorter : y.limbs.length ≤ x.limbs.length := by
    by_contra longer
    exact absurd (value_lt_of_length (not_le.mp longer)) (not_lt.mpr larger)
  have exact := value_subLimbs 0 x.limbs y.limbs (.inl rfl) shorter (by simpa [Big.toNat] using larger)
  rw [Big.sub, toNat_norm, Big.toNat, Big.toNat]
  omega

private theorem addCarry_total (c : ℕ) (v : List UInt64) (fits : value v + c < 2 ^ (64 * v.length)) :
    ∃ w, addCarry c v = some w ∧ value w = value v + c ∧ w.length = v.length := by
  induction v generalizing c with
  | nil =>
    obtain rfl : c = 0 := by simpa using fits
    exact ⟨[], rfl, rfl, rfl⟩
  | cons x rest ih =>
    by_cases zero : c = 0
    · exact ⟨x :: rest, by simp [addCarry, zero], by simp [zero], rfl⟩
    · have power : 2 ^ (64 * (x :: rest).length) = 2 ^ 64 * 2 ^ (64 * rest.length) := by
        rw [← pow_add]
        congr 1
        simp only [List.length_cons]
        ring
      rw [power, value_cons] at fits
      have room : value rest + (x.toNat + c) / 2 ^ 64 < 2 ^ (64 * rest.length) := by omega
      obtain ⟨w, executed, total, length⟩ := ih _ room
      refine ⟨_, by rw [addCarry, if_neg zero, executed]; rfl, ?_, by simp [length]⟩
      rw [value_cons, total, UInt64.toNat_ofNat', value_cons]
      omega

private theorem mulRow_total (a : UInt64) (c : ℕ) (v ys : List UInt64) (shorter : ys.length ≤ v.length)
    (fits : value v + a.toNat * value ys + c < 2 ^ (64 * v.length)) :
    ∃ w, mulRow a c v ys = some w ∧ value w = value v + a.toNat * value ys + c ∧ w.length = v.length := by
  induction ys generalizing c v with
  | nil =>
    obtain ⟨w, executed, total, length⟩ := addCarry_total c v (by simpa using fits)
    exact ⟨w, by rw [mulRow, executed], by simpa [value] using total, length⟩
  | cons b rest ih =>
    cases v with
    | nil => simp at shorter
    | cons x v =>
      have power : 2 ^ (64 * (x :: v).length) = 2 ^ 64 * 2 ^ (64 * v.length) := by
        rw [← pow_add]
        congr 1
        simp only [List.length_cons]
        ring
      rw [power, value_cons, value_cons, Nat.mul_add] at fits
      have swap : a.toNat * (2 ^ 64 * value rest) = 2 ^ 64 * (a.toNat * value rest) := by ring
      rw [swap] at fits
      have room : value v + a.toNat * value rest + (x.toNat + a.toNat * b.toNat + c) / 2 ^ 64
          < 2 ^ (64 * v.length) := by
        generalize a.toNat * b.toNat = p at fits ⊢
        generalize a.toNat * value rest = q at fits ⊢
        omega
      obtain ⟨w, executed, total, length⟩ := ih _ v (by simpa using shorter) room
      refine ⟨_, by rw [mulRow, executed]; rfl, ?_, by simp [length]⟩
      have right : a.toNat * value (b :: rest) = a.toNat * b.toNat + 2 ^ 64 * (a.toNat * value rest) := by
        rw [value_cons, Nat.mul_add, swap]
      rw [value_cons, total, UInt64.toNat_ofNat', right, value_cons]
      generalize a.toNat * b.toNat = p
      generalize a.toNat * value rest = q
      omega

private theorem mulLimbs_total (xs v : List UInt64) (long : v.length = xs.length + ys.length)
    (fits : value v + value xs * value ys < 2 ^ (64 * v.length)) :
    ∃ w, mulLimbs ys xs v = some w ∧ value w = value v + value xs * value ys := by
  induction xs generalizing v with
  | nil => exact ⟨v, rfl, by simp⟩
  | cons a rest ih =>
    have product : value (a :: rest) * value ys = a.toNat * value ys + 2 ^ 64 * (value rest * value ys) := by
      rw [value_cons]
      ring
    have first : value v + a.toNat * value ys + 0 < 2 ^ (64 * v.length) := by
      rw [product] at fits
      omega
    obtain ⟨w, executed, total, length⟩ := mulRow_total a 0 v ys (by omega) first
    cases w with
    | nil =>
      rw [long] at length
      simp only [List.length_nil, List.length_cons] at length
      omega
    | cons x w =>
      have power : 2 ^ (64 * v.length) = 2 ^ 64 * 2 ^ (64 * w.length) := by
        rw [← pow_add, ← length]
        congr 1
        simp only [List.length_cons]
        ring
      rw [value_cons, Nat.add_zero] at total
      have room : value w + value rest * value ys < 2 ^ (64 * w.length) := by
        rw [product, power] at fits
        omega
      have shorter : w.length = rest.length + ys.length := by
        simp only [List.length_cons] at length long
        omega
      obtain ⟨u, later, sum⟩ := ih w shorter room
      refine ⟨x :: u, by simp [mulLimbs, executed, later], ?_⟩
      rw [value_cons, sum, product]
      omega

theorem mul_total (x y : Big) : ∃ z, x.mul y = some z ∧ z.toNat = x.toNat * y.toNat := by
  have bound : value x.limbs * value y.limbs < 2 ^ (64 * (x.limbs.length + y.limbs.length)) := by
    rw [Nat.mul_add, pow_add]
    exact Nat.mul_lt_mul'' (value_lt _) (value_lt _)
  obtain ⟨w, executed, total⟩ := mulLimbs_total y.limbs x.limbs
    (List.replicate (x.limbs.length + y.limbs.length) 0) (by simp)
    (by simpa [value_replicate_zero] using bound)
  refine ⟨norm w, by rw [Big.mul, executed]; rfl, ?_⟩
  rw [toNat_norm, total, value_replicate_zero, Nat.zero_add, Big.toNat, Big.toNat]

private theorem divLoop_spec (d : Big) (n q : ℕ) (r : Big) (room : 2 ^ n ∣ q)
    (small : r.toNat < d.toNat * 2 ^ n) :
    ((d.divLoop n q r).1 * d.toNat + (d.divLoop n q r).2.toNat = q * d.toNat + r.toNat) ∧
      (d.divLoop n q r).2.toNat < d.toNat := by
  induction n generalizing q r with
  | zero =>
    rw [Nat.pow_zero, Nat.mul_one] at small
    exact ⟨rfl, small⟩
  | succ i ih =>
    have half : 2 ^ i ∣ q := (Nat.pow_dvd_pow 2 (Nat.le_succ i)).trans room
    have double : d.toNat * 2 ^ (i + 1) = d.toNat * 2 ^ i + d.toNat * 2 ^ i := by ring
    rw [Big.divLoop]
    by_cases less : r.toNat < d.toNat * 2 ^ i
    · have order : r.cmp (d.shl i) = .lt := by
        rw [cmp_eq, toNat_shl]
        exact compare_lt_iff_lt.mpr less
      simp only [order, ne_eq, not_true_eq_false, if_false]
      exact ih q r half less
    · have order : r.cmp (d.shl i) ≠ .lt := by
        rw [cmp_eq, toNat_shl]
        exact fun lt => less (compare_lt_iff_lt.mp lt)
      have rest : (r.sub (d.shl i)).toNat = r.toNat - d.toNat * 2 ^ i := by
        rw [toNat_sub (by rw [toNat_shl]; omega), toNat_shl]
      -- Bit `i` of the quotient is still free, so setting it adds `2 ^ i`.
      have bit : q ||| 1 <<< i = q + 2 ^ i := by
        obtain ⟨k, rfl⟩ := room
        rw [Nat.shiftLeft_eq, Nat.one_mul, Nat.two_pow_add_eq_or_of_lt (Nat.pow_lt_pow_succ (by omega))]
      simp only [order, ne_eq, not_false_eq_true, if_true]
      obtain ⟨whole, last⟩ := ih (q ||| 1 <<< i) (r.sub (d.shl i))
        (by rw [bit]; exact Nat.dvd_add half (dvd_refl _)) (by rw [rest]; omega)
      refine ⟨?_, last⟩
      rw [whole, rest, bit, Nat.add_mul, Nat.mul_comm (2 ^ i)]
      omega

theorem divremSmall_total {x d : Big} (positive : 0 < d.toNat) (small : x.toNat / d.toNat < 2 ^ 127) :
    ∃ r, x.divremSmall d = some (x.toNat / d.toNat, r) ∧ r.toNat = x.toNat % d.toNat := by
  rw [Big.divremSmall, cmp_eq]
  by_cases less : x.toNat < d.toNat
  · rw [if_pos (compare_lt_iff_lt.mpr less)]
    exact ⟨x, by rw [Nat.div_eq_of_lt less], (Nat.mod_eq_of_lt less).symm⟩
  · rw [if_neg (fun lt => less (compare_lt_iff_lt.mp lt))]
    obtain ⟨someX, lowX, highX⟩ := bits_spec x (by omega)
    obtain ⟨someD, lowD, highD⟩ := bits_spec d (by omega)
    have ordered : d.bits ≤ x.bits := by
      by_contra longer
      have : 2 ^ x.bits ≤ 2 ^ (d.bits - 1) := Nat.pow_le_pow_right (by omega) (by omega)
      omega
    have few : x.bits - d.bits < 128 := by
      by_contra many
      -- A difference of 128 bits leaves a quotient of at least `2 ^ 127`.
      have scaled : d.toNat * 2 ^ 127 ≤ x.toNat := by
        calc d.toNat * 2 ^ 127
            ≤ 2 ^ d.bits * 2 ^ 127 := Nat.mul_le_mul_right _ (le_of_lt highD)
          _ = 2 ^ (d.bits + 127) := (pow_add 2 _ _).symm
          _ ≤ 2 ^ (x.bits - 1) := Nat.pow_le_pow_right (by omega) (by omega)
          _ ≤ x.toNat := lowX
      have := (Nat.le_div_iff_mul_le positive).mpr (Nat.mul_comm _ _ ▸ scaled)
      omega
    rw [if_pos few]
    have start : x.toNat < d.toNat * 2 ^ (x.bits - d.bits + 1) := by
      calc x.toNat < 2 ^ x.bits := highX
        _ = 2 ^ (d.bits - 1) * 2 ^ (x.bits - d.bits + 1) := by
          rw [← pow_add]
          congr 1
          omega
        _ ≤ d.toNat * 2 ^ (x.bits - d.bits + 1) := Nat.mul_le_mul_right _ lowD
    obtain ⟨whole, last⟩ := divLoop_spec d (x.bits - d.bits + 1) 0 x (dvd_zero _) start
    rw [Nat.zero_mul, Nat.zero_add] at whole
    have unique := Nat.div_mod_unique positive |>.mpr
      ⟨(by rw [Nat.mul_comm]; omega : (d.divLoop (x.bits - d.bits + 1) 0 x).2.toNat +
        d.toNat * (d.divLoop (x.bits - d.bits + 1) 0 x).1 = x.toNat), last⟩
    exact ⟨_, by rw [unique.1], unique.2.symm⟩

end E5r.Limbs
