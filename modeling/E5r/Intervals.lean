import E5r.ConstantFold
import Mathlib.Tactic.Linarith

/-!
# Intervals

Intervals of signed 64-bit numbers with the arithmetic of the range analysis, and the numbers
that the bits of a value can be read as.
-/

namespace E5r.Intervals

open IrModel ConstantFold

/-- A signed 64-bit number. -/
def Fits (v : ℤ) : Prop := -9223372036854775808 ≤ v ∧ v < 9223372036854775808

instance (v : ℤ) : Decidable (Fits v) := inferInstanceAs (Decidable (_ ∧ _))

/-- The values a computation can produce, as a signed interval. -/
structure Range where
  low : ℤ
  high : ℤ
  deriving DecidableEq

namespace Range

def any : Range := ⟨-9223372036854775808, 9223372036854775807⟩

def exact (v : ℤ) : Range := ⟨v, v⟩

def new (a b : ℤ) : Range := ⟨min a b, max a b⟩

/-- Everything a value of this many bytes can hold, unsigned. -/
def unsigned (size : ℕ) : Range :=
  match size with
  | 1 => new 0 0xff
  | 2 => new 0 0xffff
  | 4 => new 0 0xffffffff
  | _ => any

/-- Everything a value of this many bytes can hold, read as signed. -/
def signed (size : ℕ) : Range :=
  match size with
  | 1 => new (-0x80) 0x7f
  | 2 => new (-0x8000) 0x7fff
  | 4 => new (-0x80000000) 0x7fffffff
  | _ => any

def reinterpretSigned (r : Range) (size : ℕ) : Range :=
  let bits := size * 8
  if 64 ≤ bits then r
  else
    let modulus : ℤ := 2 ^ bits
    let half := modulus >>> (1 : ℕ)
    if 0 ≤ r.low ∧ r.high < half then r
    else if half ≤ r.low ∧ r.high < modulus then new (r.low - modulus) (r.high - modulus)
    else signed size

def contains (r : Range) (v : ℤ) : Prop := r.low ≤ v ∧ v ≤ r.high

instance (r : Range) (v : ℤ) : Decidable (r.contains v) := inferInstanceAs (Decidable (_ ∧ _))

def join (r s : Range) : Range := ⟨min r.low s.low, max r.high s.high⟩

def checked (v : ℤ) : Option ℤ := if Fits v then some v else none

def add (r s : Range) : Range :=
  match checked (r.low + s.low), checked (r.high + s.high) with
  | some low, some high => ⟨low, high⟩
  | _, _ => any

def sub (r s : Range) : Range :=
  match checked (r.low - s.high), checked (r.high - s.low) with
  | some low, some high => ⟨low, high⟩
  | _, _ => any

def mul (r s : Range) : Range :=
  match checked (r.low * s.low), checked (r.low * s.high), checked (r.high * s.low), checked (r.high * s.high) with
  | some a, some b, some c, some d => ⟨min (min a b) (min c d), max (max a b) (max c d)⟩
  | _, _, _, _ => any

variable {r s : Range} {a b v : ℤ}

def Within (r s : Range) : Prop := s.low ≤ r.low ∧ r.high ≤ s.high

theorem contains_of_within (within : r.Within s) (inside : r.contains v) : s.contains v :=
  ⟨Int.le_trans within.1 inside.1, Int.le_trans inside.2 within.2⟩

theorem contains_new (first : a ≤ v) (last : v ≤ b) : (new a b).contains v :=
  ⟨Int.le_trans (Int.min_le_left a b) first, Int.le_trans last (Int.le_max_right a b)⟩

theorem contains_any (fits : Fits v) : any.contains v :=
  ⟨fits.1, Int.le_of_lt_add_one fits.2⟩

theorem within_join_left (r s : Range) : r.Within (r.join s) := ⟨Int.min_le_left _ _, Int.le_max_left _ _⟩

theorem within_join_right (r s : Range) : s.Within (r.join s) := ⟨Int.min_le_right _ _, Int.le_max_right _ _⟩

theorem Within.trans {t : Range} (first : r.Within s) (second : s.Within t) : r.Within t :=
  ⟨Int.le_trans second.1 first.1, Int.le_trans first.2 second.2⟩

/-- Bounds that are checked hold every number between them, or are given up where one of these
    is no 64-bit number. -/
theorem contains_add (first : r.contains a) (second : s.contains b) :
    if Fits (a + b) then (r.add s).contains (a + b) else r.add s = any := by
  obtain ⟨lowA, highA⟩ := first
  obtain ⟨lowB, highB⟩ := second
  unfold add checked
  by_cases low : Fits (r.low + s.low)
  · by_cases high : Fits (r.high + s.high)
    · have fits : Fits (a + b) := by
        unfold Fits at low high ⊢
        omega
      rw [if_pos low, if_pos high, if_pos fits]
      exact ⟨Int.add_le_add lowA lowB, Int.add_le_add highA highB⟩
    · rw [if_pos low, if_neg high]
      split
      · exact contains_any ‹_›
      · rfl
  · rw [if_neg low]
    split
    · exact contains_any ‹_›
    · rfl

theorem contains_sub (first : r.contains a) (second : s.contains b) :
    if Fits (a - b) then (r.sub s).contains (a - b) else r.sub s = any := by
  obtain ⟨lowA, highA⟩ := first
  obtain ⟨lowB, highB⟩ := second
  unfold sub checked
  by_cases low : Fits (r.low - s.high)
  · by_cases high : Fits (r.high - s.low)
    · have fits : Fits (a - b) := by
        unfold Fits at low high ⊢
        omega
      rw [if_pos low, if_pos high, if_pos fits]
      exact ⟨Int.sub_le_sub lowA highB, Int.sub_le_sub highA lowB⟩
    · rw [if_pos low, if_neg high]
      split
      · exact contains_any ‹_›
      · rfl
  · rw [if_neg low]
    split
    · exact contains_any ‹_›
    · rfl

theorem mul_between {low high : ℤ} (first : low ≤ a) (last : a ≤ high) (c : ℤ) :
    min (low * c) (high * c) ≤ a * c ∧ a * c ≤ max (low * c) (high * c) := by
  rcases Int.le_total 0 c with positive | negative
  · exact ⟨Int.le_trans (Int.min_le_left _ _) (Int.mul_le_mul_of_nonneg_right first positive),
      Int.le_trans (Int.mul_le_mul_of_nonneg_right last positive) (Int.le_max_right _ _)⟩
  · exact ⟨Int.le_trans (Int.min_le_right _ _) (Int.mul_le_mul_of_nonpos_right last negative),
      Int.le_trans (Int.mul_le_mul_of_nonpos_right first negative) (Int.le_max_left _ _)⟩

/-- A product lies between the least and the greatest of the products of the bounds. -/
theorem mul_corners (first : r.contains a) (second : s.contains b) :
    min (min (r.low * s.low) (r.low * s.high)) (min (r.high * s.low) (r.high * s.high)) ≤ a * b ∧
      a * b ≤ max (max (r.low * s.low) (r.low * s.high)) (max (r.high * s.low) (r.high * s.high)) := by
  have outer := mul_between first.1 first.2 b
  have low := mul_between second.1 second.2 r.low
  have high := mul_between second.1 second.2 r.high
  rw [Int.mul_comm s.low, Int.mul_comm s.high, Int.mul_comm b] at low high
  omega

theorem contains_mul (first : r.contains a) (second : s.contains b) :
    if Fits (a * b) then (r.mul s).contains (a * b) else r.mul s = any := by
  obtain ⟨low, high⟩ := mul_corners first second
  unfold mul checked
  by_cases all : Fits (r.low * s.low) ∧ Fits (r.low * s.high) ∧ Fits (r.high * s.low) ∧ Fits (r.high * s.high)
  · obtain ⟨one, two, three, four⟩ := all
    have fits : Fits (a * b) := by
      unfold Fits at one two three four ⊢
      omega
    rw [if_pos one, if_pos two, if_pos three, if_pos four, if_pos fits]
    exact ⟨low, high⟩
  · have given : (match (if Fits (r.low * s.low) then some (r.low * s.low) else none),
        (if Fits (r.low * s.high) then some (r.low * s.high) else none),
        (if Fits (r.high * s.low) then some (r.high * s.low) else none),
        (if Fits (r.high * s.high) then some (r.high * s.high) else none) with
        | some a, some b, some c, some d => Range.mk (min (min a b) (min c d)) (max (max a b) (max c d))
        | _, _, _, _ => any) = any := by
      split
      · rename_i one two three four
        refine absurd ⟨?_, ?_, ?_, ?_⟩ all
        · by_contra no
          rw [if_neg no] at one
          cases one
        · by_contra no
          rw [if_neg no] at two
          cases two
        · by_contra no
          rw [if_neg no] at three
          cases three
        · by_contra no
          rw [if_neg no] at four
          cases four
      · rfl
    rw [given]
    split
    · exact contains_any ‹_›
    · rfl

end Range

/-- One more than the largest number in so many bytes, eight at most. -/
def bound (size : ℕ) : ℕ := 2 ^ (8 * min size 8)

theorem and_mask_eq (size v : ℕ) : v &&& mask size = v % bound size := by
  rw [mask, bound]
  split
  · rename_i short
    rw [Nat.and_two_pow_sub_one_eq_mod, Nat.min_eq_left (by omega), Nat.mul_comm]
  · rename_i wide
    rw [Nat.and_two_pow_sub_one_eq_mod, Nat.min_eq_right (by omega)]

theorem bound_pos (size : ℕ) : 0 < bound size := Nat.two_pow_pos _

/-- A number the bits of a value stand for: read as signed, or below eight bytes as
    unsigned. -/
def Reads (size bits : ℕ) (z : ℤ) : Prop := 0 < size ∧ (z = sext bits size ∨ size < 8 ∧ z = bits)

/-- The unsigned reading, or the signed one of eight bytes. -/
def natural (size bits : ℕ) : ℤ := if size < 8 then bits else sext bits size

/-- Sign extension takes the upper half of the numbers below zero. -/
theorem sext_eq {size bits : ℕ} (some_ : 1 ≤ size) (small : bits < bound size) :
    sext bits size = if 2 * bits < bound size then (bits : ℤ) else bits - bound size := by
  by_cases wide : 8 ≤ size
  · rw [bound, Nat.min_eq_right wide] at small ⊢
    rw [sext, if_neg (show ¬size = 0 by omega), if_neg (show ¬size ≤ 7 by omega), asI64]
    split <;> split <;> omega
  · have : size = 1 ∨ size = 2 ∨ size = 3 ∨ size = 4 ∨ size = 5 ∨ size = 6 ∨ size = 7 := by omega
    rw [sext, if_neg (show ¬size = 0 by omega), if_pos (show size ≤ 7 by omega), shl64, asI64, Int.shiftRight_eq_div_pow,
      Nat.shiftLeft_eq]
    rcases this with rfl | rfl | rfl | rfl | rfl | rfl | rfl <;> norm_num [bound] at small ⊢ <;> split <;> split <;> omega

section Bounds

variable {size bits : ℕ} {z : ℤ}

theorem bound_le (size : ℕ) : bound size ≤ 2 ^ 64 := Nat.pow_le_pow_right (by decide) (by omega)

theorem bound_short (short : size < 8) : bound size ≤ 2 ^ 56 := Nat.pow_le_pow_right (by decide) (by omega)

theorem bound_even (some_ : 0 < size) : 2 ∣ bound size :=
  dvd_pow_self 2 (by omega)

theorem sext_fits (small : bits < bound size) : Fits (sext bits size) := by
  have most := bound_le size
  by_cases none : size = 0
  · subst none
    rw [sext, if_pos rfl]
    exact ⟨by decide, by decide⟩
  · have even := @bound_even size (by omega)
    rw [sext_eq (by omega) small, Fits]
    split <;> omega

theorem Reads.fits (reads : Reads size bits z) (small : bits < bound size) : Fits z := by
  rcases reads.2 with rfl | ⟨short, rfl⟩
  · exact sext_fits small
  · have := bound_short short
    unfold Fits
    omega

theorem Reads.eq_bits (reads : Reads size bits z) (small : bits < bound size) (positive : 0 ≤ z) : z = bits := by
  rcases reads.2 with rfl | ⟨-, rfl⟩
  · rw [sext_eq reads.1 small] at positive ⊢
    split
    · rfl
    · rename_i upper
      rw [if_neg upper] at positive
      omega
  · rfl

theorem natural_eq (small : bits < bound size) (low : bits < 2 ^ 63) : natural size bits = bits := by
  rw [natural]
  split
  · rfl
  · rename_i wide
    have word : bound size = 2 ^ 64 := by rw [bound, Nat.min_eq_right (by omega)]
    rw [sext_eq (by omega) small, if_pos (by omega)]

theorem natural_fits (small : bits < bound size) : Fits (natural size bits) := by
  rw [natural]
  split
  · have := bound_short ‹size < 8›
    unfold Fits
    omega
  · exact sext_fits small

theorem unsigned_contains {s : ℕ} (within : bits < bound s) (fits : Fits z) (same : bits < 2 ^ 63 → z = bits) :
    (Range.unsigned s).contains z := by
  have narrow : ∀ high : ℤ, (bound s : ℤ) = high + 1 → high < 2 ^ 32 → (Range.new 0 high).contains z := by
    intro high width most
    rw [same (by omega)]
    exact Range.contains_new (by omega) (by omega)
  by_cases one : s = 1
  · subst one
    exact narrow _ (by norm_num [bound]) (by norm_num)
  by_cases two : s = 2
  · subst two
    exact narrow _ (by norm_num [bound]) (by norm_num)
  by_cases four : s = 4
  · subst four
    exact narrow _ (by norm_num [bound]) (by norm_num)
  have wide : Range.unsigned s = Range.any := by
    unfold Range.unsigned
    split <;> first | omega | rfl
  rw [wide]
  exact Range.contains_any fits

theorem signed_contains (some_ : 0 < size) (small : bits < bound size) : (Range.signed size).contains (sext bits size) := by
  have narrow : ∀ low high : ℤ, (bound size : ℤ) = -2 * low → high = -low - 1 →
      (Range.new low high).contains (sext bits size) := by
    intro low high width last
    rw [sext_eq some_ small]
    split
    · exact Range.contains_new (by omega) (by omega)
    · exact Range.contains_new (by omega) (by omega)
  by_cases one : size = 1
  · subst one
    exact narrow _ _ (by norm_num [bound]) (by norm_num)
  by_cases two : size = 2
  · subst two
    exact narrow _ _ (by norm_num [bound]) (by norm_num)
  by_cases four : size = 4
  · subst four
    exact narrow _ _ (by norm_num [bound]) (by norm_num)
  have wide : Range.signed size = Range.any := by
    unfold Range.signed
    split <;> first | omega | rfl
  rw [wide]
  exact Range.contains_any (sext_fits small)

theorem reinterpretSigned_contains {r : Range} (reads : Reads size bits z) (small : bits < bound size)
    (inside : r.contains z) : (r.reinterpretSigned size).contains (sext bits size) := by
  obtain ⟨some_, reading⟩ := reads
  unfold Range.reinterpretSigned
  simp only
  by_cases wide : 64 ≤ size * 8
  · rw [if_pos wide]
    rcases reading with rfl | ⟨short, -⟩
    · exact inside
    · omega
  rw [if_neg wide]
  have width : (2 : ℤ) ^ (size * 8) = bound size := by
    rw [bound, Nat.min_eq_left (by omega), Nat.mul_comm 8]
    norm_cast
  have half : ((2 : ℤ) ^ (size * 8)) >>> (1 : ℕ) = (bound size : ℤ) / 2 := by
    rw [width]
    exact Int.shiftRight_eq_div_pow _ _
  have even := bound_even some_
  obtain ⟨lowR, highR⟩ := inside
  rw [half, width]
  have signed := sext_eq some_ small
  by_cases lower : 0 ≤ r.low ∧ r.high < (bound size : ℤ) / 2
  · rw [if_pos lower]
    have same : z = sext bits size := by
      rcases reading with same | ⟨-, same⟩
      · exact same
      · rw [signed, if_pos (by omega), same]
    rw [← same]
    exact ⟨lowR, highR⟩
  rw [if_neg lower]
  by_cases upper : (bound size : ℤ) / 2 ≤ r.low ∧ r.high < bound size
  · rw [if_pos upper]
    have same : sext bits size = z - bound size := by
      rcases reading with same | ⟨-, same⟩
      · rw [same, signed] at lowR highR
        split at lowR <;> omega
      · rw [signed, if_neg (by omega), same]
    rw [same]
    exact Range.contains_new (by omega) (by omega)
  · rw [if_neg upper]
    exact signed_contains some_ small

theorem shiftRight_contains {r : Range} (n : ℕ) (inside : r.contains z) :
    (Range.new (r.low >>> n) (r.high >>> n)).contains (z >>> n) := by
  simp only [Int.shiftRight_eq_div_pow]
  have positive : (0 : ℤ) < ((2 ^ n : ℕ) : ℤ) := by positivity
  exact Range.contains_new (Int.ediv_le_ediv positive inside.1) (Int.ediv_le_ediv positive inside.2)

end Bounds

end E5r.Intervals
