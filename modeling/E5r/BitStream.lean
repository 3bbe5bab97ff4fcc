import Mathlib.Data.UInt
import Mathlib.Tactic.Ring

/-!
Numbers as lists of bits, lowest bit first, and bytes as eight of them each.
-/
namespace E5r.BitStream

/-- The lowest `n` bits of a number, lowest first. -/
def bitsOf : ℕ → ℕ → List Bool
  | 0, _ => []
  | n + 1, v => decide (v % 2 = 1) :: bitsOf n (v / 2)

/-- The number of a list of bits. -/
def value : List Bool → ℕ
  | [] => 0
  | b :: bs => b.toNat + 2 * value bs

def bytesBits (bytes : List UInt8) : List Bool := bytes.flatMap (fun b => bitsOf 8 b.toNat)

@[simp] theorem length_bitsOf (n v : ℕ) : (bitsOf n v).length = n := by
  induction n generalizing v with
  | zero => rfl
  | succ n ih => simp [bitsOf, ih]

theorem value_bitsOf (n v : ℕ) : value (bitsOf n v) = v % 2 ^ n := by
  induction n generalizing v with
  | zero => simp [bitsOf, value, Nat.mod_one]
  | succ n ih =>
    have low : (decide (v % 2 = 1)).toNat = v % 2 := by
      rcases Nat.mod_two_eq_zero_or_one v with even | odd
      · simp [even]
      · simp [odd]
    rw [bitsOf, value, ih, low, pow_succ, Nat.mul_comm (2 ^ n) 2, Nat.mod_mul]

theorem value_lt (bs : List Bool) : value bs < 2 ^ bs.length := by
  induction bs with
  | nil => simp [value]
  | cons b bs ih =>
    have := Bool.toNat_le b
    simp only [value, List.length_cons, pow_succ]
    omega

theorem bitsOf_value (bs : List Bool) : bitsOf bs.length (value bs) = bs := by
  induction bs with
  | nil => rfl
  | cons b bs ih =>
    have low : (b.toNat + 2 * value bs) % 2 = b.toNat := by
      have := Bool.toNat_le b
      omega
    have high : (b.toNat + 2 * value bs) / 2 = value bs := by
      have := Bool.toNat_le b
      omega
    rw [List.length_cons, bitsOf, value, low, high, ih]
    cases b <;> rfl

theorem bitsOf_mod (n v : ℕ) : bitsOf n (v % 2 ^ n) = bitsOf n v := by
  have same := bitsOf_value (bitsOf n v)
  rwa [length_bitsOf, value_bitsOf] at same

theorem bitsOf_add (m n v : ℕ) : bitsOf (m + n) v = bitsOf m v ++ bitsOf n (v / 2 ^ m) := by
  induction m generalizing v with
  | zero => simp [bitsOf]
  | succ m ih =>
    rw [show m + 1 + n = (m + n) + 1 by omega, bitsOf, ih, bitsOf, Nat.div_div_eq_div_mul, pow_succ,
      Nat.mul_comm 2]
    rfl

theorem bitsOf_join {m u : ℕ} (small : u < 2 ^ m) (n v : ℕ) :
    bitsOf (m + n) (u + 2 ^ m * v) = bitsOf m u ++ bitsOf n v := by
  have positive : 0 < 2 ^ m := Nat.two_pow_pos m
  rw [bitsOf_add, ← bitsOf_mod m, Nat.add_mul_mod_self_left, bitsOf_mod, Nat.add_mul_div_left _ _ positive,
    Nat.div_eq_of_lt small, Nat.zero_add]

theorem bitsOf_eq_map (n v : ℕ) : bitsOf n v = (List.range n).map v.testBit := by
  induction n generalizing v with
  | zero => rfl
  | succ n ih =>
    rw [List.range_succ_eq_map, List.map_cons, List.map_map, bitsOf, ih]
    simp [Nat.testBit_succ, Nat.testBit_zero, Function.comp_def]

theorem bitsOf_mod_le {n m : ℕ} (few : n ≤ m) (v : ℕ) : bitsOf n (v % 2 ^ m) = bitsOf n v := by
  rw [bitsOf_eq_map, bitsOf_eq_map]
  apply List.map_congr_left
  intro i inside
  have small : i < m := lt_of_lt_of_le (List.mem_range.mp inside) few
  rw [Nat.testBit_mod_two_pow, decide_eq_true small, Bool.true_and]

theorem reverse_bitsOf (n v : ℕ) :
    (bitsOf n v).reverse = (List.range n).map (fun i => v.testBit (n - 1 - i)) := by
  apply List.ext_getElem
  · simp
  · intro i inside _
    have small : i < n := by simpa using inside
    simp [bitsOf_eq_map]

theorem bytesBits_append (a b : List UInt8) : bytesBits (a ++ b) = bytesBits a ++ bytesBits b := by
  simp [bytesBits]

@[simp] theorem bytesBits_cons (b : UInt8) (rest : List UInt8) :
    bytesBits (b :: rest) = bitsOf 8 b.toNat ++ bytesBits rest := rfl

@[simp] theorem bytesBits_nil : bytesBits [] = [] := rfl

@[simp] theorem length_bytesBits (bytes : List UInt8) : (bytesBits bytes).length = 8 * bytes.length := by
  induction bytes with
  | nil => rfl
  | cons b rest ih =>
    rw [bytesBits_cons, List.length_append, ih, length_bitsOf, List.length_cons]
    ring

theorem bytesBits_injective {a b : List UInt8} (same : bytesBits a = bytesBits b) : a = b := by
  induction a generalizing b with
  | nil =>
    have lengths := congrArg List.length same
    rw [length_bytesBits, length_bytesBits, List.length_nil] at lengths
    exact (List.length_eq_zero_iff.mp (by omega)).symm
  | cons x a ih =>
    cases b with
    | nil =>
      have lengths := congrArg List.length same
      rw [length_bytesBits, length_bytesBits, List.length_nil, List.length_cons] at lengths
      omega
    | cons y b =>
      rw [bytesBits_cons, bytesBits_cons] at same
      obtain ⟨first, rest⟩ := List.append_inj same (by rw [length_bitsOf, length_bitsOf])
      have numbers := congrArg value first
      rw [value_bitsOf, value_bitsOf, Nat.mod_eq_of_lt (UInt8.toNat_lt x), Nat.mod_eq_of_lt (UInt8.toNat_lt y)] at numbers
      rw [UInt8.toNat_inj.mp numbers, ih rest]

end E5r.BitStream
