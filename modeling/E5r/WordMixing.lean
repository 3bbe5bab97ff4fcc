import Mathlib.Data.Nat.Bitwise
import Mathlib.Data.List.Basic
import E5r.Cursor

/-!
Mixing words into a state, and words as little-endian bytes. The steps a mixing hash
is made of are injective on words of a fixed width, and a fold of a step that is
injective both in the state and in the word tells two runs of words apart that differ
in one place.
-/
namespace E5r.WordMixing
open Function
open Cursor (leNat leNat_lt)

variable {w : ℕ}

theorem mul_injective {a inverse : BitVec w} (unit : a * inverse = 1#w) : Injective (fun x : BitVec w => x * a) := by
  intro x y same
  have same : x * a = y * a := same
  calc x = x * a * inverse := by rw [BitVec.mul_assoc, unit, BitVec.mul_one]
    _ = y * a * inverse := by rw [same]
    _ = y := by rw [BitVec.mul_assoc, unit, BitVec.mul_one]

theorem add_injective (a : BitVec w) : Injective (fun x : BitVec w => x + a) := by
  intro x y same
  have same : x + a = y + a := same
  rwa [BitVec.add_left_inj] at same

theorem xor_injective (a : BitVec w) : Injective (fun x : BitVec w => a ^^^ x) := by
  intro x y same
  have same : a ^^^ x = a ^^^ y := same
  rwa [BitVec.xor_right_inj] at same

theorem xor_injective' (a : BitVec w) : Injective (fun x : BitVec w => x ^^^ a) := by
  intro x y same
  have same : x ^^^ a = y ^^^ a := same
  rwa [BitVec.xor_left_inj] at same

theorem bit_rotateLeft (x : BitVec w) {r i : ℕ} (turn : r < w) (inside : i < w) :
    (x.rotateLeft r).getLsbD ((i + r) % w) = x.getLsbD i := by
  rw [BitVec.getLsbD_rotateLeft_of_le turn]
  by_cases round : i + r < w
  · rw [Nat.mod_eq_of_lt round]
    have below : ¬i + r < r := by omega
    simp [below, round]
  · have reduced : (i + r) % w = i + r - w := by
      rw [Nat.mod_eq_sub_mod (by omega), Nat.mod_eq_of_lt (by omega)]
    have below : i + r - w < r := by omega
    have back : w - r + (i + r - w) = i := by omega
    simp [reduced, below, back]

theorem rotateLeft_injective {r : ℕ} (turn : r < w) : Injective (fun x : BitVec w => x.rotateLeft r) := by
  intro x y same
  have same : x.rotateLeft r = y.rotateLeft r := same
  apply BitVec.eq_of_getLsbD_eq
  intro i inside
  rw [← bit_rotateLeft x turn inside, same, bit_rotateLeft y turn inside]

theorem xorShift_injective {s : ℕ} (moved : 0 < s) : Injective (fun x : BitVec w => x ^^^ (x >>> s)) := by
  intro x y same
  have same : x ^^^ (x >>> s) = y ^^^ (y >>> s) := same
  apply BitVec.eq_of_getLsbD_eq
  -- Downwards from the highest bit: bit `i` is xored with bit `s + i`.
  have down : ∀ k i, w ≤ i + k → x.getLsbD i = y.getLsbD i := by
    intro k
    induction k with
    | zero =>
      intro i above
      rw [BitVec.getLsbD_of_ge x i (by omega), BitVec.getLsbD_of_ge y i (by omega)]
    | succ k ih =>
      intro i above
      have bit := congrArg (fun z => z.getLsbD i) same
      simp only [BitVec.getLsbD_xor, BitVec.getLsbD_ushiftRight, ih (s + i) (by omega)] at bit
      exact (Bool.xor_left_inj.mp bit)
  intro i inside
  exact down w i (by omega)

theorem foldl_differs {σ ω : Type} {step : σ → ω → σ} (state : ∀ x, Injective (fun h => step h x))
    (word : ∀ h, Injective (step h)) {x y : ℕ → ω} {n i : ℕ} (inside : i < n) (same : ∀ j < n, j ≠ i → x j = y j)
    (differ : x i ≠ y i) (h : σ) :
    (List.range n).foldl (fun h j => step h (x j)) h ≠ (List.range n).foldl (fun h j => step h (y j)) h := by
  induction n with
  | zero => omega
  | succ n ih =>
    rw [List.range_succ, List.foldl_append, List.foldl_append]
    simp only [List.foldl_cons, List.foldl_nil]
    by_cases last : i = n
    · subst last
      have before : ∀ k ≤ i, (List.range k).foldl (fun h j => step h (x j)) h =
          (List.range k).foldl (fun h j => step h (y j)) h := by
        intro k few
        refine List.foldl_ext _ _ _ fun h j member => ?_
        have below := List.mem_range.mp member
        rw [same j (by omega) (by omega)]
      rw [before i le_rfl]
      exact fun equal => differ (word _ equal)
    · rw [same n (by omega) (Ne.symm last)]
      exact fun equal => ih (by omega) (fun j below other => same j (by omega) other) (state _ equal)

def leBytes : ℕ → ℕ → List UInt8
  | 0, _ => []
  | n + 1, v => UInt8.ofNat v :: leBytes n (v / 256)

@[simp] theorem length_leBytes (n v : ℕ) : (leBytes n v).length = n := by
  induction n generalizing v with
  | zero => rfl
  | succ n ih => rw [leBytes, List.length_cons, ih]

theorem leNat_leBytes (n v : ℕ) : leNat (leBytes n v) = v % 256 ^ n := by
  induction n generalizing v with
  | zero => rw [leBytes, leNat, Nat.pow_zero, Nat.mod_one]
  | succ n ih =>
    rw [leBytes, leNat, ih, Nat.pow_succ, Nat.mul_comm (256 ^ n), Nat.mod_mul]
    rw [UInt8.toNat_ofNat']

theorem leBytes_leNat (bytes : List UInt8) : leBytes bytes.length (leNat bytes) = bytes := by
  induction bytes with
  | nil => rfl
  | cons b rest ih =>
    have small := b.toNat_lt
    have high : (b.toNat + 256 * leNat rest) / 256 = leNat rest := by omega
    have low : UInt8.ofNat (b.toNat + 256 * leNat rest) = b := by
      apply UInt8.toNat_inj.mp
      rw [UInt8.toNat_ofNat']
      omega
    rw [List.length_cons, leNat, leBytes, high, low, ih]

theorem leNat_injective {a b : List UInt8} (long : a.length = b.length) (same : leNat a = leNat b) : a = b := by
  rw [← leBytes_leNat a, ← leBytes_leNat b, long, same]

end E5r.WordMixing
