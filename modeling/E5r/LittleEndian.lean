import Mathlib.Data.Nat.Bitwise
import Mathlib.Tactic.Ring
import Mathlib.Tactic.NormNum
import Mathlib.Tactic.Positivity

/-!
Numbers kept as bytes, the lowest first. A store of bytes is a function from the
positions to the bytes, so that a number read out of it is a sum over the positions
and a write is a change of the function on an interval.
-/
namespace E5r.LittleEndian

/-- The number that the bytes at the positions below `n` spell. -/
def value (f : ℕ → UInt8) : ℕ → ℕ
  | 0 => 0
  | n + 1 => value f n + 256 ^ n * (f n).toNat

def byte (v i : ℕ) : UInt8 := UInt8.ofNat (v / 256 ^ i)

/-- The store with the lowest `n` bytes of `v` from the position `start` on. -/
def put (f : ℕ → UInt8) (start n v : ℕ) : ℕ → UInt8 :=
  fun a => if start ≤ a ∧ a < start + n then byte v (a - start) else f a

theorem toNat_byte (v i : ℕ) : (byte v i).toNat = v / 256 ^ i % 256 := by
  simp [byte]

theorem value_lt (f : ℕ → UInt8) (n : ℕ) : value f n < 256 ^ n := by
  induction n with
  | zero => simp [value]
  | succ n ih =>
    have top := (f n).toNat_lt
    calc value f n + 256 ^ n * (f n).toNat
        < 256 ^ n + 256 ^ n * (f n).toNat := by omega
      _ = 256 ^ n * ((f n).toNat + 1) := by ring
      _ ≤ 256 ^ n * 256 := Nat.mul_le_mul_left _ (by omega)
      _ = 256 ^ (n + 1) := by ring

theorem value_congr {f g : ℕ → UInt8} {n : ℕ} (same : ∀ i < n, f i = g i) : value f n = value g n := by
  induction n with
  | zero => rfl
  | succ n ih => rw [value, value, ih (fun i below => same i (by omega)), same n (by omega)]

theorem value_byte (v n : ℕ) : value (byte v) n = v % 256 ^ n := by
  induction n with
  | zero => simp [value, Nat.mod_one]
  | succ n ih => rw [value, ih, toNat_byte, pow_succ, Nat.mod_mul]

theorem byte_value {f : ℕ → UInt8} {n i : ℕ} (below : i < n) : byte (value f n) i = f i := by
  induction n with
  | zero => omega
  | succ n ih =>
    apply UInt8.toNat_inj.mp
    rw [toNat_byte, value]
    by_cases last : i = n
    · subst last
      rw [Nat.add_mul_div_left _ _ (Nat.pow_pos (by norm_num)), Nat.div_eq_of_lt (value_lt f i), Nat.zero_add,
        Nat.mod_eq_of_lt (f i).toNat_lt]
    · have earlier : i < n := by omega
      have split : 256 ^ n = 256 ^ i * (256 * 256 ^ (n - i - 1)) := by
        rw [← pow_succ', ← pow_add]
        congr 1
        omega
      have rest : (value f n + 256 ^ n * (f n).toNat) / 256 ^ i % 256 = value f n / 256 ^ i % 256 := by
        rw [split, mul_assoc, Nat.add_mul_div_left _ _ (Nat.pow_pos (by norm_num)), mul_assoc, Nat.add_mul_mod_self_left]
      rw [rest, ← toNat_byte, ih earlier]

theorem byte_mod (v : ℕ) {n i : ℕ} (below : i < n) : byte (v % 256 ^ n) i = byte v i := by
  rw [← value_byte, byte_value below]

/-- Joining the next byte with an or, as a reader that goes byte by byte does. -/
theorem value_or (f : ℕ → UInt8) (n : ℕ) : value f n ||| (f n).toNat <<< (8 * n) = value f (n + 1) := by
  have power : 256 ^ n = 2 ^ (8 * n) := by
    rw [pow_mul]
    norm_num
  have low := value_lt f n
  rw [power] at low
  rw [Nat.or_comm, Nat.shiftLeft_eq, Nat.mul_comm, ← Nat.two_pow_add_eq_or_of_lt low, value, power,
    Nat.add_comm]

theorem power_two (n : ℕ) : 256 ^ n = 2 ^ (8 * n) := by
  rw [pow_mul]
  norm_num

theorem testBit_byte (v j i : ℕ) : (byte v j).toNat.testBit i = (decide (i < 8) && v.testBit (8 * j + i)) := by
  rw [toNat_byte, power_two, show 256 = 2 ^ 8 from rfl, Nat.testBit_mod_two_pow, Nat.testBit_div_two_pow,
    Nat.add_comm]

theorem byte_replace {v z index j : ℕ} (small : z < 256) (at_ : index < 8) (inside : j < 8) :
    byte ((v &&& (2 ^ 64 - 1 - 0xff * 2 ^ (8 * index))) ||| z * 2 ^ (8 * index) % 2 ^ 64) j =
      if j = index then UInt8.ofNat z else byte v j := by
  have filled : 0xff * 2 ^ (8 * index) < 2 ^ 64 :=
    calc 0xff * 2 ^ (8 * index) < 2 ^ 8 * 2 ^ (8 * index) := Nat.mul_lt_mul_of_pos_right (by norm_num) (by positivity)
      _ = 2 ^ (8 + 8 * index) := by rw [pow_add]
      _ ≤ 2 ^ 64 := Nat.pow_le_pow_right (by norm_num) (by omega)
  have ones : (0xff : ℕ) = 2 ^ 8 - 1 := by norm_num
  apply UInt8.toNat_inj.mp
  apply Nat.eq_of_testBit_eq
  intro i
  rw [testBit_byte, Nat.testBit_or, Nat.testBit_and, Nat.testBit_mod_two_pow, Nat.testBit_mul_two_pow,
    show 2 ^ 64 - 1 - 0xff * 2 ^ (8 * index) = 2 ^ 64 - (0xff * 2 ^ (8 * index) + 1) by omega,
    Nat.testBit_two_pow_sub_succ filled, Nat.testBit_mul_two_pow]
  by_cases low : i < 8
  · have below : 8 * j + i < 64 := by omega
    by_cases same : j = index
    · subst same
      have bit : (0xff : ℕ).testBit (8 * j + i - 8 * j) = true := by
        rw [ones, Nat.testBit_two_pow_sub_one]
        simpa using low
      rw [if_pos rfl, bit, UInt8.toNat_ofNat_of_lt' small]
      simp [low, below]
    · have outside : (decide (8 * index ≤ 8 * j + i) && (0xff : ℕ).testBit (8 * j + i - 8 * index)) = false := by
        rw [ones, Nat.testBit_two_pow_sub_one]
        by_cases before : 8 * index ≤ 8 * j + i
        · simp only [before, decide_true, Bool.true_and, decide_eq_false_iff_not]
          omega
        · simp [before]
      have absent : (decide (8 * index ≤ 8 * j + i) && z.testBit (8 * j + i - 8 * index)) = false := by
        by_cases before : 8 * index ≤ 8 * j + i
        · rw [Nat.testBit_lt_two_pow (lt_of_lt_of_le small (by
            calc 256 = 2 ^ 8 := by norm_num
              _ ≤ 2 ^ (8 * j + i - 8 * index) := Nat.pow_le_pow_right (by norm_num) (by omega)))]
          simp
        · simp [before]
      rw [if_neg same, outside, absent, testBit_byte]
      simp [low, below]
  · rw [decide_eq_false low, Bool.false_and]
    symm
    by_cases same : j = index
    · rw [if_pos same, UInt8.toNat_ofNat_of_lt' small]
      exact Nat.testBit_lt_two_pow (lt_of_lt_of_le small (by
        calc 256 = 2 ^ 8 := by norm_num
          _ ≤ 2 ^ i := Nat.pow_le_pow_right (by norm_num) (by omega)))
    · rw [if_neg same, testBit_byte, decide_eq_false low, Bool.false_and]

end E5r.LittleEndian
