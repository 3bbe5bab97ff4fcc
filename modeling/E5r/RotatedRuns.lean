import Mathlib.Data.List.Rotate
import Mathlib.Tactic.IntervalCases

/-!
Runs of ones in words of 64 bits that are rotated within an element and repeated. The
bit at `i` of such a word is set when `(i + turn) % size < run`; the size of the element,
a power of two, is the least at which the word repeats.
-/
namespace E5r.RotatedRuns

/-- The word is made of copies of its lowest bits. -/
def Repeats (val : BitVec 64) (size : ℕ) : Prop := ∀ i < 64, val.getLsbD i = val.getLsbD (i % size)

/-- A run of ones, turned right within its element. -/
def IsRun (val : BitVec 64) (size turn run : ℕ) : Prop :=
  ∀ i < 64, val.getLsbD i = decide ((i + turn) % size < run)

variable {val : BitVec 64} {size turn run : ℕ}

theorem repeats_of_run (positive : 0 < size) (whole : size ≤ 64) (is : IsRun val size turn run) : Repeats val size := by
  intro i below
  have inside := Nat.mod_lt i positive
  rw [is i below, is (i % size) (by omega), Nat.mod_add_mod]

theorem Repeats.of_dvd {half : ℕ} (repeats : Repeats val half) (some_ : 0 < size) (divides : half ∣ size) :
    Repeats val size := by
  intro i below
  have inside : i % size ≤ i := Nat.mod_le _ _
  rw [repeats i below, repeats (i % size) (by omega), Nat.mod_mod_of_dvd _ divides]

theorem not_repeats_half {half : ℕ} (is : IsRun val (2 * half) turn run) (whole : 2 * half ≤ 64) (some_ : 0 < run)
    (part : run < 2 * half) : ¬ Repeats val half := by
  intro repeats
  have positive : 0 < half := by omega
  -- every turn of the word has the bits of the run
  have again (i : ℕ) (inside : i < 2 * half) :
      decide ((i + turn) % (2 * half) < run) = decide ((i + turn + half) % (2 * half) < run) := by
    have other : ((i + half) % (2 * half)) % half = i % half := by
      rw [Nat.mod_mod_of_dvd _ (Dvd.intro_left 2 rfl), Nat.add_mod_right]
    have below : (i + half) % (2 * half) < 64 := (Nat.mod_lt _ (by omega)).trans_le whole
    rw [← is i (by omega), repeats i (by omega), ← other, ← repeats _ below, is _ below, Nat.mod_add_mod]
    congr 3
    omega
  have within (x : ℕ) (inside : x < 2 * half) : decide (x < run) = decide ((x + half) % (2 * half) < run) := by
    have turned := again ((x + (2 * half - turn % (2 * half))) % (2 * half)) (Nat.mod_lt _ (by omega))
    have rest := Nat.mod_lt turn (show 0 < 2 * half by omega)
    have parts := Nat.div_add_mod turn (2 * half)
    have back : (x + (2 * half - turn % (2 * half)) + turn) % (2 * half) = x := by
      have shifted : x + (2 * half - turn % (2 * half)) + turn = x + 2 * half * (turn / (2 * half) + 1) := by
        rw [Nat.mul_add, Nat.mul_one]
        omega
      rw [shifted, Nat.add_mul_mod_self_left, Nat.mod_eq_of_lt inside]
    rw [Nat.mod_add_mod, back, Nat.add_assoc, Nat.mod_add_mod, ← Nat.add_assoc, ← Nat.mod_add_mod, back] at turned
    exact turned
  have low := within 0 (by omega)
  rw [Nat.zero_add, Nat.mod_eq_of_lt (by omega), decide_eq_decide] at low
  have high := within (2 * half - 1) (by omega)
  have end_ : (2 * half - 1 + half) % (2 * half) = half - 1 := by
    have past : 2 * half - 1 + half = half - 1 + 2 * half := by omega
    rw [past, Nat.add_mod_right, Nat.mod_eq_of_lt (by omega)]
  rw [end_, decide_eq_decide] at high
  omega

theorem low_getLsbD {n : ℕ} (few : n < 64) (i : ℕ) : ((1#64 <<< n) - 1#64).getLsbD i = decide (i < n) := by
  have same : (1#64 <<< n) - 1#64 = BitVec.ofNat 64 (2 ^ n - 1) := by
    apply BitVec.eq_of_toNat_eq
    have power : 2 ^ n < 2 ^ 64 := Nat.pow_lt_pow_right (by decide) few
    have positive : 0 < 2 ^ n := Nat.two_pow_pos n
    have one : 1 % 2 ^ 64 = 1 := rfl
    rw [BitVec.toNat_sub, BitVec.toNat_shiftLeft, BitVec.toNat_ofNat, one, Nat.one_shiftLeft, Nat.mod_eq_of_lt power,
      BitVec.toNat_ofNat]
    omega
  rw [same, BitVec.getLsbD_ofNat, Nat.testBit_two_pow_sub_one]
  by_cases below : i < n
  · have inside : i < 64 := by omega
    simp [below, inside]
  · simp [below]

theorem countP_range_lt {n k : ℕ} (le : k ≤ n) : (List.range n).countP (fun i => decide (i < k)) = k := by
  induction n with
  | zero =>
    have none_ : k = 0 := by omega
    subst none_
    rfl
  | succ n ih =>
    rw [List.range_succ, List.countP_append, List.countP_singleton]
    by_cases last : k = n + 1
    · subst last
      have all : (List.range n).countP (fun i => decide (i < n + 1)) = (List.range n).length :=
        List.countP_eq_length.mpr fun i member => decide_eq_true (Nat.lt_succ_of_lt (List.mem_range.mp member))
      rw [all, List.length_range]
      simp
    · rw [ih (by omega)]
      have out : ¬ n < k := by omega
      simp [out]

theorem map_turn (size turn : ℕ) : (List.range size).map (fun i => (i + turn) % size) = (List.range size).rotate turn := by
  refine List.ext_getElem (by simp) fun i inside _ => ?_
  rw [List.getElem_map, List.getElem_rotate]
  simp

theorem countP_turn {size run : ℕ} (turn : ℕ) (le : run ≤ size) :
    (List.range size).countP (fun i => decide ((i + turn) % size < run)) = run := by
  have mapped : (List.range size).countP (fun i => decide ((i + turn) % size < run)) =
      ((List.range size).map fun i => (i + turn) % size).countP (fun i => decide (i < run)) := by
    rw [List.countP_map]
    rfl
  rw [mapped, map_turn, (List.rotate_perm _ _).countP_eq, countP_range_lt le]

end E5r.RotatedRuns
