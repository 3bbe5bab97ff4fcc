import E5r.RustText

/-!
Numbers written out in digits and read back.
-/
namespace E5r.Numerals
open RustText

/-- The character of a digit below a radix, read back and kept by `f`. -/
structure ReadsDigits (radix : ℕ) (f : Char → Char) : Prop where
  base : 1 < radix
  digit : ∀ d < radix, toDigit radix (f (Nat.digitChar d)) = some d

theorem readsDigits_decimal : ReadsDigits 10 id := ⟨by decide, by decide⟩
theorem readsDigits_hex : ReadsDigits 16 Char.toUpper := ⟨by decide, by decide⟩

theorem toDigits_read {radix : ℕ} {f : Char → Char} (reads : ReadsDigits radix f) (n : ℕ) :
    ∃ ds, ((Nat.toDigits radix n).map f).mapM (toDigit radix) = some ds ∧
      ds.foldl (fun v d => v * radix + d) 0 = n := by
  have base := reads.base
  induction n using Nat.strongRecOn with
  | ind n ih =>
    rw [Nat.toDigits_eq_if base]
    split
    · next small =>
      exact ⟨[n], by simp [reads.digit n small], by simp⟩
    · next large =>
      obtain ⟨ds, read, value⟩ := ih (n / radix) (Nat.div_lt_self (by omega) base)
      have last := reads.digit (n % radix) (Nat.mod_lt n (by omega))
      refine ⟨ds ++ [n % radix], ?_, ?_⟩
      · rw [List.map_append, List.mapM_append, read]
        simp [last]
      · rw [List.foldl_append, value]
        simp only [List.foldl_cons, List.foldl_nil]
        rw [Nat.mul_comm]
        exact Nat.div_add_mod n radix

theorem mem_toDigits {radix : ℕ} (base : 1 < radix) {n : ℕ} {c : Char} (member : c ∈ Nat.toDigits radix n) :
    ∃ d < radix, c = Nat.digitChar d := by
  induction n using Nat.strongRecOn with
  | ind n ih =>
    rw [Nat.toDigits_eq_if base] at member
    split at member
    · next small => exact ⟨n, small, by simpa using member⟩
    · next large =>
      rcases List.mem_append.mp member with front | last
      · exact ih (n / radix) (Nat.div_lt_self (by omega) base) front
      · exact ⟨n % radix, Nat.mod_lt n (by omega), by simpa using last⟩

/-- A number other than zero has no leading zero. -/
theorem toDigits_head {n : ℕ} (positive : 0 < n) : (Nat.toDigits 10 n).head? ≠ some '0' := by
  induction n using Nat.strongRecOn with
  | ind n ih =>
    rw [Nat.toDigits_eq_if (by decide)]
    split
    · next small =>
      have : ∀ d < 10, 0 < d → Nat.digitChar d ≠ '0' := by decide
      simpa using this n small positive
    · next large =>
      have := ih (n / 10) (Nat.div_lt_self positive (by decide)) (by omega)
      have nonempty : 0 < (Nat.toDigits 10 (n / 10)).length := Nat.length_toDigits_pos
      rw [List.head?_append_of_ne_nil _ (List.ne_nil_of_length_pos nonempty)]
      exact this

private theorem leftpad_snoc {k : ℕ} {xs : List Char} (c : Char) :
    (xs ++ [c]).leftpad (k + 1) '0' = xs.leftpad k '0' ++ [c] := by
  rw [List.leftpad, List.leftpad, List.length_append, List.length_singleton, Nat.add_sub_add_right, List.append_assoc]

theorem toDigits_group {k q r : ℕ} (some : 0 < k) (positive : 0 < q) (below : r < 10 ^ k) :
    Nat.toDigits 10 (10 ^ k * q + r) = Nat.toDigits 10 q ++ (Nat.toDigits 10 r).leftpad k '0' := by
  induction k generalizing r with
  | zero => omega
  | succ k ih =>
    by_cases single : k = 0
    · subst single
      have digit : r < 10 := by simpa using below
      rw [Nat.toDigits_of_lt_base digit, Nat.zero_add, Nat.pow_one,
        ← Nat.toDigits_append_toDigits (by decide) positive digit, Nat.toDigits_of_lt_base digit]
      rfl
    · have last : r % 10 < 10 := Nat.mod_lt r (by decide)
      have front : r / 10 < 10 ^ k := by
        rw [Nat.pow_succ] at below
        omega
      have split : 10 ^ (k + 1) * q + r = 10 * (10 ^ k * q + r / 10) + r % 10 := by
        have := Nat.div_add_mod r 10
        rw [Nat.pow_succ', Nat.mul_assoc]
        omega
      have large : 0 < 10 ^ k * q + r / 10 := by
        have := Nat.mul_pos (Nat.pow_pos (n := k) (show 0 < 10 by decide)) positive
        omega
      rw [split, ← Nat.toDigits_append_toDigits (by decide) large last, ih (by omega) front, List.append_assoc,
        Nat.toDigits_of_lt_base last, ← leftpad_snoc]
      congr 1
      rcases Nat.eq_zero_or_pos (r / 10) with zero | more
      · have small : r < 10 := by omega
        rw [zero, Nat.toDigits_of_lt_base small, Nat.mod_eq_of_lt small, Nat.toDigits_zero]
        obtain ⟨j, rfl⟩ : ∃ j, k = j + 1 := ⟨k - 1, by omega⟩
        simp [List.leftpad, List.replicate_succ']
      · conv_rhs => rw [← Nat.div_add_mod r 10]
        rw [← Nat.toDigits_append_toDigits (by decide) more last, Nat.toDigits_of_lt_base last]

end E5r.Numerals
