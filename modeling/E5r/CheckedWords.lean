import Mathlib.Algebra.Group.Nat.Defs
import Mathlib.Data.Nat.Basic

/-!
Arithmetic on words of 64 bits, over which a program is written once. In `wrapping`
arithmetic its results wrap round; in `checked` arithmetic the program stops at the
first result that does not fit. Where the checked program does not stop, the wrapping
one answers the same: `bind_same` carries this through the steps of a program.
-/
namespace E5r.CheckedWords

/-- How sums, products and shift amounts are computed, with no value where they stop
    the program. -/
structure Arith where
  add : ℕ → ℕ → Option ℕ
  mul : ℕ → ℕ → Option ℕ
  amount : ℕ → Option ℕ

/-- Words as a release build has them. -/
def wrapping : Arith where
  add a b := some ((a + b) % 2 ^ 64)
  mul a b := some (a * b % 2 ^ 64)
  amount n := some (n % 64)

/-- Words where an overflow stops the program. -/
def checked : Arith where
  add a b := if a + b < 2 ^ 64 then some (a + b) else none
  mul a b := if a * b < 2 ^ 64 then some (a * b) else none
  amount n := if n < 64 then some n else none

@[simp] theorem checked_add {a b c : ℕ} : checked.add a b = some c ↔ a + b < 2 ^ 64 ∧ a + b = c := by
  simp [checked]

@[simp] theorem checked_mul {a b c : ℕ} : checked.mul a b = some c ↔ a * b < 2 ^ 64 ∧ a * b = c := by
  simp [checked]

@[simp] theorem checked_amount {n c : ℕ} : checked.amount n = some c ↔ n < 64 ∧ n = c := by
  simp [checked]

theorem wrapping_add {a b c : ℕ} (sum : checked.add a b = some c) : wrapping.add a b = some c := by
  rw [checked_add] at sum
  obtain ⟨fits, rfl⟩ := sum
  exact congrArg some (Nat.mod_eq_of_lt fits)

theorem wrapping_mul {a b c : ℕ} (product : checked.mul a b = some c) : wrapping.mul a b = some c := by
  rw [checked_mul] at product
  obtain ⟨fits, rfl⟩ := product
  exact congrArg some (Nat.mod_eq_of_lt fits)

theorem wrapping_amount {n c : ℕ} (shift : checked.amount n = some c) : wrapping.amount n = some c := by
  rw [checked_amount] at shift
  obtain ⟨fits, rfl⟩ := shift
  exact congrArg some (Nat.mod_eq_of_lt fits)

/-- Two programs answer the same when their first steps do and what follows does. -/
theorem bind_same {α β : Type} {x x' : Option α} {f f' : α → Option β} {r : β}
    (first : ∀ a, x = some a → x' = some a) (rest : ∀ a r, f a = some r → f' a = some r) (ran : x >>= f = some r) :
    x' >>= f' = some r := by
  obtain ⟨a, is, later⟩ := Option.bind_eq_some_iff.mp ran
  exact Option.bind_eq_some_iff.mpr ⟨a, first a is, rest a r later⟩

end E5r.CheckedWords
