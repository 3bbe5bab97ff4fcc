import E5r.Cursor
import E5r.Fallible

/-!
Steps of a computation that refuses its input with a reason or panics, by an
overflow or a slice that is out of range: what they return, and how a chain of
them goes on.
-/
namespace E5r.Checked
open Fallible (bind_some_ok_iff bind_ok)
open Cursor (leNat leNat_lt)

abbrev Run (ε : Type) := ExceptT ε Option

section
variable {ε α : Type}

/-- `return Err` under a condition. -/
def refuse (c : Prop) [Decidable c] (e : ε) : Run ε Unit := if c then throw e else pure ()

/-- `ok_or` -/
def orElse (x : Option α) (e : ε) : Run ε α :=
  match x with
  | some a => pure a
  | none => throw e

/-- A sum of 64-bit numbers. -/
def add (a b : ℕ) : Run ε ℕ := if a + b < 2 ^ 64 then some (.ok (a + b)) else none
def mul (a b : ℕ) : Run ε ℕ := if a * b < 2 ^ 64 then some (.ok (a * b)) else none

def checkedAdd (a b : ℕ) : Option ℕ := if a + b < 2 ^ 64 then some (a + b) else none

/-- `b.get(i..j)` -/
def get (b : List UInt8) (i j : ℕ) : Option (List UInt8) :=
  if i ≤ j ∧ j ≤ b.length then some ((b.drop i).take (j - i)) else none

/-- `b[i..j]` -/
def slice (b : List UInt8) (i j : ℕ) : Run ε (List UInt8) := (get b i j).map .ok
end

section
variable {ε α β : Type} {a : α} {c : Prop} [Decidable c] {e : ε} {x : Option α} {m n : ℕ}

@[simp] theorem pure_ok {b : α} : (pure a : Run ε α) = some (.ok b) ↔ a = b := by
  constructor
  · rintro ⟨⟩
    rfl
  · rintro rfl
    rfl

@[simp] theorem pure_returns : (pure a : Run ε α) ≠ none := nofun

@[simp] theorem throw_ok : (throw e : Run ε α) = some (.ok a) ↔ False := by
  constructor
  · rintro ⟨⟩
  · exact False.elim

@[simp] theorem throw_returns : (throw e : Run ε α) ≠ none := nofun

@[simp] theorem refuse_ok {u : Unit} : refuse c e = some (.ok u) ↔ ¬c := by
  unfold refuse
  split
  · next holds =>
    simp only [holds, not_true_eq_false, iff_false]
    rintro ⟨⟩
  · next fails => exact ⟨fun _ => fails, fun _ => rfl⟩

@[simp] theorem refuse_returns : refuse c e ≠ none := by
  unfold refuse
  split <;> rintro ⟨⟩

theorem refuse_bind {f : Unit → Run ε α} (fails : ¬c) : (refuse c e >>= f) = f () := bind_ok f (refuse_ok.mpr fails)

theorem refuse_goes {f : Unit → Run ε α} (goes : ∀ e', (refuse c e >>= f) ≠ some (.error e')) :
    ¬c ∧ ∀ e', f () ≠ some (.error e') := by
  by_cases fails : c
  · refine absurd ?_ (goes e)
    rw [refuse, if_pos fails]
    rfl
  · rw [refuse_bind fails] at goes
    exact ⟨fails, goes⟩

@[simp] theorem orElse_ok : orElse x e = some (.ok a) ↔ x = some a := by
  cases x with
  | none => exact ⟨nofun, nofun⟩
  | some b =>
    constructor
    · rintro ⟨⟩
      rfl
    · rintro ⟨⟩
      rfl

@[simp] theorem orElse_returns : orElse x e ≠ none := by
  cases x <;> rintro ⟨⟩

theorem add_eq (fits : m + n < 2 ^ 64) : (add m n : Run ε ℕ) = some (.ok (m + n)) := if_pos fits

theorem add_none (large : 2 ^ 64 ≤ m + n) : (add m n : Run ε ℕ) = none := if_neg (not_lt.mpr large)

theorem mul_eq (fits : m * n < 2 ^ 64) : (mul m n : Run ε ℕ) = some (.ok (m * n)) := if_pos fits

theorem checkedAdd_eq (fits : m + n < 2 ^ 64) : checkedAdd m n = some (m + n) := if_pos fits

theorem get_inside {b : List UInt8} {i j : ℕ} (low : i ≤ j) (high : j ≤ b.length) :
    get b i j = some ((b.drop i).take (j - i)) := if_pos ⟨low, high⟩

theorem get_outside {b : List UInt8} {i j : ℕ} (high : b.length < j) : get b i j = none :=
  if_neg fun inside => absurd inside.2 (not_le.mpr high)

theorem slice_eq {b : List UInt8} {i j : ℕ} (low : i ≤ j) (high : j ≤ b.length) :
    (slice b i j : Run ε (List UInt8)) = some (.ok ((b.drop i).take (j - i))) := by
  rw [slice, get_inside low high]
  rfl
end

end E5r.Checked
