import Mathlib.Data.List.Basic
import Mathlib.Tactic.Ring

/-!
The greatest length of a common subsequence of two lists, and tables that are filled
backwards.
-/
namespace E5r.CommonSubsequences

section
variable {α : Type} [DecidableEq α]

/-- The greatest length of a list that is a subsequence of both. -/
def lcsLength : List α → List α → ℕ
  | x :: xs, y :: ys => if x = y then lcsLength xs ys + 1 else max (lcsLength xs (y :: ys)) (lcsLength (x :: xs) ys)
  | _, _ => 0
termination_by xs ys => xs.length + ys.length

theorem lcsLength_nil (xs : List α) : lcsLength xs [] = 0 := by
  cases xs <;> rw [lcsLength] <;> simp

theorem nil_lcsLength (ys : List α) : lcsLength [] ys = 0 := by
  cases ys <;> rw [lcsLength] <;> simp

theorem lcsLength_same (x : α) (xs ys : List α) : lcsLength (x :: xs) (x :: ys) = lcsLength xs ys + 1 := by
  rw [lcsLength, if_pos rfl]

theorem lcsLength_other {x y : α} (different : x ≠ y) (xs ys : List α) :
    lcsLength (x :: xs) (y :: ys) = max (lcsLength xs (y :: ys)) (lcsLength (x :: xs) ys) := by
  rw [lcsLength, if_neg different]

/-- No common subsequence is longer. -/
theorem le_lcsLength {xs ys l : List α} (inXs : l.Sublist xs) (inYs : l.Sublist ys) : l.length ≤ lcsLength xs ys := by
  induction xs, ys using lcsLength.induct generalizing l with
  | case1 x xs ys ih =>
    rw [lcsLength_same]
    have shorter := ih inXs.tail inYs.tail
    rw [List.length_tail] at shorter
    omega
  | case2 x xs y ys different ihX ihY =>
    rw [lcsLength_other different]
    rcases List.sublist_cons_iff.mp inXs with later | ⟨rest, rfl, -⟩
    · exact (ihX later inYs).trans (le_max_left _ _)
    · rcases List.sublist_cons_iff.mp inYs with later | ⟨rest', same, -⟩
      · exact (ihY inXs later).trans (le_max_right _ _)
      · exact absurd (List.cons.inj same).1 different
  | case3 xs ys other =>
    cases xs with
    | nil =>
      rw [List.sublist_nil.mp inXs]
      exact Nat.zero_le _
    | cons x xs =>
      cases ys with
      | nil =>
        rw [List.sublist_nil.mp inYs]
        exact Nat.zero_le _
      | cons y ys => exact absurd rfl (other x xs y ys rfl)

end

/-- A loop that counts down keeps what each of its steps hands to the next. -/
theorem foldl_range_reverse {σ : Type} {f : σ → ℕ → σ} {holds : ℕ → σ → Prop} {n : ℕ} {s : σ} (start : holds n s)
    (step : ∀ k < n, ∀ s, holds (k + 1) s → holds k (f s k)) : holds 0 ((List.range n).reverse.foldl f s) := by
  induction n generalizing s with
  | zero => exact start
  | succ n ih =>
    rw [List.range_succ, List.reverse_append, List.reverse_singleton, List.singleton_append, List.foldl_cons]
    exact ih (step n (Nat.lt_succ_self n) s start) fun k below => step k (Nat.lt_succ_of_lt below)

theorem cell_inj {w i j i' j' : ℕ} (inRow : j < w) (inRow' : j' < w) (same : i * w + j = i' * w + j') : i = i' ∧ j = j' := by
  have rows : (i * w + j) / w = (i' * w + j') / w := by rw [same]
  have columns : (i * w + j) % w = (i' * w + j') % w := by rw [same]
  rw [Nat.add_comm, Nat.add_mul_div_right _ _ (by omega), Nat.div_eq_of_lt inRow, Nat.add_comm (i' * w),
    Nat.add_mul_div_right _ _ (by omega), Nat.div_eq_of_lt inRow'] at rows
  rw [Nat.add_comm, Nat.add_mul_mod_self_right, Nat.mod_eq_of_lt inRow, Nat.add_comm (i' * w),
    Nat.add_mul_mod_self_right, Nat.mod_eq_of_lt inRow'] at columns
  omega

end E5r.CommonSubsequences
