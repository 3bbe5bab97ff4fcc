import Mathlib.Data.List.Basic

/-!
Lists cut into chunks of one length, the last one of what is left.
-/
namespace E5r.Chunks

variable {α β : Type}

/-- The parts of a list of `n` members each, the last one of the rest. -/
def chunks (n : ℕ) (xs : List α) : List (List α) :=
  (List.range ((xs.length + n - 1) / n)).map fun i => (xs.drop (i * n)).take n

theorem chunks_nil {n : ℕ} (some : 0 < n) : chunks n ([] : List α) = [] := by
  have none : (n - 1) / n = 0 := Nat.div_eq_of_lt (by omega)
  simp [chunks, none]

theorem chunks_step {n : ℕ} (some : 0 < n) {xs : List α} (nonempty : xs ≠ []) :
    chunks n xs = xs.take n :: chunks n (xs.drop n) := by
  have count : (xs.length + n - 1) / n = ((xs.drop n).length + n - 1) / n + 1 := by
    have positive := List.length_pos_of_ne_nil nonempty
    rw [List.length_drop]
    by_cases long : n ≤ xs.length
    · rw [← Nat.add_div_right _ some]
      congr 1
      omega
    · have first : xs.length + n - 1 = (xs.length - 1) + n := by omega
      rw [first, Nat.add_div_right _ some, Nat.div_eq_of_lt (by omega), Nat.div_eq_of_lt (by omega)]
  rw [chunks, chunks, count, List.range_succ_eq_map, List.map_cons, List.map_map, Nat.zero_mul, List.drop_zero]
  congr 1
  apply List.map_congr_left
  intro i _
  simp only [Function.comp_apply, Nat.succ_eq_add_one, List.drop_drop]
  rw [Nat.succ_mul, Nat.add_comm]

theorem chunks_flatMap {n : ℕ} (some : 0 < n) {f : α → List β} (xs : List α) (equal : ∀ x ∈ xs, (f x).length = n) :
    chunks n (xs.flatMap f) = xs.map f := by
  induction xs with
  | nil => exact chunks_nil some
  | cons x xs ih =>
    have first := equal x (List.mem_cons_self ..)
    have rest := ih (fun y inside => equal y (List.mem_cons_of_mem x inside))
    have nonempty : (x :: xs).flatMap f ≠ [] := by
      intro empty
      rw [List.flatMap_cons, List.append_eq_nil_iff] at empty
      rw [empty.1] at first
      exact absurd first (by simp only [List.length_nil]; omega)
    rw [chunks_step some nonempty, List.flatMap_cons, ← first, List.take_left, List.drop_left, first, rest,
      List.map_cons]

theorem chunks_get {n : ℕ} (some : 0 < n) {xs : List α} {i : ℕ} (inside : i < xs.length) :
    ∃ part, (chunks n xs)[i / n]? = Option.some part ∧ part[i % n]? = xs[i]? := by
  have index : i / n < (xs.length + n - 1) / n := by
    rw [Nat.div_lt_iff_lt_mul some]
    have whole := Nat.div_add_mod (xs.length + n - 1) n
    have rest := Nat.mod_lt (xs.length + n - 1) some
    rw [Nat.mul_comm]
    omega
  refine ⟨(xs.drop (i / n * n)).take n, ?_, ?_⟩
  · rw [chunks, List.getElem?_map, List.getElem?_range index]
    rfl
  · have split := Nat.div_add_mod i n
    rw [List.getElem?_take_of_lt (Nat.mod_lt i some), List.getElem?_drop, Nat.mul_comm, split]

end E5r.Chunks
