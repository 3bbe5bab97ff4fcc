import Mathlib.Tactic.Common

/-!
Writing the same list of keyed writes twice. Where a write settles its key, so that
another write of the key overrides it and writes of other keys leave it alone, a second
pass over the list changes nothing (`replay`).
-/
namespace E5r.ReplayedWrites

variable {σ ω κ : Type}

/-- A key that was written once is settled: whether it is kept does not change again. -/
structure Settling (write : σ → ω → σ) (key : ω → κ) (Settled : σ → κ → Prop) : Prop where
  settles : ∀ s x, Settled (write s x) (key x)
  keeps : ∀ s k y, Settled s k → Settled (write s y) k
  again : ∀ s x, write (write s x) x = write s x
  overrides : ∀ s x y, key x = key y → Settled s (key x) → write (write s x) y = write s y
  commutes : ∀ s x y, key x ≠ key y → Settled s (key x) → write (write s x) y = write (write s y) x

namespace Settling
variable {write : σ → ω → σ} {key : ω → κ} {Settled : σ → κ → Prop} (laws : Settling write key Settled)
include laws

theorem foldl_overridden {x : ω} (rest : List ω) : ∀ {s : σ}, (∃ y ∈ rest, key x = key y) → Settled s (key x) →
    rest.foldl write (write s x) = rest.foldl write s := by
  induction rest with
  | nil => exact fun other => nomatch other
  | cons y rest ih =>
    intro s other settled
    rw [List.foldl_cons, List.foldl_cons]
    by_cases same : key x = key y
    · rw [laws.overrides s x y same settled]
    · obtain ⟨z, member, again⟩ := other
      have later : ∃ z ∈ rest, key x = key z := by
        rcases List.mem_cons.mp member with rfl | inside
        · exact absurd again same
        · exact ⟨z, inside, again⟩
      rw [laws.commutes s x y same settled, ih later (laws.keeps s _ y settled)]

/-- A write that the rest of the list leaves alone. -/
theorem foldl_apart {x : ω} (rest : List ω) : ∀ {s : σ}, (∀ y ∈ rest, key x ≠ key y) → Settled s (key x) →
    write (rest.foldl write s) x = rest.foldl write (write s x) := by
  induction rest with
  | nil => exact fun _ _ => rfl
  | cons y rest ih =>
    intro s apart settled
    rw [List.foldl_cons, List.foldl_cons, laws.commutes s x y (apart y List.mem_cons_self) settled]
    exact ih (fun z member => apart z (List.mem_cons_of_mem _ member)) (laws.keeps s _ y settled)

theorem foldl_keeps {k : κ} (rest : List ω) : ∀ {s : σ}, Settled s k → Settled (rest.foldl write s) k := by
  induction rest with
  | nil => exact fun settled => settled
  | cons y rest ih => exact fun settled => ih (laws.keeps _ k y settled)

theorem replay (writes : List ω) : ∀ s : σ, writes.foldl write (writes.foldl write s) = writes.foldl write s := by
  induction writes with
  | nil => exact fun _ => rfl
  | cons x rest ih =>
    intro s
    rw [List.foldl_cons, List.foldl_cons]
    by_cases other : ∃ y ∈ rest, key x = key y
    · rw [laws.foldl_overridden rest other (laws.foldl_keeps rest (laws.settles s x)), ih]
    · push Not at other
      rw [laws.foldl_apart rest other (laws.settles s x), laws.again, ih]
end Settling

end E5r.ReplayedWrites
