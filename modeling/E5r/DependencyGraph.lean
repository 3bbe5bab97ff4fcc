import Mathlib.Logic.Relation

/-!
Directed graphs as edge relations. A graph without cycles stays one when the
edges out of one vertex are replaced and none of their new ends leads back to it
(`Acyclic.redirect`). A worklist explores what is reachable (`Explored`).
-/
namespace E5r.DependencyGraph
open Relation

section
variable {α : Type*} {edge : α → α → Prop}

/-- No vertex leads back to itself. -/
def Acyclic (edge : α → α → Prop) : Prop := ∀ a, ¬TransGen edge a a

/-- The edges out of one vertex are replaced. -/
def redirect (edge : α → α → Prop) (v : α) (targets : α → Prop) (a b : α) : Prop :=
  (a = v ∧ targets b) ∨ (a ≠ v ∧ edge a b)

theorem acyclic_empty (none : ∀ a b, ¬edge a b) : Acyclic edge := by
  intro a cycle
  obtain ⟨b, first, -⟩ := TransGen.head'_iff.mp cycle
  exact none a b first

theorem Acyclic.congr {other : α → α → Prop} (acyclic : Acyclic edge) (same : ∀ a b, other a b → edge a b) :
    Acyclic other := by
  intro a cycle
  exact acyclic a (cycle.lift id same)

theorem redirect_path {v : α} {targets : α → Prop} {a b : α} (path : ReflTransGen (redirect edge v targets) a b) :
    ReflTransGen edge a b ∨ ReflTransGen edge a v := by
  induction path using ReflTransGen.head_induction_on with
  | refl => exact .inl .refl
  | @head a c first _ ih =>
    rcases first with ⟨rfl, -⟩ | ⟨-, old⟩
    · exact .inr .refl
    · rcases ih with through | back
      · exact .inl (.head old through)
      · exact .inr (.head old back)

theorem Acyclic.redirect {v : α} (targets : α → Prop) (acyclic : Acyclic edge)
    (apart : ∀ t, targets t → ¬ReflTransGen edge t v) : Acyclic (redirect edge v targets) := by
  -- no path leads from a new end back to the vertex, so no cycle passes through it
  have noLoop : ¬TransGen (DependencyGraph.redirect edge v targets) v v := by
    intro cycle
    obtain ⟨t, first, path⟩ := TransGen.head'_iff.mp cycle
    rcases first with ⟨-, target⟩ | ⟨other, -⟩
    · rcases redirect_path path with back | back
      · exact apart t target back
      · exact apart t target back
    · exact other rfl
  intro a cycle
  by_cases through : ReflTransGen (DependencyGraph.redirect edge v targets) a v ∧
      ReflTransGen (DependencyGraph.redirect edge v targets) v a
  · obtain ⟨there, back⟩ := through
    exact noLoop (TransGen.trans_right back (TransGen.trans_left cycle there))
  · -- every vertex of the cycle is another one, so all its edges are old
    have old {b c : α} (path : TransGen (DependencyGraph.redirect edge v targets) b c)
        (before : ReflTransGen (DependencyGraph.redirect edge v targets) a b)
        (after : ReflTransGen (DependencyGraph.redirect edge v targets) c a) : TransGen edge b c := by
      induction path with
      | single step =>
        rcases step with ⟨rfl, target⟩ | ⟨-, edge⟩
        · exact absurd ⟨before, .head (.inl ⟨rfl, target⟩) after⟩ through
        · exact .single edge
      | @tail x y path step ih =>
        rcases step with ⟨rfl, target⟩ | ⟨other, edge⟩
        · exact absurd ⟨before.trans path.to_reflTransGen, .head (.inl ⟨rfl, target⟩) after⟩ through
        · exact .tail (ih (.head (.inr ⟨other, edge⟩) after)) edge
    exact acyclic a (old cycle .refl .refl)

/-- What is known while a worklist runs: the roots and all successors of what has
    been seen are seen or pending. -/
structure Explored (edge : α → α → Prop) (roots : List α) (seen pending : List α) : Prop where
  roots : ∀ r ∈ roots, r ∈ seen ∨ r ∈ pending
  closed : ∀ a ∈ seen, ∀ b, edge a b → b ∈ seen ∨ b ∈ pending

namespace Explored
variable {roots seen pending : List α}

theorem start : Explored edge roots [] roots := ⟨fun _ member => .inr member, by simp⟩

/-- A vertex seen before is dropped. -/
theorem skip {a : α} (explored : Explored edge roots seen (a :: pending)) (old : a ∈ seen) :
    Explored edge roots seen pending := by
  have move {b : α} (known : b ∈ seen ∨ b ∈ a :: pending) : b ∈ seen ∨ b ∈ pending := by
    rcases known with inside | waiting
    · exact .inl inside
    · rcases List.mem_cons.mp waiting with rfl | later
      · exact .inl old
      · exact .inr later
  exact ⟨fun r root => move (explored.roots r root), fun b inside c step => move (explored.closed b inside c step)⟩

/-- A new vertex is seen, and its successors wait. -/
theorem visit {a : α} {successors : List α} (explored : Explored edge roots seen (a :: pending))
    (all : ∀ b, edge a b → b ∈ successors) : Explored edge roots (a :: seen) (successors ++ pending) := by
  have move {b : α} (known : b ∈ seen ∨ b ∈ a :: pending) : b ∈ a :: seen ∨ b ∈ successors ++ pending := by
    rcases known with inside | waiting
    · exact .inl (List.mem_cons_of_mem a inside)
    · rcases List.mem_cons.mp waiting with rfl | later
      · exact .inl List.mem_cons_self
      · exact .inr (List.mem_append_right successors later)
  refine ⟨fun r root => move (explored.roots r root), ?_⟩
  intro b inside c step
  rcases List.mem_cons.mp inside with rfl | old
  · exact .inr (List.mem_append_left pending (all c step))
  · exact move (explored.closed b old c step)

/-- With nothing pending, everything reachable has been seen. -/
theorem finish (explored : Explored edge roots seen []) {r b : α} (root : r ∈ roots) (path : ReflTransGen edge r b) :
    b ∈ seen := by
  induction path with
  | refl => simpa using explored.roots r root
  | tail _ step ih => simpa using explored.closed _ ih _ step

end Explored
end

end E5r.DependencyGraph
