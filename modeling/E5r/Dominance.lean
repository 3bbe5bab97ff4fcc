import Mathlib.Logic.Relation
import Mathlib.Data.List.Nodup
import Mathlib.Data.Nat.Init

/-!
# Dominance

A vertex dominates another when every walk from the entry to it passes through the first. A
tree of parents is brought closer to dominance by moving one vertex below the closest common
ancestor of its predecessors; whatever holds of the tree on the way is stated on a ranking of
the vertices in which parents come first.
-/

namespace E5r.Dominance

variable {V : Type} {E : V → V → Prop} {entry : V}

/-- A walk from the entry, with the vertices it passes, last first. -/
inductive Walk (E : V → V → Prop) (entry : V) : V → List V → Prop
  | start : Walk E entry entry [entry]
  | step {p v : V} {π : List V} : Walk E entry p π → E p v → Walk E entry v (v :: π)

def Reachable (E : V → V → Prop) (entry v : V) : Prop :=
  ∃ π, Walk E entry v π

/-- Every walk to the second passes through the first. -/
def Dominates (E : V → V → Prop) (entry d v : V) : Prop :=
  ∀ π, Walk E entry v π → d ∈ π

/-- The closest strict dominator. -/
structure Immediate (E : V → V → Prop) (entry d v : V) : Prop where
  dominates : Dominates E entry d v
  strict : d ≠ v
  closest : ∀ c, Dominates E entry c v → c ≠ v → Dominates E entry c d

variable {v : V} {π : List V}

theorem Walk.mem_self (walk : Walk E entry v π) : v ∈ π := by
  cases walk <;> exact List.mem_cons_self

theorem Walk.mem_entry (walk : Walk E entry v π) : entry ∈ π := by
  induction walk with
  | start => exact List.mem_cons_self
  | step _ _ ih => exact List.mem_cons_of_mem _ ih

theorem Walk.part {c : V} (walk : Walk E entry v π) (on : c ∈ π) : ∃ ρ, Walk E entry c ρ ∧ ρ <:+ π := by
  induction walk with
  | start =>
    obtain rfl := List.mem_singleton.mp on
    exact ⟨_, .start, List.suffix_refl _⟩
  | @step p v π walk edge ih =>
    rcases List.mem_cons.mp on with rfl | earlier
    · exact ⟨_, .step walk edge, List.suffix_refl _⟩
    · obtain ⟨ρ, part, suffix⟩ := ih earlier
      exact ⟨ρ, part, suffix.trans (List.suffix_cons v π)⟩

theorem Walk.simple (walk : Walk E entry v π) : ∃ ρ, Walk E entry v ρ ∧ ρ.Nodup ∧ ρ ⊆ π := by
  classical
  induction walk with
  | start => exact ⟨_, .start, List.nodup_singleton _, fun _ => id⟩
  | @step p v π walk edge ih =>
    obtain ⟨ρ, part, nodup, subset⟩ := ih
    by_cases again : v ∈ ρ
    · obtain ⟨τ, shorter, suffix⟩ := part.part again
      exact ⟨τ, shorter, nodup.sublist suffix.sublist,
        fun x on => List.mem_cons_of_mem _ (subset (suffix.subset on))⟩
    · exact ⟨v :: ρ, .step part edge, List.nodup_cons.mpr ⟨again, nodup⟩, List.cons_subset_cons v subset⟩

theorem Walk.extend {r : V → Prop} {u : V} (walk : Walk E entry u π)
    (path : Relation.ReflTransGen (fun a b => E a b ∧ r b) u v) : ∃ ρ, Walk E entry v ρ ∧ ∀ x ∈ ρ, x ∈ π ∨ r x := by
  induction path with
  | refl => exact ⟨π, walk, fun _ => .inl⟩
  | @tail a b _ edge ih =>
    obtain ⟨ρ, part, within⟩ := ih
    refine ⟨b :: ρ, .step part edge.1, ?_⟩
    intro x on
    rcases List.mem_cons.mp on with rfl | earlier
    · exact .inr edge.2
    · exact within x earlier

theorem dominates_entry {d : V} (dominates : Dominates E entry d entry) : d = entry :=
  List.mem_singleton.mp (dominates _ .start)

theorem Dominates.before {d p : V} (dominates : Dominates E entry d v) (strict : d ≠ v) (edge : E p v) :
    Dominates E entry d p := by
  intro π walk
  rcases List.mem_cons.mp (dominates _ (.step walk edge)) with same | on
  · exact absurd same strict
  · exact on

variable {rank : V → ℕ}

/-- A walk that goes against the ranking so many times at most. -/
inductive Tour (E : V → V → Prop) (entry : V) (rank : V → ℕ) : ℕ → V → List V → Prop
  | start {k : ℕ} : Tour E entry rank k entry [entry]
  | forward {k : ℕ} {p v : V} {π : List V} : Tour E entry rank k p π → E p v → rank p < rank v →
    Tour E entry rank k v (v :: π)
  | back {k : ℕ} {p v : V} {π : List V} : Tour E entry rank k p π → E p v → Tour E entry rank (k + 1) v (v :: π)

variable {k : ℕ}

theorem Tour.walk (tour : Tour E entry rank k v π) : Walk E entry v π := by
  induction tour with
  | start => exact .start
  | forward _ edge _ ih => exact .step ih edge
  | back _ edge ih => exact .step ih edge

theorem Tour.mono {j : ℕ} (tour : Tour E entry rank j v π) (le : j ≤ k) : Tour E entry rank k v π := by
  induction tour generalizing k with
  | start => exact .start
  | forward _ edge up ih => exact .forward (ih le) edge up
  | @back j p v π _ edge ih =>
    obtain ⟨i, rfl⟩ : ∃ i, k = i + 1 := ⟨k - 1, by omega⟩
    exact .back (ih (by omega)) edge

theorem Tour.part {c : V} (tour : Tour E entry rank k v π) (on : c ∈ π) : ∃ ρ, Tour E entry rank k c ρ ∧ ρ ⊆ π := by
  induction tour with
  | start =>
    obtain rfl := List.mem_singleton.mp on
    exact ⟨_, .start, fun _ => id⟩
  | @forward k p v π tour edge up ih =>
    rcases List.mem_cons.mp on with rfl | earlier
    · exact ⟨_, .forward tour edge up, fun _ => id⟩
    · obtain ⟨ρ, part, subset⟩ := ih earlier
      exact ⟨ρ, part, fun x member => List.mem_cons_of_mem _ (subset member)⟩
  | @back k p v π tour edge ih =>
    rcases List.mem_cons.mp on with rfl | earlier
    · exact ⟨_, .back tour edge, fun _ => id⟩
    · obtain ⟨ρ, part, subset⟩ := ih earlier
      exact ⟨ρ, part.mono (Nat.le_succ k), fun x member => List.mem_cons_of_mem _ (subset member)⟩

theorem Walk.tour (walk : Walk E entry v π) (first : ∀ v, v ≠ entry → rank entry < rank v) (nodup : π.Nodup) :
    Tour E entry rank (π.length - 2) v π := by
  induction walk with
  | start => exact .start
  | @step p v π walk edge ih =>
    obtain ⟨other, nodup⟩ := List.nodup_cons.mp nodup
    cases walk with
    | start => exact .forward .start edge (first v (by simpa using other))
    | @step q p π walk edge' =>
      have tour := ih nodup
      cases π with
      | nil => cases walk
      | cons c π => exact Tour.back tour edge

/-- The first is the second or one of its ancestors. -/
inductive Above (parent : V → Option V) : V → V → Prop
  | refl (v : V) : Above parent v v
  | step {a u v : V} : parent v = some u → Above parent a u → Above parent a v

/-- The root is its own parent, and other parents come before their children. -/
structure Tree (entry : V) (rank : V → ℕ) (parent : V → Option V) : Prop where
  root : parent entry = some entry
  up : ∀ v u, parent v = some u → v ≠ entry → rank u < rank v ∧ parent u ≠ none

section Trees

variable {parent : V → Option V}

variable {a u v : V}

theorem above_parent (child : parent v = some u) : Above parent a v ↔ a = v ∨ Above parent a u := by
  constructor
  · intro above
    cases above with
    | refl => exact .inl rfl
    | step child' above =>
      cases child.symm.trans child'
      exact .inr above
  · rintro (rfl | above)
    · exact .refl _
    · exact .step child above

theorem Tree.above_entry (tree : Tree entry rank parent) : Above parent a entry ↔ a = entry := by
  constructor
  · intro above
    generalize same : entry = v at above
    induction above with
    | refl => rfl
    | step child _ ih =>
      subst same
      cases tree.root.symm.trans child
      exact ih rfl
  · rintro rfl
    exact .refl _

theorem Tree.known (tree : Tree entry rank parent) (child : parent v = some u) : parent u ≠ none := by
  classical
  by_cases root : v = entry
  · subst root
    cases tree.root.symm.trans child
    simp [tree.root]
  · exact (tree.up v u child root).2

theorem Above.known (above : Above parent a v) (tree : Tree entry rank parent) (known : parent v ≠ none) :
    parent a ≠ none := by
  induction above with
  | refl => exact known
  | step child _ ih => exact ih (tree.known child)

theorem Above.rank_le (above : Above parent a v) (tree : Tree entry rank parent) : rank a ≤ rank v := by
  classical
  induction above with
  | refl => exact Nat.le_refl _
  | @step u v child _ ih =>
    by_cases root : v = entry
    · subst root
      cases tree.root.symm.trans child
      exact ih
    · exact Nat.le_trans ih (Nat.le_of_lt (tree.up v u child root).1)

theorem Above.eq_of_rank (above : Above parent a v) (tree : Tree entry rank parent) (same : rank v ≤ rank a) :
    a = v := by
  classical
  cases above with
  | refl => rfl
  | @step u _ child above =>
    by_cases root : v = entry
    · subst root
      cases tree.root.symm.trans child
      exact tree.above_entry.mp above
    · have := (tree.up v u child root).1
      have := above.rank_le tree
      omega

theorem Tree.entry_above (tree : Tree entry rank parent) (known : parent v ≠ none) : Above parent entry v := by
  classical
  induction order : rank v using Nat.strong_induction_on generalizing v with
  | _ n ih =>
    by_cases root : v = entry
    · subst root
      exact .refl _
    · obtain ⟨u, child⟩ := Option.ne_none_iff_exists'.mp known
      obtain ⟨lower, known⟩ := tree.up v u child root
      exact .step child (ih (rank u) (by omega) known rfl)

variable {n : V}

/-- The vertices of lower rank keep their ancestors when a parent changes. -/
theorem above_update [DecidableEq V] (tree : Tree entry rank parent) {x y : V} (lower : rank y < rank v) :
    Above (Function.update parent v (some n)) x y ↔ Above parent x y := by
  have other : ∀ {y u}, rank y < rank v → parent y = some u → rank u < rank v := by
    intro y u lower child
    by_cases root : y = entry
    · subst root
      cases tree.root.symm.trans child
      exact lower
    · exact Nat.lt_trans (tree.up y u child root).1 lower
  constructor
  · intro above
    induction above with
    | refl => exact .refl _
    | step child _ ih =>
      rw [Function.update_of_ne (by rintro rfl; omega)] at child
      exact .step child (ih (other lower child))
  · intro above
    induction above with
    | refl => exact .refl _
    | step child _ ih =>
      refine .step ?_ (ih (other lower child))
      rw [Function.update_of_ne (by rintro rfl; omega)]
      exact child

/-- A tree whose ancestors dominate or have been met: no dominator of a vertex is missing
    among its ancestors, and each parent leads to its child above its own rank. -/
structure Sound (E : V → V → Prop) (entry : V) (rank : V → ℕ) (parent : V → Option V) : Prop extends
    Tree entry rank parent where
  leads : ∀ v u, parent v = some u → v ≠ entry → Relation.ReflTransGen (fun a b => E a b ∧ rank u < rank b) u v
  covers : ∀ v d, parent v ≠ none → Dominates E entry d v → Above parent d v

/-- The closest common ancestor of the predecessors that have a parent. -/
structure Meets (E : V → V → Prop) (rank : V → ℕ) (parent : V → Option V) (v n : V) : Prop where
  known : parent n ≠ none
  common : ∀ x, Above parent x n ↔ ∀ p, E p v → parent p ≠ none → Above parent x p
  forward : ∃ q, E q v ∧ parent q ≠ none ∧ rank q < rank v

theorem Meets.rank_lt (meets : Meets E rank parent v n) (tree : Tree entry rank parent) : rank n < rank v := by
  obtain ⟨q, edge, known, lower⟩ := meets.forward
  exact Nat.lt_of_le_of_lt (((meets.common n).mp (.refl n) q edge known).rank_le tree) lower

theorem Above.leads (above : Above parent a v) (sound : Sound E entry rank parent) :
    Relation.ReflTransGen (fun x y => E x y ∧ rank a < rank y) a v := by
  classical
  induction above with
  | refl => exact .refl
  | @step u v child above ih =>
    by_cases root : v = entry
    · subst root
      cases sound.root.symm.trans child
      exact ih
    · have lower := above.rank_le sound.toTree
      refine ih.trans (Relation.ReflTransGen.mono ?_ u v (sound.leads v u child root))
      rintro x y ⟨edge, higher⟩
      exact ⟨edge, Nat.lt_of_le_of_lt lower higher⟩

variable [DecidableEq V]

theorem Sound.update_tree (sound : Sound E entry rank parent) (other : v ≠ entry) (meets : Meets E rank parent v n) :
    Tree entry rank (Function.update parent v (some n)) := by
  have below := meets.rank_lt sound.toTree
  constructor
  · rw [Function.update_of_ne other.symm]
    exact sound.root
  · intro y u child inner
    by_cases same : y = v
    · subst same
      rw [Function.update_self] at child
      cases child
      refine ⟨below, ?_⟩
      rw [Function.update_of_ne (by rintro rfl; omega)]
      exact meets.known
    · rw [Function.update_of_ne same] at child
      obtain ⟨lower, known⟩ := sound.up y u child inner
      refine ⟨lower, ?_⟩
      by_cases moved : u = v
      · rw [moved, Function.update_self]
        simp
      · rwa [Function.update_of_ne moved]

theorem Sound.update (sound : Sound E entry rank parent) (other : v ≠ entry) (meets : Meets E rank parent v n) :
    Sound E entry rank (Function.update parent v (some n)) := by
  have below := meets.rank_lt sound.toTree
  have tree := sound.update_tree other meets
  refine { toTree := tree, leads := ?_, covers := ?_ }
  · intro y u child inner
    by_cases same : y = v
    · subst same
      rw [Function.update_self] at child
      cases child
      obtain ⟨q, edge, known, lower⟩ := meets.forward
      have path := ((meets.common n).mp (.refl n) q edge known).leads sound
      exact path.tail ⟨edge, below⟩
    · rw [Function.update_of_ne same] at child
      exact sound.leads y u child inner
  · intro y d known dominates
    induction order : rank y using Nat.strong_induction_on generalizing y with
    | _ k ih =>
      by_cases root : y = entry
      · subst root
        rw [dominates_entry dominates]
        exact .refl _
      by_cases strict : d = y
      · subst strict
        exact .refl _
      by_cases same : y = v
      · subst same
        have above : Above parent d n := (meets.common d).mpr fun p edge known =>
          sound.covers p d known (dominates.before strict edge)
        refine .step (Function.update_self ..) ?_
        rwa [above_update sound.toTree below]
      · rw [Function.update_of_ne same] at known
        obtain ⟨u, child⟩ := Option.ne_none_iff_exists'.mp known
        have lower := (sound.up y u child root).1
        have above : Above parent d u := by
          rcases (above_parent child).mp (sound.covers y d known dominates) with same | upper
          · exact absurd same strict
          · exact upper
        -- a walk to the parent that misses the vertex goes on to the child above the parent's rank
        have upper : Dominates E entry d u := by
          intro π walk
          by_contra missed
          obtain ⟨ρ, longer, within⟩ := walk.extend (sound.leads y u child root)
          rcases within d (dominates ρ longer) with on | higher
          · exact missed on
          · have := above.rank_le sound.toTree
            omega
        have child' : Function.update parent v (some n) y = some u := by
          rw [Function.update_of_ne same]
          exact child
        exact .step child' (ih (rank u) (by omega) u (tree.known child') upper rfl)

/-- The ancestors of every vertex are on its tours against the ranking of fewer than `k`
    times, and on those of `k` times where the vertex ranks at most `i`. -/
def Near (E : V → V → Prop) (entry : V) (rank : V → ℕ) (parent : V → Option V) (k i : ℕ) : Prop :=
  ∀ c j π, parent c ≠ none → Tour E entry rank j c π → (j < k ∨ j = k ∧ rank c ≤ i) → ∀ x, Above parent x c → x ∈ π

/-- Moving the next vertex of the ranking brings the tree one vertex nearer. -/
theorem Near.update {k i : ℕ} (near : Near E entry rank parent k i) (sound : Sound E entry rank parent)
    (other : v ≠ entry) (meets : Meets E rank parent v n) (turn : rank v = i + 1)
    (distinct : ∀ c, parent c ≠ none → rank c = rank v → c = v)
    (lower : ∀ p, Reachable E entry p → rank p < rank v → parent p ≠ none)
    (later : 0 < k → ∀ p, Reachable E entry p → parent p ≠ none) :
    Near E entry rank (Function.update parent v (some n)) k (i + 1) := by
  have below := meets.rank_lt sound.toTree
  intro c
  induction order : rank c using Nat.strong_induction_on generalizing c with
  | _ r ih =>
    intro j π known tour bound x above
    by_cases same : c = v
    · subst same
      rcases (above_parent (Function.update_self ..)).mp above with rfl | upper
      · exact tour.walk.mem_self
      · rw [above_update sound.toTree below] at upper
        cases tour with
        | start => exact absurd rfl other
        | @forward _ p _ π tour edge up =>
          have known := lower p ⟨π, tour.walk⟩ up
          refine List.mem_cons_of_mem _ (near p j π known tour ?_ x ((meets.common x).mp upper p edge known))
          omega
        | @back j p _ π tour edge =>
          have known := later (by omega) p ⟨π, tour.walk⟩
          refine List.mem_cons_of_mem _ (near p j π known tour ?_ x ((meets.common x).mp upper p edge known))
          omega
    · rw [Function.update_of_ne same] at known
      obtain ⟨u, child⟩ := Option.ne_none_iff_exists'.mp known
      have child' : Function.update parent v (some n) c = some u := by
        rw [Function.update_of_ne same]
        exact child
      rcases (above_parent child').mp above with rfl | upper
      · exact tour.walk.mem_self
      by_cases root : c = entry
      · subst root
        cases sound.root.symm.trans child
        rw [(sound.update_tree other meets).above_entry.mp upper]
        exact tour.walk.mem_entry
      have up := (sound.up c u child root).1
      have old : j < k ∨ j = k ∧ rank c ≤ i := by
        rcases bound with fewer | ⟨equal, low⟩
        · exact .inl fewer
        · have : rank c ≠ i + 1 := fun at_ => same (distinct c known (at_.trans turn.symm))
          exact .inr ⟨equal, by omega⟩
      have on := near c j π known tour old u (.step child (.refl u))
      obtain ⟨ρ, part, subset⟩ := tour.part on
      refine subset (ih (rank u) (by omega) u rfl j ρ ?_ part (by omega) x upper)
      exact (sound.update_tree other meets).known child'

theorem Near.next {k i : ℕ} (near : Near E entry rank parent k i) (tree : Tree entry rank parent)
    (all : ∀ c, parent c ≠ none → rank c ≤ i) (first : ∀ c, parent c ≠ none → rank c ≤ 0 → c = entry) :
    Near E entry rank parent (k + 1) 0 := by
  intro c j π known tour bound x above
  rcases bound with fewer | ⟨-, low⟩
  · exact near c j π known tour (by have := all c known; omega) x above
  · obtain rfl := first c known low
    rw [tree.above_entry.mp above]
    exact tour.walk.mem_entry

theorem sound_start : Sound E entry rank (Function.update (fun _ => none) entry (some entry)) := by
  have only : ∀ {v u}, Function.update (fun _ => none) entry (some entry) v = some u → v = entry := by
    intro v u child
    by_contra other
    rw [Function.update_of_ne other] at child
    cases child
  refine { root := Function.update_self .., up := ?_, leads := ?_, covers := ?_ }
  · intro v u child other
    exact absurd (only child) other
  · intro v u child other
    exact absurd (only child) other
  · intro v d known dominates
    obtain ⟨u, child⟩ := Option.ne_none_iff_exists'.mp known
    obtain rfl := only child
    rw [dominates_entry dominates]
    exact .refl _

theorem near_start : Near E entry rank (Function.update (fun _ => none) entry (some entry)) 0 0 := by
  intro c j π known tour _ x above
  have root : c = entry := by
    by_contra other
    rw [Function.update_of_ne other] at known
    exact known rfl
  subst root
  have tree : Tree c rank (Function.update (fun _ => none) c (some c)) := sound_start.toTree (E := E)
  rw [tree.above_entry.mp above]
  exact tour.walk.mem_entry

theorem Near.exact {k : ℕ} (near : Near E entry rank parent k 0) (sound : Sound E entry rank parent)
    (bounded : ∀ v π, Walk E entry v π → π.Nodup → ∃ j < k, Tour E entry rank j v π) {d : V} (known : parent v ≠ none) :
    Above parent d v ↔ Dominates E entry d v := by
  constructor
  · intro above π walk
    obtain ⟨ρ, simple, nodup, subset⟩ := walk.simple
    obtain ⟨j, fewer, tour⟩ := bounded v ρ simple nodup
    exact subset (near v j ρ known tour (.inl fewer) d above)
  · exact sound.covers v d known

theorem immediate_of_exact (tree : Tree entry rank parent)
    (exact : ∀ v d, parent v ≠ none → (Above parent d v ↔ Dominates E entry d v)) (child : parent v = some u)
    (other : v ≠ entry) : Immediate E entry u v := by
  have known : parent v ≠ none := by simp [child]
  have lower := (tree.up v u child other).1
  refine ⟨(exact v u known).mp (.step child (.refl u)), by rintro rfl; omega, ?_⟩
  intro c dominates strict
  rcases (above_parent child).mp ((exact v c known).mpr dominates) with same | above
  · exact absurd same strict
  · exact (exact u c (tree.known child)).mp above

end Trees

end E5r.Dominance
