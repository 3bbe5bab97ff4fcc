import Mathlib.Algebra.GroupWithZero.Nat
import E5r.Dominance

/-!
# The graph of a function

The blocks of a function in the intermediate representation, their edges, and the reverse
postorder that the passes go through them in.
-/

namespace E5r.FunctionGraph

open Dominance

structure Block where
  addr : ℕ
  successors : List ℕ
  predecessors : List ℕ
  deriving DecidableEq

/-- Blocks by address, each with the predecessors derived from the successors of all. -/
structure IrFunction where
  entry : ℕ
  blocks : List Block
  sorted : blocks.Pairwise fun a b => a.addr < b.addr
  wired : ∀ b ∈ blocks, b.predecessors = (blocks.filter fun a => b.addr ∈ a.successors).map Block.addr

namespace IrFunction

variable (f : IrFunction)

def get (at_ : ℕ) : Option Block :=
  f.blocks.find? fun b => b.addr = at_

variable {f}

theorem addr_inj (f : IrFunction) {a b : Block} (first : a ∈ f.blocks) (second : b ∈ f.blocks)
    (same : a.addr = b.addr) : a = b := by
  obtain ⟨i, inside, rfl⟩ := List.getElem_of_mem first
  obtain ⟨j, inside', rfl⟩ := List.getElem_of_mem second
  have sorted := List.pairwise_iff_getElem.mp f.sorted
  rcases Nat.lt_trichotomy i j with less | rfl | greater
  · have := sorted i j inside inside' less
    omega
  · rfl
  · have := sorted j i inside' inside greater
    omega

theorem get_eq_some_iff {at_ : ℕ} {b : Block} : f.get at_ = some b ↔ b ∈ f.blocks ∧ b.addr = at_ := by
  constructor
  · intro found
    exact ⟨List.mem_of_find?_eq_some found, by simpa using List.find?_some found⟩
  · rintro ⟨member, rfl⟩
    cases found : f.get b.addr with
    | none => exact absurd (List.find?_eq_none.mp found b member) (by simp)
    | some c =>
      have there := List.mem_of_find?_eq_some found
      have same : c.addr = b.addr := by simpa using List.find?_some found
      rw [f.addr_inj there member same]

variable (f)

/-- Control goes from one block to another. -/
def Edge (p v : ℕ) : Prop :=
  ∃ b c, f.get p = some b ∧ v ∈ b.successors ∧ f.get v = some c

variable {f}

theorem mem_predecessors {v p : ℕ} {b : Block} (found : f.get v = some b) : p ∈ b.predecessors ↔ f.Edge p v := by
  obtain ⟨member, rfl⟩ := get_eq_some_iff.mp found
  rw [f.wired b member, List.mem_map]
  constructor
  · rintro ⟨a, among, rfl⟩
    obtain ⟨there, goes⟩ := List.mem_filter.mp among
    exact ⟨a, b, get_eq_some_iff.mpr ⟨there, rfl⟩, by simpa using goes, found⟩
  · rintro ⟨a, c, source, goes, -⟩
    obtain ⟨there, rfl⟩ := get_eq_some_iff.mp source
    exact ⟨a, List.mem_filter.mpr ⟨there, by simpa using goes⟩, rfl⟩

variable (f)

/-- The blocks that were not seen. -/
def unseen (seen : List ℕ) : ℕ :=
  (f.blocks.filter fun b => b.addr ∉ seen).length

/-- The successors still to look at, and the entries themselves. -/
def weight (stack : List (ℕ × ℕ)) : ℕ :=
  (stack.map fun e => ((f.get e.1).elim 0 fun b => b.successors.length) - e.2 + 1).sum

variable {f}

theorem unseen_lt {seen : List ℕ} {next : ℕ} (block : (f.get next).isSome) (fresh : next ∉ seen) :
    f.unseen (next :: seen) < f.unseen seen := by
  obtain ⟨b, found⟩ := Option.isSome_iff_exists.mp block
  obtain ⟨member, rfl⟩ := get_eq_some_iff.mp found
  have split : (f.blocks.filter fun c => c.addr ∉ b.addr :: seen) =
      (f.blocks.filter fun c => c.addr ∉ seen).filter fun c => c.addr ≠ b.addr := by
    rw [List.filter_filter]
    refine List.filter_congr fun c _ => ?_
    simp
  rw [unseen, unseen, split, List.length_filter_lt_length_iff_exists]
  exact ⟨b, List.mem_filter.mpr ⟨member, by simpa using fresh⟩, by simp⟩

/-- The search with its stack; finished blocks are kept last first. -/
def search (f : IrFunction) (seen post : List ℕ) (stack : List (ℕ × ℕ)) : List ℕ :=
  match stack with
  | [] => post
  | (at_, i) :: rest =>
    match found : f.get at_ with
    | none => search f seen post rest
    | some b =>
      match more : b.successors[i]? with
      | some next =>
        if fresh : (f.get next).isSome ∧ next ∉ seen then
          search f (next :: seen) post ((next, 0) :: (at_, i + 1) :: rest)
        else search f seen post ((at_, i + 1) :: rest)
      | none => search f seen (at_ :: post) rest
termination_by (f.unseen seen, f.weight stack)
decreasing_by
  · exact Prod.Lex.right _ (by simp [weight])
  · exact Prod.Lex.left _ _ (unseen_lt fresh.1 fresh.2)
  · refine Prod.Lex.right _ ?_
    have inside := (List.getElem?_eq_some_iff.mp more).1
    simp only [weight, found, List.map_cons, List.sum_cons, Option.elim_some]
    omega
  · exact Prod.Lex.right _ (by simp [weight])

section Steps

variable {seen post : List ℕ} {at_ i next : ℕ} {rest : List (ℕ × ℕ)} {b : Block}

theorem search_push (found : f.get at_ = some b) (more : b.successors[i]? = some next) (block : (f.get next).isSome)
    (fresh : next ∉ seen) :
    f.search seen post ((at_, i) :: rest) = f.search (next :: seen) post ((next, 0) :: (at_, i + 1) :: rest) := by
  rw [search.eq_2]
  split
  · rename_i missing
    cases found.symm.trans missing
  · rename_i b' found'
    cases found.symm.trans found'
    split
    · rename_i next' more'
      cases more.symm.trans more'
      exact dif_pos ⟨block, fresh⟩
    · rename_i none_
      cases more.symm.trans none_

theorem search_skip (found : f.get at_ = some b) (more : b.successors[i]? = some next) (old : next ∈ seen) :
    f.search seen post ((at_, i) :: rest) = f.search seen post ((at_, i + 1) :: rest) := by
  rw [search.eq_2]
  split
  · rename_i missing
    cases found.symm.trans missing
  · rename_i b' found'
    cases found.symm.trans found'
    split
    · rename_i next' more'
      cases more.symm.trans more'
      exact dif_neg fun fresh => fresh.2 old
    · rename_i none_
      cases more.symm.trans none_

theorem search_pop (found : f.get at_ = some b) (over_ : b.successors[i]? = none) :
    f.search seen post ((at_, i) :: rest) = f.search seen (at_ :: post) rest := by
  rw [search.eq_2]
  split
  · rename_i missing
    cases found.symm.trans missing
  · rename_i b' found'
    cases found.symm.trans found'
    split
    · rename_i next' more'
      cases over_.symm.trans more'
    · rfl

end Steps

variable (f)

def reversePostorder : List ℕ :=
  f.search [f.entry] [] [(f.entry, 0)]

/-- The blocks that were begun, in the order the search leaves them in. -/
def begun (post : List ℕ) (stack : List (ℕ × ℕ)) : List ℕ :=
  (stack.map Prod.fst).reverse ++ post

/-- What holds during the search: blocks stand after one that leads to them, and finished
    blocks lead to none that was not begun. -/
structure Searched (seen post : List ℕ) (stack : List (ℕ × ℕ)) : Prop where
  members : ∀ x, x ∈ seen ↔ x ∈ begun post stack
  nodup : (begun post stack).Nodup
  first : (begun post stack).head? = some f.entry
  blocks : ∀ x ∈ begun post stack, (f.get x).isSome
  parents : ∀ v ∈ begun post stack, v ≠ f.entry → ∃ q, f.Edge q v ∧ [q, v].Sublist (begun post stack)
  closed : ∀ p ∈ post, ∀ v, f.Edge p v → v ∈ begun post stack
  partly : ∀ e ∈ stack, ∀ b, f.get e.1 = some b → ∀ j < e.2, ∀ v, b.successors[j]? = some v → (f.get v).isSome →
    v ∈ begun post stack

variable {f}

theorem begun_pop (post : List ℕ) (at_ i : ℕ) (rest : List (ℕ × ℕ)) :
    begun (at_ :: post) rest = begun post ((at_, i) :: rest) := by
  simp [begun]

theorem Searched.pop {seen post : List ℕ} {at_ i : ℕ} {rest : List (ℕ × ℕ)} {b : Block}
    (searched : f.Searched seen post ((at_, i) :: rest)) (found : f.get at_ = some b) (over_ : b.successors[i]? = none) :
    f.Searched seen (at_ :: post) rest := by
  have same := begun_pop post at_ i rest
  refine ⟨by rw [same]; exact searched.members, by rw [same]; exact searched.nodup, by rw [same]; exact searched.first,
    by rw [same]; exact searched.blocks, by rw [same]; exact searched.parents, ?_, ?_⟩
  · intro p finished v edge
    rw [same]
    rcases List.mem_cons.mp finished with rfl | earlier
    · obtain ⟨b', c, source, goes, target⟩ := edge
      cases found.symm.trans source
      obtain ⟨j, inside, rfl⟩ := List.getElem_of_mem goes
      have below : j < i := Nat.lt_of_lt_of_le inside (List.getElem?_eq_none_iff.mp over_)
      exact searched.partly _ List.mem_cons_self b found j below _ (List.getElem?_eq_getElem inside) (by simp [target])
    · exact searched.closed p earlier v edge
  · intro e member
    rw [same]
    exact searched.partly e (List.mem_cons_of_mem _ member)

theorem Searched.skip {seen post : List ℕ} {at_ i next : ℕ} {rest : List (ℕ × ℕ)} {b : Block}
    (searched : f.Searched seen post ((at_, i) :: rest)) (found : f.get at_ = some b)
    (more : b.successors[i]? = some next) (known : (f.get next).isSome → next ∈ begun post ((at_, i) :: rest)) :
    f.Searched seen post ((at_, i + 1) :: rest) := by
  have same : begun post ((at_, i + 1) :: rest) = begun post ((at_, i) :: rest) := by simp [begun]
  refine ⟨by rw [same]; exact searched.members, by rw [same]; exact searched.nodup, by rw [same]; exact searched.first,
    by rw [same]; exact searched.blocks, by rw [same]; exact searched.parents, by rw [same]; exact searched.closed, ?_⟩
  intro e member b' source j below v there block
  rw [same]
  rcases List.mem_cons.mp member with rfl | earlier
  · cases found.symm.trans source
    by_cases last : j = i
    · subst last
      cases more.symm.trans there
      exact known block
    · exact searched.partly _ List.mem_cons_self b found j (by have : j < i + 1 := below; omega) v there block
  · exact searched.partly e (List.mem_cons_of_mem _ earlier) b' source j below v there block

theorem Searched.push {seen post : List ℕ} {at_ i next : ℕ} {rest : List (ℕ × ℕ)} {b : Block}
    (searched : f.Searched seen post ((at_, i) :: rest)) (found : f.get at_ = some b)
    (more : b.successors[i]? = some next) (block : (f.get next).isSome) (fresh : next ∉ seen) :
    f.Searched (next :: seen) post ((next, 0) :: (at_, i + 1) :: rest) := by
  have before : begun post ((at_, i) :: rest) = ((rest.map Prod.fst).reverse ++ [at_]) ++ post := by simp [begun]
  have after : begun post ((next, 0) :: (at_, i + 1) :: rest) =
      ((rest.map Prod.fst).reverse ++ [at_]) ++ next :: post := by simp [begun]
  have sub : (begun post ((at_, i) :: rest)).Sublist (begun post ((next, 0) :: (at_, i + 1) :: rest)) := by
    rw [before, after]
    exact (List.sublist_cons_self next post).append_left _
  have members : ∀ x, x ∈ begun post ((next, 0) :: (at_, i + 1) :: rest) ↔ x = next ∨ x ∈ begun post ((at_, i) :: rest) := by
    intro x
    rw [before, after]
    simp only [List.mem_append, List.mem_cons]
    tauto
  have new : next ∉ begun post ((at_, i) :: rest) := fun there => fresh ((searched.members next).mpr there)
  constructor
  · intro x
    rw [List.mem_cons, members, searched.members]
  · rw [after, List.nodup_middle, ← before]
    exact List.nodup_cons.mpr ⟨new, searched.nodup⟩
  · have first := searched.first
    rw [before] at first
    rw [after]
    cases start : (rest.map Prod.fst).reverse with
    | nil => simpa [start] using first
    | cons x xs => simpa [start] using first
  · intro x there
    rcases (members x).mp there with rfl | earlier
    · exact block
    · exact searched.blocks x earlier
  · intro v there other
    rcases (members v).mp there with rfl | earlier
    · obtain ⟨c, target⟩ := Option.isSome_iff_exists.mp block
      refine ⟨at_, ⟨b, c, found, List.mem_of_getElem? more, target⟩, ?_⟩
      rw [after, List.append_assoc]
      exact ((List.Sublist.refl _).cons_cons _ |>.trans (by simp)).trans (List.sublist_append_right _ _)
    · obtain ⟨q, edge, order⟩ := searched.parents v earlier other
      exact ⟨q, edge, order.trans sub⟩
  · intro p finished v edge
    exact sub.subset (searched.closed p finished v edge)
  · intro e member b' source j below v there block'
    rcases List.mem_cons.mp member with rfl | member
    · exact absurd below (Nat.not_lt_zero j)
    rcases List.mem_cons.mp member with rfl | earlier
    · cases found.symm.trans source
      by_cases last : j = i
      · subst last
        cases more.symm.trans there
        exact (members _).mpr (.inl rfl)
      · exact sub.subset (searched.partly _ List.mem_cons_self b found j (by have : j < i + 1 := below; omega) v there block')
    · exact sub.subset (searched.partly e (List.mem_cons_of_mem _ earlier) b' source j below v there block')

theorem Searched.search {seen post : List ℕ} {stack : List (ℕ × ℕ)} (searched : f.Searched seen post stack) :
    ∃ seen', f.Searched seen' (f.search seen post stack) [] := by
  fun_induction f.search seen post stack with
  | case1 seen post => exact ⟨seen, searched⟩
  | case2 seen post at_ i rest missing ih =>
    have := searched.blocks at_ (by simp [begun])
    simp [missing] at this
  | case3 seen post at_ i rest b found next more fresh ih =>
    exact ih (searched.push found more fresh.1 fresh.2)
  | case4 seen post at_ i rest b found next more old ih =>
    refine ih (searched.skip found more fun block => (searched.members next).mp ?_)
    by_contra fresh
    exact old ⟨block, fresh⟩
  | case5 seen post at_ i rest b found more ih => exact ih (searched.pop found more)

theorem searched_start (block : (f.get f.entry).isSome) : f.Searched [f.entry] [] [(f.entry, 0)] := by
  refine ⟨by simp [begun], by simp [begun], by simp [begun], by simpa [begun] using block, ?_, by simp, by simp⟩
  intro v there other
  exact absurd (by simpa [begun] using there) other

theorem idxOf_lt_of_sublist {l : List ℕ} {q v : ℕ} (nodup : l.Nodup) (sub : [q, v].Sublist l) : l.idxOf q < l.idxOf v := by
  induction l with
  | nil => cases sub
  | cons x l ih =>
    obtain ⟨new, nodup⟩ := List.nodup_cons.mp nodup
    cases sub with
    | cons _ sub =>
      have differ : x ≠ q := by
        rintro rfl
        exact new (sub.subset List.mem_cons_self)
      have differ' : x ≠ v := by
        rintro rfl
        exact new (sub.subset (by simp))
      rw [List.idxOf_cons_ne _ differ, List.idxOf_cons_ne _ differ']
      exact Nat.succ_lt_succ (ih nodup sub)
    | cons_cons _ sub =>
      have differ : q ≠ v := by
        rintro rfl
        exact new (sub.subset List.mem_cons_self)
      rw [List.idxOf_cons_self, List.idxOf_cons_ne _ differ]
      exact Nat.succ_pos _

/-- The order the passes rely on: each block once, the entry first, every other block after
    one that leads to it, and no edge out. -/
structure Ordered (f : IrFunction) (order : List ℕ) : Prop where
  nodup : order.Nodup
  first : order.head? = some f.entry
  blocks : ∀ x ∈ order, (f.get x).isSome
  parents : ∀ v ∈ order, v ≠ f.entry → ∃ q, f.Edge q v ∧ q ∈ order ∧ order.idxOf q < order.idxOf v
  closed : ∀ p ∈ order, ∀ v, f.Edge p v → v ∈ order

theorem reversePostorder_ordered (block : (f.get f.entry).isSome) : f.Ordered f.reversePostorder := by
  obtain ⟨seen, searched⟩ := (searched_start block).search
  refine ⟨searched.nodup, searched.first, searched.blocks, ?_, searched.closed⟩
  intro v there other
  obtain ⟨q, edge, sub⟩ := searched.parents v there other
  exact ⟨q, edge, sub.subset List.mem_cons_self, idxOf_lt_of_sublist searched.nodup sub⟩

theorem Ordered.entry_mem {order : List ℕ} (ordered : f.Ordered order) : f.entry ∈ order :=
  List.mem_of_mem_head? ordered.first

theorem Ordered.mem_iff {order : List ℕ} (ordered : f.Ordered order) {v : ℕ} :
    v ∈ order ↔ Reachable f.Edge f.entry v := by
  constructor
  · intro there
    induction rank : order.idxOf v using Nat.strong_induction_on generalizing v with
    | _ n ih =>
      by_cases root : v = f.entry
      · subst root
        exact ⟨_, .start⟩
      · obtain ⟨q, edge, earlier, less⟩ := ordered.parents v there root
        obtain ⟨π, walk⟩ := ih _ (rank ▸ less) earlier rfl
        exact ⟨_, .step walk edge⟩
  · rintro ⟨π, walk⟩
    induction walk with
    | start => exact ordered.entry_mem
    | step _ edge ih => exact ordered.closed _ ih _ edge

end IrFunction

end E5r.FunctionGraph
