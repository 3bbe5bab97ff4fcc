import E5r.FunctionGraph
import Mathlib.Data.List.Induction
import Mathlib.Data.List.Sort

/-!
# Immediate dominators

The iterative computation of the immediate dominators, with the two limits it works within.
-/

namespace E5r.SsaDominators

open Dominance FunctionGraph

/-! ### The computation -/

/-- The position of each address, the last one where an address stands twice. -/
def index (order : List ℕ) : ℕ → Option ℕ :=
  order.zipIdx.foldl (fun index e => Function.update index e.1 (some e.2)) fun _ => none

/-- Walk up the dominator tree until two blocks meet; the first number is how many steps are
    left. -/
def intersect (idom index : ℕ → Option ℕ) : ℕ → ℕ → ℕ → ℕ
  | 0, a, _ => a
  | left + 1, a, b =>
    if a = b then a
    else
      let ia := (index a).getD 0
      let ib := (index b).getD 0
      let a' := if ia > ib then (idom a).getD a else a
      let b' := if ia > ib then b else (idom b).getD b
      if idom a' = some a' ∧ idom b' = some b' ∧ a' ≠ b' then a' else intersect idom index left a' b'

/-- What the predecessors that have a dominator meet in. -/
def joined (idom index : ℕ → Option ℕ) (predecessors : List ℕ) : Option ℕ :=
  predecessors.foldl (fun new p =>
    if idom p = none then new
    else
      match new with
      | none => some p
      | some cur => some (intersect idom index 10000 cur p)) none

/-- One block of a round, which also tells whether anything changed. -/
def visit (f : IrFunction) (index : ℕ → Option ℕ) (state : (ℕ → Option ℕ) × Bool) (at_ : ℕ) : (ℕ → Option ℕ) × Bool :=
  match f.get at_ with
  | none => state
  | some b =>
    match joined state.1 index b.predecessors with
    | none => state
    | some n => if state.1 at_ ≠ some n then (Function.update state.1 at_ (some n), true) else state

def round (f : IrFunction) (order : List ℕ) (idom : ℕ → Option ℕ) : (ℕ → Option ℕ) × Bool :=
  (order.drop 1).foldl (visit f (index order)) (idom, false)

/-- Rounds until nothing changes, so many at most. -/
def rounds (f : IrFunction) (order : List ℕ) : ℕ → (ℕ → Option ℕ) → ℕ → Option ℕ
  | 0, idom => idom
  | left + 1, idom =>
    let (idom, changed) := round f order idom
    if changed then rounds f order left idom else idom

def dominators (f : IrFunction) (order : List ℕ) : ℕ → Option ℕ :=
  rounds f order 1000 (Function.update (fun _ => none) f.entry (some f.entry))

/-! ### Rounds -/

theorem visit_kept {f : IrFunction} {index : ℕ → Option ℕ} {state : (ℕ → Option ℕ) × Bool} {at_ : ℕ}
    (same : (visit f index state at_).2 = false) : visit f index state at_ = state := by
  unfold visit at same ⊢
  split
  · rfl
  · rename_i b found
    simp only [found] at same
    split
    · rfl
    · rename_i n met
      simp only [met] at same
      split
      · rename_i differ
        rw [if_pos differ] at same
        cases same
      · rfl

theorem visit_fst {f : IrFunction} {index : ℕ → Option ℕ} {idom : ℕ → Option ℕ} {changed : Bool} {at_ n : ℕ} {b : Block}
    (found : f.get at_ = some b) (met : joined idom index b.predecessors = some n) :
    (visit f index (idom, changed) at_).1 = Function.update idom at_ (some n) := by
  unfold visit
  simp only [found, met]
  split
  · rfl
  · rename_i same
    rw [← Classical.not_not.mp same, Function.update_eq_self]

theorem visits_kept {f : IrFunction} {index : ℕ → Option ℕ} (order : List ℕ) (state : (ℕ → Option ℕ) × Bool)
    (same : (order.foldl (visit f index) state).2 = false) : order.foldl (visit f index) state = state := by
  induction order generalizing state with
  | nil => rfl
  | cons at_ order ih =>
    rw [List.foldl_cons] at same ⊢
    have rest := ih _ same
    rw [rest] at same ⊢
    exact visit_kept same

theorem rounds_eq (f : IrFunction) (order : List ℕ) (left : ℕ) (idom : ℕ → Option ℕ) :
    rounds f order left idom = (fun idom => (round f order idom).1)^[left] idom := by
  induction left generalizing idom with
  | zero => rfl
  | succ left ih =>
    rw [Function.iterate_succ_apply]
    show (if (round f order idom).2 then rounds f order left (round f order idom).1 else (round f order idom).1) = _
    by_cases changed : (round f order idom).2 = true
    · rw [if_pos changed, ih]
    · have kept : (round f order idom).1 = idom := by
        rw [round, visits_kept _ _ (by simpa [round] using changed)]
      rw [if_neg changed, kept]
      exact (Function.iterate_fixed kept left).symm

/-! ### The position of a block -/

theorem index_eq {order : List ℕ} (nodup : order.Nodup) {a : ℕ} (there : a ∈ order) :
    index order a = some (order.idxOf a) := by
  have general : ∀ (l : List ℕ) (k : ℕ) (m : ℕ → Option ℕ), l.Nodup →
      ((l.zipIdx k).foldl (fun index (e : ℕ × ℕ) => Function.update index e.1 (some e.2)) m) a =
        if a ∈ l then some (k + l.idxOf a) else m a := by
    intro l
    induction l with
    | nil =>
      intro k m _
      simp
    | cons x l ih =>
      intro k m nodup
      obtain ⟨new, nodup⟩ := List.nodup_cons.mp nodup
      rw [List.zipIdx_cons, List.foldl_cons, ih (k + 1) _ nodup]
      by_cases same : a = x
      · subst same
        simp [new]
      · have other : x ≠ a := fun e => same e.symm
        rw [List.idxOf_cons_ne _ other]
        by_cases later : a ∈ l
        · rw [if_pos later, if_pos (List.mem_cons_of_mem _ later)]
          congr 1
          omega
        · rw [if_neg later, if_neg (by simp [same, later]), Function.update_of_ne same]
  have := general order 0 (fun _ => none) nodup
  rwa [if_pos there, Nat.zero_add] at this

/-! ### Meeting -/

section Meeting

variable {entry : ℕ} {rank : ℕ → ℕ} {idom : ℕ → Option ℕ} {position : ℕ → Option ℕ}

/-- Ranks are the positions, the entry's is the only zero and no two are equal. -/
structure Ranked (entry : ℕ) (rank : ℕ → ℕ) (idom position : ℕ → Option ℕ) : Prop where
  position : ∀ c, idom c ≠ none → position c = some (rank c)
  first : ∀ c, idom c ≠ none → rank c = 0 → c = entry
  distinct : ∀ c d, idom c ≠ none → idom d ≠ none → rank c = rank d → c = d

theorem root_only (tree : Tree entry rank idom) {a : ℕ} (root : idom a = some a) : a = entry := by
  by_contra other
  have := (tree.up a a root other).1
  omega

/-- With steps enough for both ranks, the walk ends in the closest common ancestor. -/
theorem intersect_spec (tree : Tree entry rank idom) (ranked : Ranked entry rank idom position) (left a b : ℕ)
    (knownA : idom a ≠ none) (knownB : idom b ≠ none) (enough : rank a + rank b ≤ left) :
    idom (intersect idom position left a b) ≠ none ∧
      ∀ x, Above idom x (intersect idom position left a b) ↔ Above idom x a ∧ Above idom x b := by
  induction left generalizing a b with
  | zero =>
    rw [ranked.first a knownA (by omega), ranked.first b knownB (by omega)]
    refine ⟨?_, fun x => (and_self_iff).symm⟩
    show idom entry ≠ none
    simp [tree.root]
  | succ left ih =>
    by_cases same : a = b
    · subst same
      rw [intersect, if_pos rfl]
      exact ⟨knownA, fun x => (and_self_iff).symm⟩
    have rest : ∀ a' b', idom a' ≠ none → idom b' ≠ none → rank a' + rank b' ≤ left →
        (if idom a' = some a' ∧ idom b' = some b' ∧ a' ≠ b' then a' else intersect idom position left a' b') =
          intersect idom position left a' b' := by
      intro a' b' _ _ _
      refine if_neg ?_
      rintro ⟨first, second, differ⟩
      exact differ ((root_only tree first).trans (root_only tree second).symm)
    have unfolded := intersect.eq_def idom position (left + 1) a b
    simp only [if_neg same, ranked.position a knownA, ranked.position b knownB, Option.getD_some] at unfolded
    rw [unfolded]
    by_cases deeper : rank a > rank b
    · have inner : a ≠ entry := by
        rintro rfl
        obtain ⟨u, child⟩ := Option.ne_none_iff_exists'.mp knownB
        have := (tree.entry_above knownB).rank_le tree
        omega
      obtain ⟨u, child⟩ := Option.ne_none_iff_exists'.mp knownA
      obtain ⟨lower, known⟩ := tree.up a u child inner
      simp only [if_pos deeper, child, Option.getD_some]
      rw [rest u b known knownB (by omega)]
      obtain ⟨found, common⟩ := ih u b known knownB (by omega)
      refine ⟨found, fun x => ?_⟩
      rw [common, above_parent child]
      constructor
      · rintro ⟨first, second⟩
        exact ⟨.inr first, second⟩
      · rintro ⟨rfl | first, second⟩
        · have := second.rank_le tree
          omega
        · exact ⟨first, second⟩
    · have higher : rank a < rank b := by
        have : rank a ≠ rank b := fun e => same (ranked.distinct a b knownA knownB e)
        omega
      have inner : b ≠ entry := by
        rintro rfl
        have := (tree.entry_above knownA).rank_le tree
        omega
      obtain ⟨u, child⟩ := Option.ne_none_iff_exists'.mp knownB
      obtain ⟨lower, known⟩ := tree.up b u child inner
      simp only [if_neg deeper, child, Option.getD_some]
      rw [rest a u knownA known (by omega)]
      obtain ⟨found, common⟩ := ih a u knownA known (by omega)
      refine ⟨found, fun x => ?_⟩
      rw [common, above_parent child]
      constructor
      · rintro ⟨first, second⟩
        exact ⟨first, .inr second⟩
      · rintro ⟨first, rfl | second⟩
        · have := first.rank_le tree
          omega
        · exact ⟨first, second⟩

/-- What the predecessors meet in is their closest common ancestor. -/
theorem joined_spec (tree : Tree entry rank idom) (ranked : Ranked entry rank idom position) (predecessors : List ℕ)
    (nodup : predecessors.Nodup)
    (near : ∀ p ∈ predecessors, ∀ q ∈ predecessors, p ≠ q → idom p ≠ none → idom q ≠ none → rank p + rank q ≤ 10000) :
    match joined idom position predecessors with
    | none => ∀ p ∈ predecessors, idom p = none
    | some n => idom n ≠ none ∧ (∃ p ∈ predecessors, idom p ≠ none) ∧ ∀ x, Above idom x n ↔ ∀ p ∈ predecessors, idom p ≠ none → Above idom x p := by
  induction predecessors using List.reverseRecOn with
  | nil =>
    show ∀ p ∈ [], idom p = none
    simp
  | append_singleton l p ih =>
    obtain ⟨nodupL, -, apart⟩ := List.nodup_append.mp nodup
    have ih := ih nodupL fun p there q there' =>
      near p (List.mem_append_left _ there) q (List.mem_append_left _ there')
    have folded : joined idom position (l ++ [p]) =
        if idom p = none then joined idom position l
        else
          match joined idom position l with
          | none => some p
          | some cur => some (intersect idom position 10000 cur p) := by
      simp only [joined, List.foldl_append, List.foldl_cons, List.foldl_nil]
    rw [folded]
    by_cases unknown : idom p = none
    · rw [if_pos unknown]
      cases met : joined idom position l with
      | none =>
        simp only [met] at ih ⊢
        intro q there
        rcases List.mem_append.mp there with earlier | last
        · exact ih q earlier
        · rw [List.mem_singleton.mp last]
          exact unknown
      | some n =>
        simp only [met] at ih ⊢
        obtain ⟨known, ⟨q, earlier, knownQ⟩, common⟩ := ih
        refine ⟨known, ⟨q, List.mem_append_left _ earlier, knownQ⟩, fun x => (common x).trans ?_⟩
        constructor
        · intro all q there known
          rcases List.mem_append.mp there with earlier | last
          · exact all q earlier known
          · rw [List.mem_singleton.mp last] at known
            exact absurd unknown known
        · intro all q there known
          exact all q (List.mem_append_left _ there) known
    · rw [if_neg unknown]
      cases met : joined idom position l with
      | none =>
        simp only [met] at ih ⊢
        refine ⟨unknown, ⟨p, by simp, unknown⟩, fun x => ?_⟩
        constructor
        · intro above q there known
          rcases List.mem_append.mp there with earlier | last
          · exact absurd (ih q earlier) known
          · rw [List.mem_singleton.mp last]
            exact above
        · intro all
          exact all p (by simp) unknown
      | some cur =>
        simp only [met] at ih ⊢
        obtain ⟨known, ⟨q, earlier, knownQ⟩, common⟩ := ih
        have enough : rank cur + rank p ≤ 10000 := by
          have lower := ((common cur).mp (.refl cur) q earlier knownQ).rank_le tree
          have := near q (List.mem_append_left _ earlier) p (by simp) (apart q earlier p (by simp)) knownQ unknown
          omega
        obtain ⟨found, both⟩ := intersect_spec tree ranked 10000 cur p known unknown enough
        refine ⟨found, ⟨p, by simp, unknown⟩, fun x => ?_⟩
        rw [both, common]
        constructor
        · rintro ⟨first, second⟩ q there knownQ
          rcases List.mem_append.mp there with earlier | last
          · exact first q earlier knownQ
          · rw [List.mem_singleton.mp last]
            exact second
        · intro all
          exact ⟨fun q earlier => all q (List.mem_append_left _ earlier), all p (by simp) unknown⟩

end Meeting

/-! ### Turns -/

section Turns

variable {f : IrFunction} {order : List ℕ}

/-- Predecessors reached from the entry stand close enough for the walk up to meet. -/
def Close (f : IrFunction) (order : List ℕ) : Prop :=
  ∀ v p q, f.Edge p v → f.Edge q v → p ∈ order → q ∈ order → p ≠ q → order.idxOf p + order.idxOf q ≤ 10000

/-- What holds in round `k`, when the blocks up to position `i` had their turn. -/
structure Turn (f : IrFunction) (order : List ℕ) (k i : ℕ) (idom : ℕ → Option ℕ) : Prop extends
    Sound f.Edge f.entry order.idxOf idom where
  near : Near f.Edge f.entry order.idxOf idom k i
  within : ∀ c, idom c ≠ none → c ∈ order
  early : ∀ c ∈ order, order.idxOf c ≤ i → idom c ≠ none
  all : 0 < k → ∀ c ∈ order, idom c ≠ none

theorem entry_rank (ordered : f.Ordered order) : order.idxOf f.entry = 0 := by
  have first := ordered.first
  cases order with
  | nil => cases first
  | cons x order =>
    cases first
    exact List.idxOf_cons_self

theorem entry_of_rank (ordered : f.Ordered order) {c : ℕ} (there : c ∈ order) (zero : order.idxOf c = 0) : c = f.entry :=
  (List.idxOf_inj there).mp (zero.trans (entry_rank ordered).symm)

theorem Turn.ranked {k i : ℕ} {idom : ℕ → Option ℕ} (turn : Turn f order k i idom) (ordered : f.Ordered order) :
    Ranked f.entry order.idxOf idom (index order) :=
  ⟨fun _ known => index_eq ordered.nodup (turn.within _ known),
    fun _ known zero => entry_of_rank ordered (turn.within _ known) zero,
    fun _ _ known _ same => (List.idxOf_inj (turn.within _ known)).mp same⟩

theorem turn_start (ordered : f.Ordered order) :
    Turn f order 0 0 (Function.update (fun _ => none) f.entry (some f.entry)) := by
  refine ⟨sound_start, near_start, ?_, ?_, fun positive => absurd positive (Nat.lt_irrefl 0)⟩
  · intro c known
    by_cases root : c = f.entry
    · subst root
      exact ordered.entry_mem
    · rw [Function.update_of_ne root] at known
      exact absurd rfl known
  · intro c there zero
    rw [entry_of_rank ordered there (Nat.le_zero.mp zero), Function.update_self]
    simp

theorem predecessors_nodup {v : ℕ} {b : Block} (found : f.get v = some b) : b.predecessors.Nodup := by
  obtain ⟨member, rfl⟩ := IrFunction.get_eq_some_iff.mp found
  rw [f.wired b member]
  have sorted : ((f.blocks.filter fun a => b.addr ∈ a.successors).map Block.addr).Pairwise (· < ·) :=
    List.pairwise_map.mpr (f.sorted.filter _)
  exact sorted.imp fun less => Nat.ne_of_lt less

theorem Turn.visit {k i v : ℕ} {idom : ℕ → Option ℕ} {changed : Bool} (turn : Turn f order k i idom)
    (ordered : f.Ordered order) (close : Close f order) (there : v ∈ order) (next : order.idxOf v = i + 1) :
    Turn f order k (i + 1) (visit f (index order) (idom, changed) v).1 := by
  have other : v ≠ f.entry := by
    rintro rfl
    have := entry_rank ordered
    omega
  obtain ⟨b, found⟩ := Option.isSome_iff_exists.mp (ordered.blocks v there)
  have edges : ∀ p, p ∈ b.predecessors ↔ f.Edge p v := fun p => IrFunction.mem_predecessors found
  obtain ⟨q, edge, earlier, less⟩ := ordered.parents v there other
  have knownQ := turn.early q earlier (by omega)
  have spec := joined_spec turn.toTree (turn.ranked ordered) b.predecessors (predecessors_nodup found)
    fun p first p' second differ known known' =>
      close v p p' ((edges p).mp first) ((edges p').mp second) (turn.within p known) (turn.within p' known') differ
  cases met : joined idom (index order) b.predecessors with
  | none =>
    simp only [met] at spec
    exact absurd (spec q ((edges q).mpr edge)) knownQ
  | some n =>
    simp only [met] at spec
    obtain ⟨known, -, common⟩ := spec
    have meets : Meets f.Edge order.idxOf idom v n :=
      { known := known
        common := fun x => (common x).trans
          ⟨fun all p edge => all p ((edges p).mpr edge), fun all p among => all p ((edges p).mp among)⟩
        forward := ⟨q, edge, knownQ, less⟩ }
    rw [visit_fst found met]
    have sound := turn.toSound.update other meets
    have near := turn.near.update turn.toSound other meets next
      (fun c known same => (List.idxOf_inj (turn.within c known)).mp same)
      (fun p reachable lower => turn.early p (ordered.mem_iff.mpr reachable) (by omega))
      (fun positive p reachable => turn.all positive p (ordered.mem_iff.mpr reachable))
    have kept : ∀ c, idom c ≠ none → Function.update idom v (some n) c ≠ none := by
      intro c known
      by_cases same : c = v
      · rw [same, Function.update_self]
        simp
      · rwa [Function.update_of_ne same]
    refine ⟨sound, near, ?_, ?_, fun positive c there => kept c (turn.all positive c there)⟩
    · intro c known
      by_cases same : c = v
      · rwa [same]
      · rw [Function.update_of_ne same] at known
        exact turn.within c known
    · intro c there low
      by_cases same : c = v
      · rw [same, Function.update_self]
        simp
      · have : order.idxOf c ≠ i + 1 := fun at_ => same ((List.idxOf_inj there).mp (at_.trans next.symm))
        exact kept c (turn.early c there (by omega))

theorem Turn.visits {k : ℕ} (ordered : f.Ordered order) (close : Close f order) (rest before : List ℕ)
    (split : order = before ++ rest) (started : before ≠ []) (state : (ℕ → Option ℕ) × Bool)
    (turn : Turn f order k (before.length - 1) state.1) :
    Turn f order k (order.length - 1) (rest.foldl (SsaDominators.visit f (index order)) state).1 := by
  induction rest generalizing before state with
  | nil =>
    rw [List.append_nil] at split
    rw [split] at turn ⊢
    exact turn
  | cons v rest ih =>
    have some_ : 0 < before.length := List.length_pos_of_ne_nil started
    have there : v ∈ order := by simp [split]
    have position : order.idxOf v = before.length := by
      have nodup := ordered.nodup
      rw [split] at nodup ⊢
      obtain ⟨-, -, apart⟩ := List.nodup_append.mp nodup
      have absent : v ∉ before := fun on => apart v on v List.mem_cons_self rfl
      rw [List.idxOf_append_of_notMem absent, List.idxOf_cons_self, Nat.add_zero]
    rw [List.foldl_cons]
    refine ih (before ++ [v]) (by simp [split]) (by simp) _ ?_
    have visited := @Turn.visit _ _ _ _ _ _ state.2 turn ordered close there (by omega)
    rw [List.length_append, List.length_singleton]
    rwa [show before.length + 1 - 1 = before.length - 1 + 1 by omega]

theorem Turn.round {k : ℕ} {idom : ℕ → Option ℕ} (turn : Turn f order k 0 idom) (ordered : f.Ordered order)
    (close : Close f order) : Turn f order (k + 1) 0 (SsaDominators.round f order idom).1 := by
  obtain ⟨rest, split⟩ : ∃ rest, order = [f.entry] ++ rest := by
    have first := ordered.first
    cases order with
    | nil => cases first
    | cons x rest =>
      cases first
      exact ⟨rest, rfl⟩
  have tail : order.drop 1 = rest := by rw [split]; rfl
  have over_ := turn.visits ordered close rest [f.entry] split (by simp) (idom, false)
  rw [← tail] at over_
  change Turn f order k (order.length - 1) (SsaDominators.round f order idom).1 at over_
  have bound : ∀ c ∈ order, order.idxOf c ≤ order.length - 1 := by
    intro c there
    have := List.idxOf_lt_length_iff.mpr there
    omega
  have everywhere : ∀ c ∈ order, (SsaDominators.round f order idom).1 c ≠ none := fun c there =>
    over_.early c there (bound c there)
  refine ⟨over_.toSound, over_.near.next over_.toTree ?_ ?_, over_.within, fun c there _ => everywhere c there,
    fun _ => everywhere⟩
  · exact fun c known => bound c (over_.within c known)
  · exact fun c known zero => entry_of_rank ordered (over_.within c known) (Nat.le_zero.mp zero)

theorem turn_dominators (ordered : f.Ordered order) (close : Close f order) :
    Turn f order 1000 0 (dominators f order) := by
  rw [dominators, rounds_eq]
  have general : ∀ n, Turn f order n 0
      ((fun idom => (SsaDominators.round f order idom).1)^[n] (Function.update (fun _ => none) f.entry (some f.entry))) := by
    intro n
    induction n with
    | zero => exact turn_start ordered
    | succ n ih =>
      rw [Function.iterate_succ_apply']
      exact ih.round ordered close
  exact general 1000

end Turns

/-! ### The result -/

/-- The limits of the computation suffice: predecessors of a block stand close enough in the
    order, and no walk without repetition goes against the order a thousand times. -/
structure Fits (f : IrFunction) : Prop where
  close : Close f f.reversePostorder
  forward : ∀ v π, Walk f.Edge f.entry v π → π.Nodup → ∃ j < 1000, Tour f.Edge f.entry f.reversePostorder.idxOf j v π

/-- The entry is its own dominator, and the other blocks that have one are those that can be
    reached, each mapped to its immediate dominator. -/
def Exact (f : IrFunction) : Prop :=
  ∀ v u, dominators f f.reversePostorder v = some u ↔
    v = f.entry ∧ u = f.entry ∨ v ≠ f.entry ∧ Reachable f.Edge f.entry v ∧ Immediate f.Edge f.entry u v

theorem walk_within {f : IrFunction} {order : List ℕ} (ordered : f.Ordered order) {v : ℕ} {π : List ℕ}
    (walk : Walk f.Edge f.entry v π) : π ⊆ order := by
  intro x on
  obtain ⟨ρ, part, -⟩ := walk.part on
  exact ordered.mem_iff.mpr ⟨ρ, part⟩

/-- A thousand and one blocks are never too many. -/
theorem fits_of_ordered {f : IrFunction} (ordered : f.Ordered f.reversePostorder)
    (few : f.reversePostorder.length ≤ 1001) : Fits f := by
  constructor
  · intro v p q _ _ first second _
    have := List.idxOf_lt_length_iff.mpr first
    have := List.idxOf_lt_length_iff.mpr second
    omega
  · intro v π walk nodup
    have short := nodup.length_le_of_subset (walk_within ordered walk)
    refine ⟨π.length - 2, by omega, walk.tour ?_ nodup⟩
    intro v other
    rw [entry_rank ordered]
    by_contra zero
    have same : f.reversePostorder.idxOf v = f.reversePostorder.idxOf f.entry := by
      have := entry_rank ordered
      omega
    exact other ((List.idxOf_inj ordered.entry_mem).mp same.symm).symm

theorem exact_of_ordered {f : IrFunction} (ordered : f.Ordered f.reversePostorder) (fits : Fits f) : Exact f := by
  have turn := turn_dominators ordered fits.close
  have exact : ∀ v d, dominators f f.reversePostorder v ≠ none →
      (Above (dominators f f.reversePostorder) d v ↔ Dominates f.Edge f.entry d v) := fun v d known =>
    turn.near.exact turn.toSound fits.forward known
  intro v u
  by_cases root : v = f.entry
  · subst root
    rw [turn.root]
    constructor
    · intro same
      cases same
      exact .inl ⟨rfl, rfl⟩
    · rintro (⟨-, rfl⟩ | ⟨other, -⟩)
      · rfl
      · exact absurd rfl other
  constructor
  · intro child
    have known : dominators f f.reversePostorder v ≠ none := by simp [child]
    exact .inr ⟨root, ordered.mem_iff.mp (turn.within v known), immediate_of_exact turn.toTree exact child root⟩
  · rintro (⟨same, -⟩ | ⟨-, reachable, immediate⟩)
    · exact absurd same root
    have known := turn.all (by omega) v (ordered.mem_iff.mpr reachable)
    obtain ⟨u', child⟩ := Option.ne_none_iff_exists'.mp known
    have immediate' := immediate_of_exact turn.toTree exact child root
    have knownU' := turn.toTree.known child
    have up : Above (dominators f f.reversePostorder) u u' :=
      (exact u' u knownU').mpr (immediate'.closest u immediate.dominates immediate.strict)
    have knownU := up.known turn.toTree knownU'
    have down : Above (dominators f f.reversePostorder) u' u :=
      (exact u u' knownU).mpr (immediate.closest u' immediate'.dominates immediate'.strict)
    rw [child, up.eq_of_rank turn.toTree (down.rank_le turn.toTree)]

/-- Without a block at the entry only the entry is reached. -/
theorem walk_of_missing {f : IrFunction} (missing : f.get f.entry = none) {v : ℕ} {π : List ℕ}
    (walk : Walk f.Edge f.entry v π) : v = f.entry ∧ π = [f.entry] := by
  induction walk with
  | start => exact ⟨rfl, rfl⟩
  | step _ edge ih =>
    obtain ⟨b, c, source, -⟩ := edge
    rw [ih.1] at source
    cases missing.symm.trans source

theorem order_of_missing {f : IrFunction} (missing : f.get f.entry = none) : f.reversePostorder = [] := by
  rw [IrFunction.reversePostorder, IrFunction.search.eq_def]
  simp only
  split
  · rw [IrFunction.search]
  · rename_i b found
    cases missing.symm.trans found

theorem fits_of_missing {f : IrFunction} (missing : f.get f.entry = none) : Fits f := by
  constructor
  · intro v p q _ _ first
    rw [order_of_missing missing] at first
    cases first
  · intro v π walk _
    obtain ⟨rfl, rfl⟩ := walk_of_missing missing walk
    exact ⟨0, by omega, .start⟩

theorem exact_of_missing {f : IrFunction} (missing : f.get f.entry = none) : Exact f := by
  have kept : dominators f [] = Function.update (fun _ => none) f.entry (some f.entry) := rfl
  intro v u
  rw [order_of_missing missing, kept]
  by_cases root : v = f.entry
  · subst root
    rw [Function.update_self]
    constructor
    · intro same
      cases same
      exact .inl ⟨rfl, rfl⟩
    · rintro (⟨-, rfl⟩ | ⟨other, -⟩)
      · rfl
      · exact absurd rfl other
  · rw [Function.update_of_ne root]
    constructor
    · intro child
      cases child
    · rintro (⟨same, -⟩ | ⟨-, reachable, -⟩)
      · exact absurd same root
      · obtain ⟨π, walk⟩ := reachable
        exact absurd (walk_of_missing missing walk).1 root

/-- The blocks `1` to `n` in a row, then `0`, and the entry `n + 1` with edges to both ends. -/
def follow (n i : ℕ) : List ℕ :=
  if i = 0 then [] else if i < n then [i + 1] else if i = n then [0] else [1, 0]

def link (n i : ℕ) : Block :=
  { addr := i, successors := follow n i, predecessors := (List.range (n + 2)).filter fun a => i ∈ follow n a }

def chain (n : ℕ) : IrFunction where
  entry := n + 1
  blocks := (List.range (n + 2)).map (link n)
  sorted := List.pairwise_map.mpr (List.pairwise_lt_range (n := n + 2))
  wired := by
    intro b member
    obtain ⟨i, inside, rfl⟩ := List.mem_map.mp member
    rw [List.filter_map, List.map_map]
    exact (List.map_id' _).symm

section Chain

variable {n : ℕ}

theorem chain_get {i : ℕ} (inside : i ≤ n + 1) : (chain n).get i = some (link n i) :=
  IrFunction.get_eq_some_iff.mpr ⟨List.mem_map.mpr ⟨i, List.mem_range.mpr (by omega), rfl⟩, rfl⟩

theorem link_predecessors {i : ℕ} (positive : 0 < i) (inside : i ≤ n) :
    (link n i).predecessors = [if i = 1 then n + 1 else i - 1] := by
  refine (List.pairwise_lt_range.filter _).eq_of_mem_iff (List.pairwise_singleton ..) fun x => ?_
  show x ∈ (List.range (n + 2)).filter (fun a => i ∈ follow n a) ↔ _
  rw [List.mem_filter, List.mem_range, List.mem_singleton, decide_eq_true_iff]
  unfold follow
  constructor
  · rintro ⟨inside', goes⟩
    split_ifs at goes ⊢ <;> simp at goes <;> omega
  · rintro rfl
    refine ⟨by split_ifs <;> omega, ?_⟩
    split_ifs <;> simp <;> omega

theorem join_predecessors (positive : 0 < n) : (link n 0).predecessors = [n, n + 1] := by
  have sorted : [n, n + 1].Pairwise (· < ·) := by simp
  refine (List.pairwise_lt_range.filter _).eq_of_mem_iff sorted fun x => ?_
  show x ∈ (List.range (n + 2)).filter (fun a => 0 ∈ follow n a) ↔ _
  rw [List.mem_filter, List.mem_range, decide_eq_true_iff]
  unfold follow
  simp only [List.mem_cons, List.not_mem_nil, or_false]
  constructor
  · rintro ⟨inside', goes⟩
    split_ifs at goes ⊢ <;> simp at goes <;> omega
  · rintro (rfl | rfl)
    · exact ⟨by omega, by simp [Nat.ne_of_gt positive]⟩
    · exact ⟨by omega, by simp [show ¬n + 1 < n by omega]⟩

/-- The block before another in the chain. -/
def previous (n i : ℕ) : ℕ :=
  if i = 1 then n + 1 else i - 1

theorem search_chain (k i : ℕ) (seen post : List ℕ) (rest : List (ℕ × ℕ)) (end_ : i + k = n) (positive : 0 < i)
    (fresh : ∀ j, i < j → j ≤ n → j ∉ seen) (new : 0 ∉ seen) :
    ∃ seen', 0 ∈ seen' ∧ (chain n).search seen post ((i, 0) :: rest) =
      (chain n).search seen' (List.range' i (k + 1) ++ 0 :: post) rest := by
  induction k generalizing i seen post rest with
  | zero =>
    obtain rfl : i = n := by omega
    have goes : (link i i).successors = [0] := by simp [link, follow, Nat.ne_of_gt positive]
    refine ⟨0 :: seen, List.mem_cons_self, ?_⟩
    calc (chain i).search seen post ((i, 0) :: rest)
        = (chain i).search (0 :: seen) post ((0, 0) :: (i, 1) :: rest) :=
          IrFunction.search_push (chain_get (by omega)) (by rw [goes]; rfl) (by simp [chain_get]) new
      _ = (chain i).search (0 :: seen) (0 :: post) ((i, 1) :: rest) :=
          IrFunction.search_pop (chain_get (Nat.zero_le _)) rfl
      _ = (chain i).search (0 :: seen) (i :: 0 :: post) rest :=
          IrFunction.search_pop (chain_get (by omega)) (by rw [goes]; rfl)
  | succ k ih =>
    have goes : (link n i).successors = [i + 1] := by simp [link, follow, Nat.ne_of_gt positive, show i < n by omega]
    have fresh' : ∀ j, i + 1 < j → j ≤ n → j ∉ (i + 1) :: seen := by
      intro j above below on
      rcases List.mem_cons.mp on with rfl | earlier
      · omega
      · exact fresh j (by omega) below earlier
    obtain ⟨seen', ended, rest_⟩ := ih (i + 1) ((i + 1) :: seen) post ((i, 1) :: rest) (by omega) (by omega) fresh'
      (by simp [new])
    refine ⟨seen', ended, ?_⟩
    calc (chain n).search seen post ((i, 0) :: rest)
        = (chain n).search ((i + 1) :: seen) post ((i + 1, 0) :: (i, 1) :: rest) :=
          IrFunction.search_push (chain_get (by omega)) (by rw [goes]; rfl)
            (by rw [chain_get (by omega)]; rfl) (fresh (i + 1) (by omega) (by omega))
      _ = (chain n).search seen' (List.range' (i + 1) (k + 1) ++ 0 :: post) ((i, 1) :: rest) := rest_
      _ = (chain n).search seen' (i :: (List.range' (i + 1) (k + 1) ++ 0 :: post)) rest :=
          IrFunction.search_pop (chain_get (by omega)) (by rw [goes]; rfl)

theorem chain_order (positive : 0 < n) : (chain n).reversePostorder = (n + 1) :: (List.range' 1 n ++ [0]) := by
  have goes : (link n (n + 1)).successors = [1, 0] := by simp [link, follow, show ¬n + 1 < n by omega]
  obtain ⟨seen, ended, down⟩ := search_chain (n := n) (n - 1) 1 [1, n + 1] [] [(n + 1, 1)] (by omega)
    (by omega)
    (by intro j above below on; simp at on; omega) (by simp)
  rw [show n - 1 + 1 = n by omega] at down
  calc (chain n).search [n + 1] [] [(n + 1, 0)]
      = (chain n).search [1, n + 1] [] [(1, 0), (n + 1, 1)] :=
        IrFunction.search_push (chain_get (Nat.le_refl _)) (by rw [goes]; rfl) (by rw [chain_get (by omega)]; rfl)
          (by simp; omega)
    _ = (chain n).search seen (List.range' 1 n ++ [0]) [(n + 1, 1)] := down
    _ = (chain n).search seen (List.range' 1 n ++ [0]) [(n + 1, 2)] :=
        IrFunction.search_skip (chain_get (Nat.le_refl _)) (by rw [goes]; rfl) ended
    _ = (chain n).search seen ((n + 1) :: (List.range' 1 n ++ [0])) [] :=
        IrFunction.search_pop (chain_get (Nat.le_refl _)) (by rw [goes]; rfl)
    _ = (n + 1) :: (List.range' 1 n ++ [0]) := by rw [IrFunction.search]

theorem chain_ordered : (chain n).Ordered (chain n).reversePostorder := by
  refine (chain n).reversePostorder_ordered ?_
  show ((chain n).get (n + 1)).isSome
  rw [chain_get (Nat.le_refl _)]
  rfl

theorem chain_index (positive : 0 < n) {i : ℕ} (above : 0 < i) (below : i ≤ n) :
    index (chain n).reversePostorder i = some i := by
  have nodup := (chain_ordered (n := n)).nodup
  rw [chain_order positive] at nodup ⊢
  have there : ((n + 1) :: (List.range' 1 n ++ [0]))[i]? = some i := by
    obtain ⟨j, rfl⟩ : ∃ j, i = j + 1 := ⟨i - 1, by omega⟩
    rw [List.getElem?_cons_succ, List.getElem?_append_left (by simp; omega), List.getElem?_range' (by omega)]
    congr 1
    omega
  obtain ⟨inside, same⟩ := List.getElem?_eq_some_iff.mp there
  rw [index_eq nodup (List.mem_of_getElem? there)]
  have position := nodup.idxOf_getElem i inside
  rw [same] at position
  rw [position]

theorem chain_index_entry (positive : 0 < n) : index (chain n).reversePostorder (n + 1) = some 0 := by
  have ordered := chain_ordered (n := n)
  exact (index_eq ordered.nodup ordered.entry_mem).trans (congrArg some (entry_rank ordered))

theorem intersect_cut {idom position : ℕ → Option ℕ} (left a : ℕ) (short : left < a) (inside : a ≤ n)
    (parents : ∀ i, 0 < i → i ≤ n → idom i = some (previous n i))
    (positions : ∀ i, 0 < i → i ≤ n → position i = some i) (first : position (n + 1) = some 0) :
    intersect idom position left a (n + 1) = a - left := by
  induction left generalizing a with
  | zero => rfl
  | succ left ih =>
    have before : idom a = some (a - 1) := by
      rw [parents a (by omega) inside, previous, if_neg (by omega)]
    have no : ¬(idom (a - 1) = some (a - 1) ∧ idom (n + 1) = some (n + 1) ∧ a - 1 ≠ n + 1) := by
      rintro ⟨same, -⟩
      rw [parents (a - 1) (by omega) (by omega), previous] at same
      split_ifs at same <;> simp at same <;> omega
    have deeper : a > 0 := by omega
    rw [intersect, if_neg (by omega)]
    simp only [positions a (by omega) inside, first, Option.getD_some, if_pos deeper, before]
    rw [if_neg no, ih (a - 1) (by omega) (by omega)]
    omega

/-- The turns of the blocks in a row put each below the one before. -/
theorem visits_chain {position : ℕ → Option ℕ} (k i : ℕ) (state : (ℕ → Option ℕ) × Bool) (within : i + k ≤ n)
    (root : state.1 (n + 1) = some (n + 1)) (done : ∀ j, 0 < j → j ≤ i → state.1 j = some (previous n j)) :
    ((List.range' (i + 1) k).foldl (visit (chain n) position) state).1 (n + 1) = some (n + 1) ∧
      ∀ j, 0 < j → j ≤ i + k →
        ((List.range' (i + 1) k).foldl (visit (chain n) position) state).1 j = some (previous n j) := by
  induction k generalizing i state with
  | zero => exact ⟨root, done⟩
  | succ k ih =>
    have known : state.1 (previous n (i + 1)) ≠ none := by
      by_cases start : i = 0
      · subst start
        rw [previous, if_pos rfl, root]
        simp
      · rw [previous, if_neg (by omega), Nat.add_sub_cancel, done i (by omega) (Nat.le_refl i)]
        simp
    have met : joined state.1 position (link n (i + 1)).predecessors = some (previous n (i + 1)) := by
      rw [link_predecessors (by omega) (by omega)]
      show (if state.1 (previous n (i + 1)) = none then none else some (previous n (i + 1))) = _
      exact if_neg known
    have turned := @visit_fst _ _ _ state.2 _ _ _ (chain_get (n := n) (i := i + 1) (by omega)) met
    rw [List.range'_succ, List.foldl_cons]
    have rest := ih (i + 1) (visit (chain n) position state (i + 1)) (by omega)
      (by rw [turned, Function.update_of_ne (by omega)]; exact root) ?_
    · rwa [show i + (k + 1) = i + 1 + k by omega]
    · intro j above below
      rw [turned]
      by_cases same : j = i + 1
      · rw [same, Function.update_self]
      · rw [Function.update_of_ne same]
        exact done j above (by omega)

theorem round_chain (long : 10000 < n) {idom : ℕ → Option ℕ} (root : idom (n + 1) = some (n + 1)) :
    (round (chain n) (chain n).reversePostorder idom).1 (n + 1) = some (n + 1) ∧
      (round (chain n) (chain n).reversePostorder idom).1 0 = some (n - 10000) := by
  have positive : 0 < n := by omega
  generalize folded : (List.range' 1 n).foldl (visit (chain n) (index (chain n).reversePostorder)) (idom, false) = state
  have whole : round (chain n) (chain n).reversePostorder idom =
      visit (chain n) (index (chain n).reversePostorder) state 0 := by
    have rest : (chain n).reversePostorder.drop 1 = List.range' 1 n ++ [0] := by rw [chain_order positive]; rfl
    rw [round, rest, List.foldl_append, folded]
    rfl
  obtain ⟨root', parents⟩ := visits_chain n 0 (idom, false) (Nat.le_of_eq (Nat.zero_add n)) root (by omega)
  rw [folded] at root' parents
  have met : joined state.1 (index (chain n).reversePostorder) (link n 0).predecessors = some (n - 10000) := by
    rw [join_predecessors positive]
    have cut := intersect_cut 10000 n long (Nat.le_refl n) (fun i above below => parents i above (by omega))
      (fun i => chain_index positive) (chain_index_entry positive)
    have known : state.1 n ≠ none := by
      rw [parents n positive (by omega)]
      simp
    simp only [joined, List.foldl_cons, List.foldl_nil, if_neg known, root', if_neg (Option.some_ne_none _), cut]
  have turned := @visit_fst _ _ _ state.2 _ _ _ (chain_get (n := n) (i := 0) (Nat.zero_le _)) met
  rw [whole, turned]
  exact ⟨by rw [Function.update_of_ne (by omega)]; exact root', Function.update_self ..⟩

theorem dominators_chain (long : 10000 < n) : dominators (chain n) (chain n).reversePostorder 0 = some (n - 10000) := by
  have kept : ∀ k, ((fun idom => (round (chain n) (chain n).reversePostorder idom).1)^[k]
      (Function.update (fun _ => none) (n + 1) (some (n + 1)))) (n + 1) = some (n + 1) := by
    intro k
    induction k with
    | zero => exact Function.update_self ..
    | succ k ih =>
      rw [Function.iterate_succ_apply']
      exact (round_chain long ih).1
  rw [dominators, rounds_eq, Function.iterate_succ_apply' _ 999]
  exact (round_chain long (kept 999)).2

end Chain

end E5r.SsaDominators
