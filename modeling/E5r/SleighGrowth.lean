import E5r.SleighDecode

/-!
# What a rejected alternative leaves

Matching a table gives no node and the tree as it was, or a tree that grew by accepted alternatives only.
-/

namespace E5r.SleighGrowth

open SleighModel SleighDecode SleighDecode.Input Fallible

/-- A tree grows from one place on: the nodes before it and the published values stay. -/
structure Kept (n : ℕ) (t t' : Tree) : Prop where
  nodes : t'.nodes.take n = t.nodes.take n
  long : t.nodes.length ≤ t'.nodes.length
  commits : t'.commits = t.commits

theorem Kept.refl (n : ℕ) (t : Tree) : Kept n t t := ⟨rfl, Nat.le_refl _, rfl⟩

variable {n : ℕ} {t u : Tree}

theorem Kept.trans {v : Tree} (first : Kept n t u) (second : Kept n u v) : Kept n t v :=
  ⟨second.nodes.trans first.nodes, first.long.trans second.long, second.commits.trans first.commits⟩

theorem Kept.mono {m : ℕ} (kept : Kept n t u) (le : m ≤ n) : Kept m t u := by
  refine ⟨?_, kept.long, kept.commits⟩
  have same := congrArg (List.take m) kept.nodes
  rwa [List.take_take, List.take_take, Nat.min_eq_left le] at same

theorem Kept.getElem? {i : ℕ} (kept : Kept n t u) (before : i < n) : u.nodes[i]? = t.nodes[i]? := by
  have same := congrArg (fun nodes : List Node => nodes[i]?) kept.nodes
  simpa only [List.getElem?_take, if_pos before] using same

theorem Kept.restored (kept : Kept t.nodes.length t u) :
    ({ u with nodes := u.nodes.take t.nodes.length, ctx := t.ctx } : Tree) = t := by
  obtain ⟨nodes, -, commits⟩ := kept
  rw [List.take_length] at nodes
  rw [nodes, commits]

theorem record_kept (t : Tree) (me oi : ℕ) (op : ResolvedOperand) : Kept me t (t.record me oi op) := by
  refine ⟨?_, ?_, rfl⟩
  · refine List.ext_getElem? fun i => ?_
    rw [List.getElem?_take, List.getElem?_take]
    split
    · next before =>
      rw [Tree.record, List.getElem?_modify]
      simp [show me ≠ i by omega]
    · rfl
  · rw [Tree.record, List.length_modify]

theorem applyContextAssigns_nodes (input : Input) (c : Constructor) (me : ℕ) (t : Tree) :
    (applyContextAssigns input c me t).nodes = t.nodes ∧ (applyContextAssigns input c me t).commits = t.commits := by
  unfold applyContextAssigns
  induction c.disasm generalizing t with
  | nil => exact ⟨rfl, rfl⟩
  | cons stmt rest ih =>
    rw [List.foldl_cons]
    obtain ⟨nodes, commits⟩ := ih _
    rw [nodes, commits]
    split
    · split <;> exact ⟨rfl, rfl⟩
    · exact ⟨rfl, rfl⟩

/-- Matching a subtable keeps the tree it starts from, whether it finds a node or not. -/
def Keeps (sub : TableId → ℕ → Step (Option ℕ)) : Prop :=
  ∀ id at_ w found w', sub id at_ w = .ok (found, w') → Kept w.nodes.length w.toTree w'.toTree

section

variable {input : Input} {sub : TableId → ℕ → Step (Option ℕ)}

variable {c : Constructor} {alt : PatternAlt} {w w' : Walk}

theorem operand_kept (keeps : Keeps sub) {me oi at_ : ℕ} {first : Bool} {r : Resolved}
    (ran : operand input sub c alt me oi at_ first w = .ok (r, w')) (inside : me < w.nodes.length) :
    Kept me w.toTree w'.toTree := by
  unfold operand at ran
  split at ran
  · cases ran
    exact .refl _ _
  split at ran
  · cases ran
    exact .refl _ _
  dsimp only at ran
  split at ran
  · cases ran
  split at ran
  · obtain ⟨⟨child, u⟩, matched, ran⟩ := bind_ok_iff.mp ran
    have kept := (keeps _ _ _ _ _ matched).mono inside.le
    cases child with
    | none =>
      cases ran
      exact kept
    | some child =>
      cases ran
      exact kept.trans (record_kept ..)
  · obtain ⟨read, -, ran⟩ := bind_ok_iff.mp ran
    cases read with
    | none =>
      cases ran
      exact .refl _ _
    | some read =>
      cases ran
      exact record_kept ..

theorem firstPass_kept (keeps : Keeps sub) {me at_ : ℕ} {ois : List ℕ} :
    ∀ {done : BitVec 64} {w w' : Walk} {r : Option (BitVec 64)},
      firstPass input sub c alt me at_ ois done w = .ok (r, w') → me < w.nodes.length →
        Kept me w.toTree w'.toTree := by
  induction ois with
  | nil =>
    intro done w w' r ran _
    cases ran
    exact .refl _ _
  | cons oi rest ih =>
    intro done w w' r ran inside
    unfold firstPass at ran
    split at ran
    · exact ih ran inside
    · obtain ⟨⟨resolved, u⟩, one, ran⟩ := bind_ok_iff.mp ran
      have kept := operand_kept keeps one inside
      cases resolved with
      | yes => exact kept.trans (ih ran (inside.trans_le kept.long))
      | deferred => exact kept.trans (ih ran (inside.trans_le kept.long))
      | no =>
        cases ran
        exact kept

theorem secondPass_kept (keeps : Keeps sub) {me at_ : ℕ} {done : BitVec 64} {ois : List ℕ} :
    ∀ {w w' : Walk} {r : Bool}, secondPass input sub c alt me at_ done ois w = .ok (r, w') →
      me < w.nodes.length → Kept me w.toTree w'.toTree := by
  induction ois with
  | nil =>
    intro w w' r ran _
    cases ran
    exact .refl _ _
  | cons oi rest ih =>
    intro w w' r ran inside
    unfold secondPass at ran
    split at ran
    · exact ih ran inside
    · obtain ⟨⟨resolved, u⟩, one, ran⟩ := bind_ok_iff.mp ran
      have kept := operand_kept keeps one inside
      dsimp only at ran
      split at ran
      · exact kept.trans (ih ran (inside.trans_le kept.long))
      · cases ran
        exact kept

theorem tryAlt_runs {cid : ConstructorId} {at_ : ℕ} {r : Option ℕ}
    (ran : tryAlt input sub cid c alt at_ w = .ok (r, w')) :
    w.nodes.length < input.limits.maxNodes ∧ ∃ done u,
      firstPass input sub c alt w.nodes.length at_ (sequence c) 0 { w with nodes := w.nodes ++ [fresh cid c alt at_] } =
        .ok (done, u) ∧
      (done = none ∧ r = none ∧ w' = u ∨ ∃ d ok, done = some d ∧
        secondPass input sub c alt w.nodes.length at_ d (sequence c)
          { u with toTree := applyContextAssigns input c w.nodes.length u.toTree } = .ok (ok, w') ∧
        (r = none ∨ r = some w.nodes.length ∧ ok = true)) := by
  unfold tryAlt at ran
  split at ran
  · cases ran
  next room =>
  refine ⟨by omega, ?_⟩
  obtain ⟨⟨done, u⟩, first, ran⟩ := bind_ok_iff.mp ran
  refine ⟨done, u, first, ?_⟩
  cases done with
  | none =>
    cases ran
    exact .inl ⟨rfl, rfl, rfl⟩
  | some d =>
    obtain ⟨⟨ok, v⟩, second, ran⟩ := bind_ok_iff.mp ran
    right
    cases ok with
    | false =>
      cases ran
      exact ⟨d, _, rfl, second, .inl rfl⟩
    | true =>
      simp only [if_true] at ran
      split at ran
      · obtain ⟨⟨holds, stop⟩, -, ran⟩ := bind_ok_iff.mp ran
        cases holds with
        | false =>
          cases ran
          exact ⟨d, _, rfl, second, .inl rfl⟩
        | true =>
          cases ran
          exact ⟨d, _, rfl, second, .inr ⟨rfl, rfl⟩⟩
      · cases ran
        exact ⟨d, _, rfl, second, .inr ⟨rfl, rfl⟩⟩

theorem fresh_kept (t : Tree) (n : Node) : Kept t.nodes.length t { t with nodes := t.nodes ++ [n] } :=
  ⟨by rw [List.take_left, List.take_length], by simp, rfl⟩

theorem assigns_kept (input : Input) (c : Constructor) (me n : ℕ) (t : Tree) :
    Kept n t (applyContextAssigns input c me t) := by
  obtain ⟨nodes, commits⟩ := applyContextAssigns_nodes input c me t
  exact ⟨by rw [nodes], by rw [nodes], commits⟩

theorem tryAlt_kept (keeps : Keeps sub) {cid : ConstructorId} {at_ : ℕ} {r : Option ℕ}
    (ran : tryAlt input sub cid c alt at_ w = .ok (r, w')) : Kept w.nodes.length w.toTree w'.toTree := by
  obtain ⟨-, done, u, first, rest⟩ := tryAlt_runs ran
  have begun := fresh_kept w.toTree (fresh cid c alt at_)
  have one := begun.trans (firstPass_kept keeps first (by simp))
  rcases rest with ⟨-, -, rfl⟩ | ⟨d, ok, -, second, -⟩
  · exact one
  · have assigned := assigns_kept input c w.nodes.length w.nodes.length u.toTree
    have long : w.nodes.length < (applyContextAssigns input c w.nodes.length u.toTree).nodes.length := by
      have := (firstPass_kept keeps first (by simp)).long
      simp only [List.length_append, List.length_singleton] at this
      have := assigned.long
      omega
    exact (one.trans assigned).trans (secondPass_kept keeps second long)

end

/-- A tree grows by one accepted alternative of a table and by what grows where its operands match a
subtable. Nothing is tried and rejected on the way. -/
def Grows (input : Input) (chooser : Chooser) (fits : PatternAlt → ℕ → Prop) :
    ℕ → TableId → ℕ → Tree → Tree → ℕ → Prop
  | 0, _, _, _, _, _ => False
  | room + 1, id, at_, t, t', me =>
    ∃ (sub : TableId → ℕ → Step (Option ℕ)) (cid : ConstructorId) (c : Constructor) (alt : PatternAlt) (n n' : ℕ),
      (∀ id at_ w child w', sub id at_ w = .ok (some child, w') →
        Grows input chooser fits room id at_ w.toTree w'.toTree child) ∧
      cid ∈ chooser.candidates id (input.stream at_) ∧ input.spec.constructors[cid.index]? = some c ∧
      alt ∈ c.resolved.alternatives ∧ alt.admits (input.stream at_) t.ctx.bytes = true ∧ fits alt at_ ∧
      tryAlt input sub cid c alt at_ ⟨t, n⟩ = .ok (some me, ⟨t', n'⟩)

section

variable {input : Input} {sub : TableId → ℕ → Step (Option ℕ)}

theorem alternatives_took (keeps : Keeps sub) {cid : ConstructorId} {c : Constructor} {at_ : ℕ}
    {alts : List PatternAlt} : ∀ {w w' : Walk} {r : Option ℕ},
      alternatives input sub cid c at_ alts w = .ok (r, w') →
        (r = none → w'.toTree = w.toTree) ∧ ∀ me, r = some me → ∃ alt ∈ alts,
          alt.admits (input.stream at_) w.ctx.bytes = true ∧
            ∃ n, tryAlt input sub cid c alt at_ ⟨w.toTree, n⟩ = .ok (some me, w') := by
  induction alts with
  | nil =>
    intro w w' r ran
    cases ran
    exact ⟨fun _ => rfl, fun _ absurd => nomatch absurd⟩
  | cons alt rest ih =>
    intro w w' r ran
    unfold alternatives at ran
    split at ran
    · next admits =>
      obtain ⟨⟨found, tried⟩, attempt, ran⟩ := bind_ok_iff.mp ran
      cases found with
      | some node =>
        cases ran
        refine ⟨fun absurd => (nomatch absurd), ?_⟩
        rintro me ⟨⟩
        exact ⟨alt, List.mem_cons_self, admits, w.steps, attempt⟩
      | none =>
        have same := (tryAlt_kept keeps attempt).restored
        obtain ⟨failed, accepted⟩ := ih ran
        refine ⟨fun none_ => (failed none_).trans same, ?_⟩
        intro me some_
        obtain ⟨other, member, admits, n, took⟩ := accepted me some_
        exact ⟨other, List.mem_cons_of_mem _ member, admits, n, by rwa [same] at took⟩
    · obtain ⟨failed, accepted⟩ := ih ran
      refine ⟨failed, ?_⟩
      intro me some_
      obtain ⟨other, member, rest⟩ := accepted me some_
      exact ⟨other, List.mem_cons_of_mem _ member, rest⟩

theorem constructor_took (keeps : Keeps sub) {cid : ConstructorId} {at_ : ℕ} {w w' : Walk} {r : Option ℕ}
    (ran : constructor input sub cid at_ w = .ok (r, w')) :
    (r = none → w'.toTree = w.toTree) ∧ ∀ me, r = some me → ∃ c alt, input.spec.constructors[cid.index]? = some c ∧
      alt ∈ c.resolved.alternatives ∧ alt.admits (input.stream at_) w.ctx.bytes = true ∧
        ∃ n, tryAlt input sub cid c alt at_ ⟨w.toTree, n⟩ = .ok (some me, w') := by
  unfold constructor at ran
  split at ran
  · cases ran
  obtain ⟨c, there, ran⟩ := bind_ok_iff.mp ran
  have is : input.spec.constructors[cid.index]? = some c := by
    unfold entry at there
    cases found : input.spec.constructors[cid.index]? with
    | none => rw [found] at there; cases there
    | some c' => rw [found] at there; cases there; rfl
  obtain ⟨failed, accepted⟩ := alternatives_took keeps ran
  refine ⟨failed, ?_⟩
  intro me some_
  obtain ⟨alt, member, admits, took⟩ := accepted me some_
  exact ⟨c, alt, is, member, admits, took⟩

theorem firstOf_took (keeps : Keeps sub) {mayStart : ConstructorId → Bool} {at_ : ℕ} {cids : List ConstructorId} :
    ∀ {w w' : Walk} {r : Option ℕ}, firstOf input sub mayStart at_ cids w = .ok (r, w') →
      (r = none → w'.toTree = w.toTree) ∧ ∀ me, r = some me → ∃ cid ∈ cids, ∃ c alt,
        input.spec.constructors[cid.index]? = some c ∧ alt ∈ c.resolved.alternatives ∧
          alt.admits (input.stream at_) w.ctx.bytes = true ∧
            ∃ n, tryAlt input sub cid c alt at_ ⟨w.toTree, n⟩ = .ok (some me, w') := by
  induction cids with
  | nil =>
    intro w w' r ran
    cases ran
    exact ⟨fun _ => rfl, fun _ absurd => nomatch absurd⟩
  | cons cid rest ih =>
    intro w w' r ran
    unfold firstOf at ran
    split at ran
    · obtain ⟨⟨found, u⟩, attempt, ran⟩ := bind_ok_iff.mp ran
      obtain ⟨left, took⟩ := constructor_took keeps attempt
      cases found with
      | some node =>
        cases ran
        refine ⟨fun absurd => (nomatch absurd), ?_⟩
        rintro me ⟨⟩
        exact ⟨cid, List.mem_cons_self, took _ rfl⟩
      | none =>
        have same := left rfl
        obtain ⟨failed, accepted⟩ := ih ran
        refine ⟨fun none_ => (failed none_).trans same, ?_⟩
        intro me some_
        obtain ⟨other, member, rest⟩ := accepted me some_
        rw [same] at rest
        exact ⟨other, List.mem_cons_of_mem _ member, rest⟩
    · obtain ⟨failed, accepted⟩ := ih ran
      refine ⟨failed, ?_⟩
      intro me some_
      obtain ⟨other, member, rest⟩ := accepted me some_
      exact ⟨other, List.mem_cons_of_mem _ member, rest⟩

end

theorem table_grows (input : Input) (chooser : Chooser) (room : ℕ) : ∀ {id : TableId} {at_ : ℕ} {w w' : Walk}
    {r : Option ℕ}, input.table chooser room id at_ w = .ok (r, w') →
      Kept w.nodes.length w.toTree w'.toTree ∧ (r = none → w'.toTree = w.toTree) ∧
        ∀ me, r = some me → Grows input chooser (fun _ _ => True) room id at_ w.toTree w'.toTree me := by
  induction room with
  | zero =>
    intro id at_ w w' r ran
    cases ran
  | succ room ih =>
    intro id at_ w w' r ran
    have keeps : Keeps (input.table chooser room) := fun _ _ _ _ _ ran => (ih ran).1
    unfold Input.table at ran
    obtain ⟨failed, accepted⟩ := firstOf_took keeps ran
    refine ⟨?_, failed, ?_⟩
    · cases r with
      | none =>
        rw [failed rfl]
        exact .refl _ _
      | some me =>
        obtain ⟨_, -, _, _, -, -, -, n, took⟩ := accepted me rfl
        have kept := tryAlt_kept keeps took
        exact kept
    · intro me some_
      obtain ⟨cid, member, c, alt, is, listed, admits, n, took⟩ := accepted me some_
      exact ⟨input.table chooser room, cid, c, alt, n, w'.steps, fun _ _ _ _ _ ran => (ih ran).2.2 _ rfl, member, is,
        listed, admits, trivial, took⟩

end E5r.SleighGrowth
