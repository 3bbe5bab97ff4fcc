import E5r.SleighGrowth

/-!
# Ranges and lengths of a decoded tree

Every node's bytes lie inside its parent's and every subtable points to a later node. The instruction
is no longer than the bytes supplied just when every alternative it is made of ends within them, and
every operand of it is placed within them.
-/

namespace E5r.SleighRanges

open SleighModel SleighDecode SleighDecode.Input SleighGrowth Fallible

/-! ### Nodes -/

/-- A node's subtables come later and lie inside it. -/
def Holds (nodes : List Node) (i : ℕ) (n : Node) : Prop :=
  ∀ op ∈ n.operands, ∀ c, op.value = .sub c →
    ∃ m, nodes[c]? = some m ∧ i < c ∧ n.start ≤ m.start ∧ m.stop ≤ n.stop

/-- From one node on, each ends behind its start at an offset that is let through, and holds its
subtables. -/
def Nested (ok : ℕ → Prop) (first : ℕ) (nodes : List Node) : Prop :=
  ∀ i n, first ≤ i → nodes[i]? = some n → n.start ≤ n.stop ∧ ok n.stop ∧ Holds nodes i n

/-- A node that is being built goes on. -/
structure Grown (ok : ℕ → Prop) (me : ℕ) (t t' : Tree) : Prop where
  kept : Kept me t t'
  stretched : ∀ n, t.nodes[me]? = some n → ∃ n', t'.nodes[me]? = some n' ∧ n'.start = n.start ∧ n.stop ≤ n'.stop
  nested : Nested ok me t.nodes → Nested ok me t'.nodes

theorem Grown.refl (ok : ℕ → Prop) (me : ℕ) (t : Tree) : Grown ok me t t :=
  ⟨.refl _ _, fun n is => ⟨n, is, rfl, Nat.le_refl _⟩, id⟩

variable {t : Tree}

theorem Grown.trans {ok : ℕ → Prop} {me : ℕ} {u v : Tree} (first : Grown ok me t u) (second : Grown ok me u v) :
    Grown ok me t v := by
  refine ⟨first.kept.trans second.kept, ?_, fun nested => second.nested (first.nested nested)⟩
  intro n is
  obtain ⟨n', is', start, stop⟩ := first.stretched n is
  obtain ⟨n'', is'', start', stop'⟩ := second.stretched n' is'
  exact ⟨n'', is'', start'.trans start, stop.trans stop'⟩

/-- What matching a subtable adds: a tree of nodes behind the ones that are there. -/
structure Planted (ok : ℕ → Prop) (at_ : ℕ) (t t' : Tree) (me : ℕ) : Prop where
  first : me = t.nodes.length
  kept : Kept t.nodes.length t t'
  root : ∃ n, t'.nodes[me]? = some n ∧ n.start = at_
  nested : Nested ok me t'.nodes

variable {child : ℕ} {t' : Tree}

theorem Planted.grown {ok : ℕ → Prop} {at_ me : ℕ} (planted : Planted ok at_ t t' child)
    (inside : me < t.nodes.length) : Grown ok me t t' := by
  have same : ∀ i, i < t.nodes.length → t'.nodes[i]? = t.nodes[i]? := fun i before => planted.kept.getElem? before
  refine ⟨planted.kept.mono inside.le, ?_, ?_⟩
  · intro n is
    exact ⟨n, by rw [same me inside, is], rfl, Nat.le_refl _⟩
  · intro nested i n later is
    by_cases old : i < t.nodes.length
    · rw [same i old] at is
      obtain ⟨order, fits, holds⟩ := nested i n later is
      refine ⟨order, fits, ?_⟩
      intro op member c sub
      obtain ⟨m, there, rest⟩ := holds op member c sub
      obtain ⟨before, -⟩ := List.getElem?_eq_some_iff.mp there
      exact ⟨m, by rw [same c before, there], rest⟩
    · exact planted.nested i n (by rw [planted.first]; omega) is

theorem record_getElem? (t : Tree) (me oi : ℕ) (op : ResolvedOperand) (i : ℕ) :
    (t.record me oi op).nodes[i]? =
      if me = i then t.nodes[i]?.map fun n => { n with operands := n.operands.set oi op, stop := max n.stop op.stop }
      else t.nodes[i]? := by
  rw [Tree.record, List.getElem?_modify]
  split
  · next same =>
    subst same
    simp
  · simp

theorem record_grown {ok : ℕ → Prop} {me oi : ℕ} {op : ResolvedOperand} (fits : ok op.stop)
    (sub : ∀ n c, t.nodes[me]? = some n → op.value = .sub c →
      ∃ m, t.nodes[c]? = some m ∧ me < c ∧ n.start ≤ m.start ∧ m.stop ≤ op.stop) :
    Grown ok me t (t.record me oi op) := by
  refine ⟨record_kept .., ?_, ?_⟩
  · intro n is
    refine ⟨{ n with operands := n.operands.set oi op, stop := max n.stop op.stop }, ?_, rfl, Nat.le_max_left ..⟩
    rw [record_getElem?, if_pos rfl, is]
    rfl
  · intro nested i n' later is'
    rw [record_getElem?] at is'
    have others : ∀ c m, me < c → t.nodes[c]? = some m → (t.record me oi op).nodes[c]? = some m := by
      intro c m behind there
      rw [record_getElem?, if_neg (by omega), there]
    split at is'
    · next same =>
      subst same
      obtain ⟨n, is, rfl⟩ := Option.map_eq_some_iff.mp is'
      obtain ⟨order, old, holds⟩ := nested me n later is
      refine ⟨order.trans (Nat.le_max_left ..), ?_, ?_⟩
      · rcases Nat.le_total n.stop op.stop with le | le
        · rwa [show max n.stop op.stop = op.stop from Nat.max_eq_right le]
        · rwa [show max n.stop op.stop = n.stop from Nat.max_eq_left le]
      · intro op' member c value
        rcases List.mem_or_eq_of_mem_set member with before | rfl
        · obtain ⟨m, there, behind, start, stop⟩ := holds op' before c value
          exact ⟨m, others c m behind there, behind, start, stop.trans (Nat.le_max_left ..)⟩
        · obtain ⟨m, there, behind, start, stop⟩ := sub n c is value
          exact ⟨m, others c m behind there, behind, start, stop.trans (Nat.le_max_right ..)⟩
    · next other =>
      obtain ⟨order, old, holds⟩ := nested i n' later is'
      refine ⟨order, old, ?_⟩
      intro op' member c value
      obtain ⟨m, there, behind, rest⟩ := holds op' member c value
      exact ⟨m, others c m (by omega) there, behind, rest⟩

/-! ### Growing -/

theorem attached_value {attach : Attach} {raw : BitVec 64} {signed : Int64} {v : Value}
    (is : attached attach raw signed = some v) (c : ℕ) : v ≠ .sub c := by
  rintro rfl
  cases attach with
  | none => cases is
  | _ =>
    obtain ⟨_, -, absurd⟩ := Option.map_eq_some_iff.mp is
    cases absurd

theorem readSource_spec {input : Input} {ctx : Context} {start stop : ℕ} {source : OperandSource} {value : Value}
    {raw : Int64} (ran : input.readSource ctx start source = .ok (some (value, raw, stop))) :
    (∀ c, value ≠ .sub c) ∧ start ≤ stop ∧ (stop ≤ input.bytes.length ∨ stop = start) := by
  unfold readSource at ran
  cases source with
  | field fid =>
    obtain ⟨field, -, ran⟩ := bind_ok_iff.mp ran
    obtain ⟨token, -, ran⟩ := bind_ok_iff.mp ran
    split at ran
    · cases ran
    next near =>
    split at ran
    · cases ran
    next raw' extracted =>
    rw [pure_ok_iff] at ran
    obtain ⟨v, is, same⟩ := Option.map_eq_some_iff.mp ran
    cases same
    have long : token.size ≤ (input.bytes.drop start).length := by
      unfold Field.extract at extracted
      split at extracted
      · cases extracted
      · omega
    rw [List.length_drop] at long
    exact ⟨attached_value is, by omega, .inl (by omega)⟩
  | context cid =>
    obtain ⟨field, -, ran⟩ := bind_ok_iff.mp ran
    split at ran
    · cases ran
    rw [pure_ok_iff] at ran
    obtain ⟨v, is, same⟩ := Option.map_eq_some_iff.mp ran
    cases same
    exact ⟨attached_value is, Nat.le_refl _, .inr rfl⟩
  | varnode | bitRange | computed | unbound =>
    cases ran
    exact ⟨fun _ => nofun, Nat.le_refl _, .inr rfl⟩
  | table => cases ran

variable {w w' : Walk}

theorem operand_cases {input : Input} {sub : TableId → ℕ → Step (Option ℕ)} {c : Constructor} {alt : PatternAlt}
    {me oi at_ : ℕ} {first : Bool} {r : Resolved} (ran : operand input sub c alt me oi at_ first w = .ok (r, w'))
    (notNo : r ≠ .no) :
    w' = w ∨ ∃ rel value raw stop u, saturatingAdd at_ rel ≤ input.limits.maxBytes ∧ r = .yes ∧
      w' = { u with toTree := u.record me oi ⟨saturatingAdd at_ rel, stop, value, raw⟩ } ∧
      ((∃ tid child, sub tid (saturatingAdd at_ rel) w = .ok (some child, u) ∧ value = .sub child ∧
          stop = (u.node child).stop) ∨
        u = w ∧ (∀ c, value ≠ .sub c) ∧ saturatingAdd at_ rel ≤ stop ∧
          (stop ≤ input.bytes.length ∨ stop = saturatingAdd at_ rel)) := by
  unfold operand at ran
  split at ran
  · cases ran
    exact .inl rfl
  split at ran
  · cases ran
    exact .inl rfl
  next rel _ =>
  dsimp only at ran
  split at ran
  · cases ran
  next near =>
  right
  split at ran
  · obtain ⟨⟨child, u⟩, matched, ran⟩ := bind_ok_iff.mp ran
    cases child with
    | none =>
      cases ran
      exact absurd rfl notNo
    | some child =>
      cases ran
      exact ⟨rel, _, _, _, u, by omega, rfl, rfl, .inl ⟨_, child, matched, rfl, rfl⟩⟩
  · obtain ⟨read, is, ran⟩ := bind_ok_iff.mp ran
    cases read with
    | none =>
      cases ran
      exact absurd rfl notNo
    | some read =>
      obtain ⟨value, raw, stop⟩ := read
      cases ran
      obtain ⟨notSub, order, reach⟩ := readSource_spec is
      exact ⟨rel, value, raw, stop, w, by omega, rfl, rfl, .inr ⟨rfl, notSub, order, reach⟩⟩

/-- Growing a tree adds nodes of its own: an offset that is let through is one of a place, of the bytes
or of an alternative's pattern. -/
structure Lets (input : Input) (fits : PatternAlt → ℕ → Prop) (ok : ℕ → Prop) : Prop where
  place : ∀ start, start ≤ input.limits.maxBytes → ok start
  bytes : ∀ stop, stop ≤ input.bytes.length → ok stop
  ends : ∀ alt at_, fits alt at_ → ok (saturatingAdd at_ alt.length)

def Plants (ok : ℕ → Prop) (sub : TableId → ℕ → Step (Option ℕ)) : Prop :=
  ∀ id at_ w child w', at_ < 2 ^ 64 → sub id at_ w = .ok (some child, w') → Planted ok at_ w.toTree w'.toTree child

theorem Planted.node {ok : ℕ → Prop} {at_ child : ℕ} {t t' : Tree} (planted : Planted ok at_ t t' child) :
    t'.nodes[child]? = some (t'.node child) ∧ (t'.node child).start = at_ ∧ at_ ≤ (t'.node child).stop ∧
      ok (t'.node child).stop := by
  obtain ⟨n, is, rfl⟩ := planted.root
  have same : t'.node child = n := by rw [SleighDecode.Tree.node, is]; rfl
  obtain ⟨order, fits, -⟩ := planted.nested child n (Nat.le_refl _) is
  rw [same]
  exact ⟨is, rfl, order, fits⟩

section

variable {input : Input} {sub : TableId → ℕ → Step (Option ℕ)} {fits : PatternAlt → ℕ → Prop} {ok : ℕ → Prop}

theorem saturatingAdd_small (a b : ℕ) : saturatingAdd a b < 2 ^ 64 := by
  unfold saturatingAdd
  omega

theorem saturatingAdd_le {a : ℕ} (b : ℕ) (small : a < 2 ^ 64) : a ≤ saturatingAdd a b := by
  unfold saturatingAdd
  omega

variable {c : Constructor} {alt : PatternAlt}

theorem operand_grown (lets : Lets input fits ok) (plants : Plants ok sub) {me oi at_ : ℕ} {first : Bool}
    {r : Resolved} (ran : operand input sub c alt me oi at_ first w = .ok (r, w')) (notNo : r ≠ .no)
    (small : at_ < 2 ^ 64) (start : ∃ n, w.nodes[me]? = some n ∧ n.start = at_) : Grown ok me w.toTree w'.toTree := by
  rcases operand_cases ran notNo with rfl | ⟨rel, value, raw, stop, u, near, -, rfl, ⟨tid, child, matched, rfl, rfl⟩ |
    ⟨rfl, notSub, order, reach⟩⟩
  · exact .refl _ _ _
  · obtain ⟨n, is, begins⟩ := start
    obtain ⟨inside, -⟩ := List.getElem?_eq_some_iff.mp is
    have planted := plants _ _ _ _ _ (saturatingAdd_small at_ rel) matched
    have grown := planted.grown inside
    obtain ⟨there, starts, order, lets⟩ := planted.node
    refine grown.trans (record_grown lets ?_)
    rintro n' c is' ⟨⟩
    obtain ⟨n'', is'', same, -⟩ := grown.stretched n is
    rw [is'] at is''
    cases is''
    refine ⟨_, there, by rw [planted.first]; exact inside, ?_, Nat.le_refl _⟩
    rw [same, begins, starts]
    exact saturatingAdd_le rel small
  · refine record_grown ?_ fun n c _ value => absurd value (notSub c)
    rcases reach with reach | rfl
    · exact lets.bytes _ reach
    · exact lets.place _ near

theorem Grown.start {me at_ : ℕ} (grown : Grown ok me t t') (start : ∃ n, t.nodes[me]? = some n ∧ n.start = at_) :
    ∃ n, t'.nodes[me]? = some n ∧ n.start = at_ := by
  obtain ⟨n, is, begins⟩ := start
  obtain ⟨n', is', same, -⟩ := grown.stretched n is
  exact ⟨n', is', same.trans begins⟩

theorem firstPass_grown (lets : Lets input fits ok) (plants : Plants ok sub) {me at_ : ℕ} (small : at_ < 2 ^ 64)
    {ois : List ℕ} : ∀ {done d : BitVec 64} {w w' : Walk},
      firstPass input sub c alt me at_ ois done w = .ok (some d, w') →
        (∃ n, w.nodes[me]? = some n ∧ n.start = at_) → Grown ok me w.toTree w'.toTree := by
  induction ois with
  | nil =>
    intro done d w w' ran _
    cases ran
    exact .refl _ _ _
  | cons oi rest ih =>
    intro done d w w' ran start
    unfold firstPass at ran
    split at ran
    · exact ih ran start
    · obtain ⟨⟨resolved, u⟩, one, ran⟩ := bind_ok_iff.mp ran
      cases resolved with
      | yes =>
        have grown := operand_grown lets plants one (by simp) small start
        exact grown.trans (ih ran (grown.start start))
      | deferred =>
        have grown := operand_grown lets plants one (by simp) small start
        exact grown.trans (ih ran (grown.start start))
      | no => cases ran

theorem secondPass_grown (lets : Lets input fits ok) (plants : Plants ok sub) {me at_ : ℕ} (small : at_ < 2 ^ 64)
    {done : BitVec 64} {ois : List ℕ} : ∀ {w w' : Walk},
      secondPass input sub c alt me at_ done ois w = .ok (true, w') →
        (∃ n, w.nodes[me]? = some n ∧ n.start = at_) → Grown ok me w.toTree w'.toTree := by
  induction ois with
  | nil =>
    intro w w' ran _
    cases ran
    exact .refl _ _ _
  | cons oi rest ih =>
    intro w w' ran start
    unfold secondPass at ran
    split at ran
    · exact ih ran start
    · obtain ⟨⟨resolved, u⟩, one, ran⟩ := bind_ok_iff.mp ran
      dsimp only at ran
      split at ran
      · next yes =>
        have grown := operand_grown lets plants one (by simp [yes]) small start
        exact grown.trans (ih ran (grown.start start))
      · cases ran

/-- A constructor's node, with the operands unresolved. -/
theorem fresh_nested {cid : ConstructorId} {at_ : ℕ} (small : at_ < 2 ^ 64) (lets : ok (saturatingAdd at_ alt.length)) :
    Nested ok t.nodes.length (t.nodes ++ [fresh cid c alt at_]) := by
  intro i n later is
  obtain ⟨before, -⟩ := List.getElem?_eq_some_iff.mp is
  rw [List.length_append, List.length_singleton] at before
  obtain rfl : i = t.nodes.length := by omega
  rw [List.getElem?_concat_length] at is
  cases is
  refine ⟨saturatingAdd_le _ small, lets, ?_⟩
  intro op member c' value
  rw [(List.mem_replicate.mp member).2] at value
  cases value

theorem tryAlt_planted (lets : Lets input fits ok) (plants : Plants ok sub) {cid : ConstructorId} {at_ me : ℕ}
    (small : at_ < 2 ^ 64) (fit : fits alt at_) (ran : tryAlt input sub cid c alt at_ w = .ok (some me, w')) :
    Planted ok at_ w.toTree w'.toTree me := by
  obtain ⟨-, done, u, first, ⟨-, absurd, -⟩ | ⟨d, ok_, rfl, second, absurd | ⟨same, rfl⟩⟩⟩ := tryAlt_runs ran
  · cases absurd
  · cases absurd
  cases same
  have begins : ∃ n, (w.nodes ++ [fresh cid c alt at_])[w.nodes.length]? = some n ∧ n.start = at_ :=
    ⟨_, List.getElem?_concat_length, rfl⟩
  have one := firstPass_grown lets plants small first begins
  have assigned := applyContextAssigns_nodes input c w.nodes.length u.toTree
  have starts := one.start begins
  have two := secondPass_grown lets plants small second (by rw [assigned.1]; exact starts)
  have nested := two.nested (by
    rw [assigned.1]
    exact one.nested (fresh_nested small (lets.ends alt at_ fit)))
  refine ⟨rfl, ?_, two.start (by rw [assigned.1]; exact starts), nested⟩
  exact (((fresh_kept w.toTree _).trans one.kept).trans (assigns_kept input c _ _ _)).trans two.kept

end

variable {chooser : Chooser}

theorem grows_planted {input : Input} {fits : PatternAlt → ℕ → Prop} {ok : ℕ → Prop} (lets : Lets input fits ok)
    {room : ℕ} : ∀ {id : TableId} {at_ me : ℕ} {t t' : Tree}, at_ < 2 ^ 64 →
      Grows input chooser fits room id at_ t t' me → Planted ok at_ t t' me := by
  induction room with
  | zero => exact fun _ absurd => absurd.elim
  | succ room ih =>
    rintro id at_ me t t' small ⟨sub, cid, c, alt, n, n', grows, -, -, -, -, fit, took⟩
    exact tryAlt_planted lets (fun _ _ _ _ _ small ran => ih small (grows _ _ _ _ _ ran)) small fit took

/-! ### Staying within the bytes -/

/-- The same walk with another ceiling on where an operand may be placed. -/
def within (stop : ℕ) (input : Input) : Input := { input with limits := { input.limits with maxBytes := stop } }

/-- A subtable's node counts only where it has a place and ends in time. -/
def guarded (stop : ℕ) (sub : TableId → ℕ → Step (Option ℕ)) : TableId → ℕ → Step (Option ℕ) := fun id at_ w =>
  match sub id at_ w with
  | .ok (some child, w') =>
    if at_ < 2 ^ 64 ∧ (w'.node child).stop ≤ stop then .ok (some child, w') else .ok (none, w')
  | r => r

theorem guarded_some {stop : ℕ} {sub : TableId → ℕ → Step (Option ℕ)} {id : TableId} {at_ : ℕ}
    (ran : guarded stop sub id at_ w = .ok (some child, w')) :
    sub id at_ w = .ok (some child, w') ∧ at_ < 2 ^ 64 ∧ (w'.node child).stop ≤ stop := by
  unfold guarded at ran
  split at ran
  · next matched =>
    split at ran
    · next near =>
      cases ran
      exact ⟨matched, near⟩
    · cases ran
  · next other => exact absurd ran (other _ _)

theorem guarded_near {stop : ℕ} {sub : TableId → ℕ → Step (Option ℕ)} {id : TableId} {at_ : ℕ}
    (ran : sub id at_ w = .ok (some child, w')) (small : at_ < 2 ^ 64) (near : (w'.node child).stop ≤ stop) :
    guarded stop sub id at_ w = .ok (some child, w') := by
  rw [guarded, ran]
  exact if_pos ⟨small, near⟩

theorem evalDisasm_within (stop : ℕ) (input : Input) (t : Tree) (me : ℕ) (next : Option (BitVec 64)) (depth : ℕ) :
    ∀ e, (within stop input).evalDisasm t me next depth e = input.evalDisasm t me next depth e := by
  induction depth with
  | zero => exact fun _ => rfl
  | succ depth ih =>
    intro e
    cases e with
    | num | symbol => rfl
    | unary op a => simp only [evalDisasm, ih]
    | binary op a b => simp only [evalDisasm, ih, Input.binary]

theorem evalPattern_within (stop : ℕ) (input : Input) (t : Tree) (me at_ : ℕ) (depth : ℕ) : ∀ p start,
    (within stop input).evalPattern t me at_ depth p start = input.evalPattern t me at_ depth p start := by
  induction depth with
  | zero => exact fun _ _ => rfl
  | succ depth ih =>
    intro p start
    have width : (within stop input).widthOf t me start = input.widthOf t me start := by
      funext s
      cases s <;> rfl
    have value : (within stop input).symbolValue t me at_ start = input.symbolValue t me at_ start := by
      funext s
      cases s <;> rfl
    have eval : (within stop input).eval t me none = input.eval t me none := by
      funext e
      exact evalDisasm_within stop input t me none _ e
    cases p with
    | epsilon => rfl
    | symbol | «and» | «or» | cat | ellipsisRight | ellipsisLeft | constraint =>
      simp only [evalPattern, ih, width, value, eval]

section

variable {input : Input} {sub : TableId → ℕ → Step (Option ℕ)} {stop : ℕ}

/-- The end of every node, so that nothing is asked of it. -/
def anywhere : ℕ → Prop := fun _ => True

variable {c : Constructor} {alt : PatternAlt} {w w' : Walk}

theorem operand_within (plants : Plants anywhere sub) {me oi at_ : ℕ} {first : Bool} {r : Resolved}
    (ran : operand input sub c alt me oi at_ first w = .ok (r, w')) (notNo : r ≠ .no)
    (near : ∀ n, w'.nodes[me]? = some n → n.stop ≤ stop) (there : ∃ n, w.nodes[me]? = some n) :
    operand (within stop input) (guarded stop sub) c alt me oi at_ first w = .ok (r, w') := by
  obtain ⟨n, there⟩ := there
  obtain ⟨inside, -⟩ := List.getElem?_eq_some_iff.mp there
  have recorded : ∀ {t : Tree} {op : ResolvedOperand} {m : Node}, t.nodes[me]? = some m →
      (∀ n, (t.record me oi op).nodes[me]? = some n → n.stop ≤ stop) → op.stop ≤ stop := by
    intro t op m is near
    have ends := near _ (by rw [record_getElem?, if_pos rfl, is]; rfl)
    exact (Nat.le_max_right ..).trans ends
  cases is : c.operands[oi]? with
  | none =>
    simp only [operand, is] at ran ⊢
    exact ran
  | some specOp =>
    cases placed : placement alt specOp (w.node me).operands at_ oi first with
    | none =>
      simp only [operand, is, placed] at ran ⊢
      exact ran
    | some rel =>
      simp only [operand, is, placed] at ran ⊢
      split at ran
      · cases ran
      split at ran
      · next tid source =>
        obtain ⟨⟨child, u⟩, matched, ran⟩ := bind_ok_iff.mp ran
        cases child with
        | none =>
          cases ran
          exact absurd rfl notNo
        | some child =>
          cases ran
          have planted := plants _ _ _ _ _ (saturatingAdd_small at_ rel) matched
          have ends := recorded (by rw [planted.kept.getElem? inside, there]) near
          have order := planted.node.2.2.1
          have below : ¬saturatingAdd at_ rel > (within stop input).limits.maxBytes := Nat.not_lt.mpr (order.trans ends)
          rw [if_neg below, guarded_near matched (saturatingAdd_small at_ rel) ends]
          rfl
      · next notTable =>
        obtain ⟨read, is, ran⟩ := bind_ok_iff.mp ran
        cases read with
        | none =>
          cases ran
          exact absurd rfl notNo
        | some read =>
          obtain ⟨value, raw, last⟩ := read
          cases ran
          have ends := recorded there near
          have order := (readSource_spec is).2.1
          have same : (within stop input).readSource w.ctx (saturatingAdd at_ rel) specOp.source = _ := is
          have below : ¬saturatingAdd at_ rel > (within stop input).limits.maxBytes := Nat.not_lt.mpr (order.trans ends)
          rw [if_neg below, same]
          rfl

theorem Grown.near {ok : ℕ → Prop} {me : ℕ} (grown : Grown ok me t t')
    (near : ∀ n, t'.nodes[me]? = some n → n.stop ≤ stop) : ∀ n, t.nodes[me]? = some n → n.stop ≤ stop := by
  intro n is
  obtain ⟨n', is', -, le⟩ := grown.stretched n is
  exact le.trans (near n' is')

theorem lets_anywhere (input : Input) (fits : PatternAlt → ℕ → Prop) : Lets input fits anywhere :=
  ⟨fun _ _ => trivial, fun _ _ => trivial, fun _ _ _ => trivial⟩

theorem firstPass_within (plants : Plants anywhere sub) {me at_ : ℕ} (small : at_ < 2 ^ 64) {ois : List ℕ} :
    ∀ {done d : BitVec 64} {w w' : Walk},
      firstPass input sub c alt me at_ ois done w = .ok (some d, w') →
        (∀ n, w'.nodes[me]? = some n → n.stop ≤ stop) → (∃ n, w.nodes[me]? = some n ∧ n.start = at_) →
          firstPass (within stop input) (guarded stop sub) c alt me at_ ois done w = .ok (some d, w') := by
  have lets := lets_anywhere input fun _ _ => True
  induction ois with
  | nil => exact fun ran _ _ => ran
  | cons oi rest ih =>
    intro done d w w' ran near start
    unfold firstPass at ran ⊢
    split at ran
    · next isTable_ =>
      rw [if_pos isTable_]
      exact ih ran near start
    · next notTable =>
      rw [if_neg notTable]
      obtain ⟨⟨resolved, u⟩, one, ran⟩ := bind_ok_iff.mp ran
      rw [bind_ok_iff]
      refine ⟨⟨resolved, u⟩, ?_, ?_⟩
      · cases resolved with
        | no => cases ran
        | yes | deferred =>
          have starts := (operand_grown lets plants one (by simp) small start).start start
          have later := firstPass_grown lets plants small ran starts
          exact operand_within plants one (by simp) (later.near near) (start.imp fun _ is => is.1)
      · cases resolved with
        | no => cases ran
        | yes | deferred => exact ih ran near ((operand_grown lets plants one (by simp) small start).start start)

theorem secondPass_within (plants : Plants anywhere sub) {me at_ : ℕ} (small : at_ < 2 ^ 64) {done : BitVec 64}
    {ois : List ℕ} : ∀ {w w' : Walk},
      secondPass input sub c alt me at_ done ois w = .ok (true, w') →
        (∀ n, w'.nodes[me]? = some n → n.stop ≤ stop) → (∃ n, w.nodes[me]? = some n ∧ n.start = at_) →
          secondPass (within stop input) (guarded stop sub) c alt me at_ done ois w = .ok (true, w') := by
  have lets := lets_anywhere input fun _ _ => True
  induction ois with
  | nil => exact fun ran _ _ => ran
  | cons oi rest ih =>
    intro w w' ran near start
    unfold secondPass at ran ⊢
    split at ran
    · next done_ =>
      rw [if_pos done_]
      exact ih ran near start
    · next notDone =>
      rw [if_neg notDone]
      obtain ⟨⟨resolved, u⟩, one, ran⟩ := bind_ok_iff.mp ran
      dsimp only at ran
      split at ran
      · next yes =>
        subst yes
        have starts := (operand_grown lets plants one (by simp) small start).start start
        have later := secondPass_grown lets plants small ran starts
        rw [bind_ok_iff]
        refine ⟨⟨.yes, u⟩, operand_within plants one (by simp) (later.near near) (start.imp fun _ is => is.1), ?_⟩
        exact ih ran near starts
      · cases ran

theorem passes_within (plants : Plants anywhere sub) {cid : ConstructorId}
    {at_ : ℕ} {u : Walk} {d : BitVec 64} (small : at_ < 2 ^ 64)
    (first : firstPass input sub c alt w.nodes.length at_ (sequence c) 0
      { w with nodes := w.nodes ++ [fresh cid c alt at_] } = .ok (some d, u))
    (second : secondPass input sub c alt w.nodes.length at_ d (sequence c)
      { u with toTree := applyContextAssigns input c w.nodes.length u.toTree } = .ok (true, w'))
    (near : ∀ n, w'.nodes[w.nodes.length]? = some n → n.stop ≤ stop) :
    firstPass (within stop input) (guarded stop sub) c alt w.nodes.length at_ (sequence c) 0
        { w with nodes := w.nodes ++ [fresh cid c alt at_] } = .ok (some d, u) ∧
      secondPass (within stop input) (guarded stop sub) c alt w.nodes.length at_ d (sequence c)
        { u with toTree := applyContextAssigns (within stop input) c w.nodes.length u.toTree } = .ok (true, w') ∧
      saturatingAdd at_ alt.length ≤ stop := by
  have lets := lets_anywhere input fun _ _ => True
  have begins : ∃ n, (w.nodes ++ [fresh cid c alt at_])[w.nodes.length]? = some n ∧ n.start = at_ :=
    ⟨_, List.getElem?_concat_length, rfl⟩
  have one := firstPass_grown lets plants small first begins
  have assigned := applyContextAssigns_nodes input c w.nodes.length u.toTree
  have starts : ∃ n, (applyContextAssigns input c w.nodes.length u.toTree).nodes[w.nodes.length]? = some n ∧
      n.start = at_ := by
    rw [assigned.1]
    exact one.start begins
  have two := secondPass_grown lets plants small second starts
  have between : ∀ n, u.nodes[w.nodes.length]? = some n → n.stop ≤ stop := by
    rw [← assigned.1]
    exact two.near near
  have same : applyContextAssigns (within stop input) c w.nodes.length u.toTree =
      applyContextAssigns input c w.nodes.length u.toTree := by
    unfold applyContextAssigns
    simp only [Input.eval, evalDisasm_within]
    rfl
  refine ⟨firstPass_within plants small first between begins, ?_, ?_⟩
  · rw [same]
    exact secondPass_within plants small second near starts
  · exact one.near between _ List.getElem?_concat_length

/-- An alternative whose node ends in time is accepted in the same way under the ceiling. -/
theorem tryAlt_within (plants : Plants anywhere sub) {cid : ConstructorId} {at_ me : ℕ} (small : at_ < 2 ^ 64)
    (ran : tryAlt input sub cid c alt at_ w = .ok (some me, w')) (near : ∀ n, w'.nodes[me]? = some n → n.stop ≤ stop) :
    tryAlt (within stop input) (guarded stop sub) cid c alt at_ w = .ok (some me, w') ∧
      saturatingAdd at_ alt.length ≤ stop := by
  unfold tryAlt at ran ⊢
  split at ran
  · cases ran
  next room =>
  rw [if_neg (show ¬w.nodes.length ≥ (within stop input).limits.maxNodes from room)]
  obtain ⟨⟨done, u⟩, first, ran⟩ := bind_ok_iff.mp ran
  cases done with
  | none => cases ran
  | some d =>
    obtain ⟨⟨ok, v⟩, second, ran⟩ := bind_ok_iff.mp ran
    cases ok with
    | false => cases ran
    | true =>
      simp only [if_true] at ran
      split at ran
      · next filtered =>
        obtain ⟨⟨holds, last⟩, evaluated, ran⟩ := bind_ok_iff.mp ran
        cases holds with
        | false => cases ran
        | true =>
          cases ran
          obtain ⟨first, second, ends⟩ := passes_within plants small first second near
          refine ⟨?_, ends⟩
          rw [bind_ok_iff]
          refine ⟨_, first, ?_⟩
          dsimp only
          rw [bind_ok_iff]
          refine ⟨_, second, ?_⟩
          simp only [if_true]
          rw [if_pos filtered, bind_ok_iff]
          exact ⟨_, (evalPattern_within ..).trans evaluated, rfl⟩
      · next exact_ =>
        cases ran
        obtain ⟨first, second, ends⟩ := passes_within plants small first second near
        refine ⟨?_, ends⟩
        rw [bind_ok_iff]
        refine ⟨_, first, ?_⟩
        dsimp only
        rw [bind_ok_iff]
        refine ⟨_, second, ?_⟩
        simp only [if_true]
        rw [if_neg exact_]
        rfl

end

theorem grows_within {input : Input} {stop : ℕ} {room : ℕ} : ∀ {id : TableId} {at_ me : ℕ}
    {t t' : Tree}, at_ < 2 ^ 64 → Grows input chooser (fun _ _ => True) room id at_ t t' me →
      (t'.node me).stop ≤ stop →
        Grows (within stop input) chooser (fun alt at_ => saturatingAdd at_ alt.length ≤ stop) room id at_ t t' me := by
  induction room with
  | zero => exact fun _ absurd => absurd.elim
  | succ room ih =>
    rintro id at_ me t t' small ⟨sub, cid, c, alt, n, n', grows, member, is, listed, admits, -, took⟩ near
    have plants : Plants anywhere sub := fun _ _ _ _ _ small ran =>
      grows_planted (lets_anywhere input _) small (grows _ _ _ _ _ ran)
    have ends : ∀ n, t'.nodes[me]? = some n → n.stop ≤ stop := by
      intro n is
      rw [SleighDecode.Tree.node, is] at near
      exact near
    obtain ⟨took, fits⟩ := tryAlt_within plants small took ends
    refine ⟨guarded stop sub, cid, c, alt, n, n', ?_, member, is, listed, admits, fits, took⟩
    intro id at_ w child w' ran
    obtain ⟨ran, small, near⟩ := guarded_some ran
    exact ih small (grows _ _ _ _ _ ran) near

theorem grows_ends {input : Input} {stop room : ℕ} {id : TableId} {at_ me : ℕ} (small : at_ < 2 ^ 64)
    (short : input.bytes.length ≤ stop)
    (grows : Grows (within stop input) chooser (fun alt at_ => saturatingAdd at_ alt.length ≤ stop) room id at_ t t' me) :
    (t'.node me).stop ≤ stop := by
  have lets : Lets (within stop input) (fun alt at_ => saturatingAdd at_ alt.length ≤ stop) (· ≤ stop) :=
    ⟨fun _ near => near, fun _ near => near.trans short, fun _ _ near => near⟩
  exact (grows_planted lets small grows).node.2.2.2

/-! ### The actions -/

/-- Actions change operand values and publish, and leave every node its place and its subtables. -/
structure Same (t t' : Tree) : Prop where
  ctx : t'.ctx = t.ctx
  long : t'.nodes.length = t.nodes.length
  nodes : ∀ (i : ℕ) (n' : Node), t'.nodes[i]? = some n' → ∃ n, t.nodes[i]? = some n ∧ n'.start = n.start ∧ n'.stop = n.stop ∧
    ∀ op' ∈ n'.operands, ∀ c, op'.value = .sub c → ∃ op ∈ n.operands, op.value = .sub c

theorem Same.refl (t : Tree) : Same t t :=
  ⟨rfl, rfl, fun _ n is => ⟨n, is, rfl, rfl, fun op member _ value => ⟨op, member, value⟩⟩⟩

theorem Same.trans {u v : Tree} (first : Same t u) (second : Same u v) : Same t v := by
  refine ⟨second.ctx.trans first.ctx, second.long.trans first.long, ?_⟩
  intro i n'' is''
  obtain ⟨n', is', start', stop', subs'⟩ := second.nodes i n'' is''
  obtain ⟨n, is, start, stop, subs⟩ := first.nodes i n' is'
  refine ⟨n, is, start'.trans start, stop'.trans stop, ?_⟩
  intro op'' member'' c value''
  obtain ⟨op', member', value'⟩ := subs' op'' member'' c value''
  exact subs op' member' c value'

theorem Same.holds (same : Same t t') (holds : ∀ i n, t.nodes[i]? = some n → Holds t.nodes i n) :
    ∀ i n, t'.nodes[i]? = some n → Holds t'.nodes i n := by
  intro i n' is' op' member' c value'
  obtain ⟨n, is, start, stop, subs⟩ := same.nodes i n' is'
  obtain ⟨op, member, value⟩ := subs op' member' c value'
  obtain ⟨m, there, later, first, last⟩ := holds i n is op member c value
  obtain ⟨before, -⟩ := List.getElem?_eq_some_iff.mp there
  have there' := List.getElem?_eq_getElem (show c < t'.nodes.length by rw [same.long]; exact before)
  obtain ⟨m', is', start', stop', -⟩ := same.nodes c _ there'
  rw [there] at is'
  cases is'
  exact ⟨_, there', later, by rw [start, start']; exact first, by rw [stop, stop']; exact last⟩

theorem modify_same (t : Tree) (node oi : ℕ) (v : Int64) :
    Same t { t with nodes := t.nodes.modify node fun n =>
      { n with operands := n.operands.modify oi fun op => { op with value := .int v, raw := v } } } := by
  refine ⟨rfl, List.length_modify .., ?_⟩
  intro i n' is'
  rw [List.getElem?_modify] at is'
  obtain ⟨n, is, changed⟩ := Option.map_eq_some_iff.mp is'
  refine ⟨n, is, ?_⟩
  split at changed
  · subst changed
    refine ⟨rfl, rfl, ?_⟩
    intro op' member' c value'
    obtain ⟨j, inside, at_⟩ := List.mem_iff_getElem.mp member'
    rw [List.getElem_modify] at at_
    split at at_
    · rw [← at_] at value'
      cases value'
    · exact ⟨op', by rw [← at_]; exact List.getElem_mem _, value'⟩
  · subst changed
    exact ⟨rfl, rfl, fun op member _ value => ⟨op, member, value⟩⟩

theorem action_same (input : Input) (node : ℕ) (next : BitVec 64) (t : Tree) (stmt : DisasmStmt) :
    Same t (input.action node next t stmt) := by
  unfold Input.action
  split
  · split
    · exact .refl t
    · exact modify_same ..
  · exact .refl t
  · split
    · split
      · exact .refl t
      · split
        · exact ⟨rfl, rfl, (Same.refl t).nodes⟩
        · exact .refl t
    · exact .refl t

theorem actions_same (input : Input) (len room : ℕ) : ∀ {node : ℕ} {t t' : Tree},
    input.actions len room node t = .ok t' → Same t t' := by
  induction room with
  | zero =>
    intro node t t' ran
    cases ran
    exact .refl t
  | succ room ih =>
    intro node t t' ran
    unfold Input.actions at ran
    obtain ⟨u, below, ran⟩ := bind_ok_iff.mp ran
    obtain ⟨c, -, ran⟩ := bind_ok_iff.mp ran
    cases ran
    have children : ∀ (cs : List ℕ) (t : Tree), cs.foldlM (fun t child => input.actions len room child t) t = .ok u →
        Same t u := by
      intro cs
      induction cs with
      | nil =>
        intro t ran
        cases ran
        exact .refl _
      | cons child rest ihs =>
        intro t ran
        rw [List.foldlM_cons] at ran
        obtain ⟨v, first, ran⟩ := bind_ok_iff.mp ran
        exact (ih first).trans (ihs v ran)
    have statements : ∀ (stmts : List DisasmStmt) (t : Tree),
        Same t (stmts.foldl (input.action node (input.addr + BitVec.ofNat 64 len)) t) := by
      intro stmts
      induction stmts with
      | nil => exact Same.refl
      | cons stmt rest ihs => exact fun t => (action_same input node _ t stmt).trans (ihs _)
    exact (children _ t below).trans (statements _ u)

/-! ### Decoding -/

/-- What a decoded instruction keeps to: it is no longer than the bytes, every node lies inside its
parent and behind it, and its tree grew by accepted alternatives only. -/
structure Sound (spec : Spec) (limits : DecodeLimits) (base : Context) (published : BitVec 64 → List Commit)
    (bytes : List Byte) (addr : BitVec 64) (d : Decoded) : Prop where
  length : d.len ≤ bytes.length
  nested : ∀ i n, d.nodes[i]? = some n → Holds d.nodes i n
  traceless : ∃ t me, Grows ⟨spec, bytes.take limits.maxBytes, addr, limits⟩ (viaIndex spec) (fun _ _ => True)
      (limits.maxDepth + 1) spec.root 0 ⟨applyPublished spec (published addr) base, [], []⟩ t me ∧
    Input.actions ⟨spec, bytes.take limits.maxBytes, addr, limits⟩ d.len (limits.maxDepth + 1) 0 t =
      .ok ⟨d.context, d.nodes, d.commits⟩

/-- The alternatives that the walk accepts end within the bytes, and place their operands within them. -/
def StaysWithin (spec : Spec) (limits : DecodeLimits) (base : Context) (published : BitVec 64 → List Commit)
    (bytes : List Byte) (addr : BitVec 64) : Prop :=
  ∀ me w, Input.table ⟨spec, bytes.take limits.maxBytes, addr, limits⟩ (viaIndex spec) (limits.maxDepth + 1)
      spec.root 0 ⟨⟨applyPublished spec (published addr) base, [], []⟩, 0⟩ = .ok (some me, w) →
    Grows (within bytes.length ⟨spec, bytes.take limits.maxBytes, addr, limits⟩) (viaIndex spec)
      (fun alt at_ => saturatingAdd at_ alt.length ≤ bytes.length) (limits.maxDepth + 1) spec.root 0
      ⟨applyPublished spec (published addr) base, [], []⟩ w.toTree me

/-- One instruction: its token has two bytes, and its pattern asks for the first one only. -/
def wideToken : Spec where
  varnodes := []
  tokens := []
  fields := []
  contextFields := []
  tables := [⟨[⟨0⟩]⟩]
  constructors := [⟨[], [], .epsilon, ⟨[⟨⟨[⟨0xff, 0x90, rfl⟩]⟩, ⟨[]⟩, 2, [], []⟩], none⟩, []⟩]

def usual : DecodeLimits := ⟨64, 256, 200000, 64⟩

theorem decode_short : decodeAt wideToken (viaIndex wideToken) usual (Context.zeroed 0) (fun _ => []) [0x90] 0 =
    .ok ⟨0, 2, [⟨⟨0⟩, 0, 2, []⟩], Context.zeroed 0, []⟩ := by
  decide +kernel

end E5r.SleighRanges
