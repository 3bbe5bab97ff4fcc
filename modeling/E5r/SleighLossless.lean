import E5r.BoundedRuns
import E5r.SleighDecode

/-!
Decoding through the index: the walk that tries only what the index offers and
the walk that tries every constructor build the same tree, unless the second
one runs into the step limit.
-/
namespace E5r.SleighLossless
open BitTests SleighModel SleighIndex SleighDecode SleighDecode.Input BoundedRuns Fallible

/-- The same tree, after at least as many steps. -/
def Ahead (w w' : Walk) : Prop := w.toTree = w'.toTree ∧ w.steps ≤ w'.steps

theorem Ahead.refl (w : Walk) : Ahead w w := ⟨rfl, Nat.le_refl _⟩

theorem Ahead.mk {t : Tree} {n n' : Nat} (le : n ≤ n') : Ahead ⟨t, n⟩ ⟨t, n'⟩ := ⟨rfl, le⟩

theorem Ahead.cases {w w' : Walk} (ahead : Ahead w w') :
    ∃ (t : Tree) (n n' : Nat), n ≤ n' ∧ w = ⟨t, n⟩ ∧ w' = ⟨t, n'⟩ := by
  obtain ⟨t, n⟩ := w
  obtain ⟨t', n'⟩ := w'
  obtain ⟨same, le⟩ := ahead
  dsimp only at same le
  subst same
  exact ⟨t, n, n', le, rfl, rfl⟩

/-- Two results agree unless the second one hit the step limit. -/
abbrev Agrees {α : Type} (r r' : Except Stop (α × Walk)) : Prop := Agree (.error .tooManySteps) Ahead r r'

/-- Two computations agree from any state on. -/
def StepAgrees {α : Type} (f f' : Step α) : Prop := ∀ w w', Ahead w w' → Agrees (f w) (f' w')

section
-- Two ways to match a subtable that agree.
variable {input : Input} {sub sub' : TableId → Nat → Step (Option Nat)}
variable (agrees : ∀ id at_, StepAgrees (sub id at_) (sub' id at_))
include agrees

theorem operand_agrees (c : Constructor) (alt : PatternAlt) (me oi at_ : Nat) (first : Bool) :
    StepAgrees (operand input sub c alt me oi at_ first) (operand input sub' c alt me oi at_ first) := by
  intro w w' ahead
  obtain ⟨t, n, n', le, rfl, rfl⟩ := ahead.cases
  unfold operand
  cases c.operands[oi]? with
  | none => exact .done _ (Ahead.mk le)
  | some specOp =>
    dsimp only [Tree.node]
    split
    · exact .done _ (Ahead.mk le)
    · split
      · exact .failed _
      · split
        · next tid _ =>
          refine (agrees tid _ _ _ (Ahead.mk le)).bind ?_
          intro child u u' ahead
          obtain ⟨t, n, n', le, rfl, rfl⟩ := ahead.cases
          cases child with
          | none => exact .done _ (Ahead.mk le)
          | some child => exact .done _ (Ahead.mk le)
        · refine .lift _ ?_
          intro read
          cases read with
          | none => exact .done _ (Ahead.mk le)
          | some read => exact .done _ (Ahead.mk le)

theorem firstPass_agrees (c : Constructor) (alt : PatternAlt) (me at_ : Nat) (ois : List Nat) : ∀ done,
    StepAgrees (firstPass input sub c alt me at_ ois done) (firstPass input sub' c alt me at_ ois done) := by
  induction ois with
  | nil =>
    intro done w w' ahead
    exact .done _ ahead
  | cons oi rest ih =>
    intro done w w' ahead
    unfold firstPass
    split
    · exact ih done w w' ahead
    · refine (operand_agrees agrees c alt me oi at_ true w w' ahead).bind ?_
      intro resolved u u' ahead
      cases resolved with
      | yes => exact ih _ u u' ahead
      | deferred => exact ih _ u u' ahead
      | no => exact .done _ ahead

theorem secondPass_agrees (c : Constructor) (alt : PatternAlt) (me at_ : Nat) (done : BitVec 64) (ois : List Nat) :
    StepAgrees (secondPass input sub c alt me at_ done ois) (secondPass input sub' c alt me at_ done ois) := by
  induction ois with
  | nil =>
    intro w w' ahead
    exact .done _ ahead
  | cons oi rest ih =>
    intro w w' ahead
    unfold secondPass
    split
    · exact ih w w' ahead
    · refine (operand_agrees agrees c alt me oi at_ false w w' ahead).bind ?_
      intro resolved u u' ahead
      dsimp only
      split
      · exact ih u u' ahead
      · exact .done _ ahead

theorem tryAlt_agrees (cid : ConstructorId) (c : Constructor) (alt : PatternAlt) (at_ : Nat) :
    StepAgrees (tryAlt input sub cid c alt at_) (tryAlt input sub' cid c alt at_) := by
  intro w w' ahead
  obtain ⟨t, n, n', le, rfl, rfl⟩ := ahead.cases
  unfold tryAlt
  dsimp only
  split
  · exact .failed _
  · refine (firstPass_agrees agrees c alt _ at_ _ 0 _ _ (Ahead.mk le)).bind ?_
    intro done u u' ahead
    obtain ⟨t, n, n', le, rfl, rfl⟩ := ahead.cases
    cases done with
    | none => exact .done _ (Ahead.mk le)
    | some done =>
      refine (secondPass_agrees agrees c alt _ at_ done _ _ _ (Ahead.mk le)).bind ?_
      intro ok u u' ahead
      obtain ⟨t, n, n', le, rfl, rfl⟩ := ahead.cases
      dsimp only
      split
      · split
        · refine .lift _ ?_
          intro verdict
          exact .done _ (Ahead.mk le)
        · exact .done _ (Ahead.mk le)
      · exact .done _ (Ahead.mk le)

theorem alternatives_agrees (cid : ConstructorId) (c : Constructor) (at_ : Nat) (alts : List PatternAlt) :
    StepAgrees (alternatives input sub cid c at_ alts) (alternatives input sub' cid c at_ alts) := by
  induction alts with
  | nil =>
    intro w w' ahead
    exact .done _ ahead
  | cons alt rest ih =>
    intro w w' ahead
    obtain ⟨t, n, n', le, rfl, rfl⟩ := ahead.cases
    unfold alternatives
    dsimp only
    split
    · refine (tryAlt_agrees agrees cid c alt at_ _ _ (Ahead.mk le)).bind ?_
      intro found u u' ahead
      obtain ⟨t, n, n', le, rfl, rfl⟩ := ahead.cases
      cases found with
      | some node => exact .done _ (Ahead.mk le)
      | none => exact ih _ _ (Ahead.mk le)
    · exact ih _ _ (Ahead.mk le)

theorem constructor_agrees (cid : ConstructorId) (at_ : Nat) :
    StepAgrees (constructor input sub cid at_) (constructor input sub' cid at_) := by
  intro w w' ahead
  obtain ⟨t, n, n', le, rfl, rfl⟩ := ahead.cases
  unfold constructor
  dsimp only
  by_cases limited : n' + 1 > input.limits.maxSteps
  · rw [if_pos limited]
    exact .stopped _
  · rw [if_neg limited, if_neg (by omega)]
    refine .lift _ ?_
    intro c
    exact alternatives_agrees agrees cid c at_ _ _ _ (Ahead.mk (by omega))

end

theorem alternatives_ctx {input : Input} {sub : TableId → Nat → Step (Option Nat)} (cid : ConstructorId)
    (c : Constructor) (at_ : Nat) (alts : List PatternAlt) : ∀ w u,
    alternatives input sub cid c at_ alts w = .ok (none, u) → u.ctx = w.ctx := by
  induction alts with
  | nil =>
    intro w u run
    obtain ⟨-, rfl⟩ := by simpa [alternatives] using run
    rfl
  | cons alt rest ih =>
    intro w u run
    unfold alternatives at run
    split at run
    · obtain ⟨⟨found, tried⟩, -, run⟩ := bind_ok_iff.mp run
      cases found with
      | some node => simp [pure, Except.pure] at run
      | none =>
        have kept := ih _ _ run
        exact kept
    · exact ih _ _ run

theorem constructor_ctx {input : Input} {sub : TableId → Nat → Step (Option Nat)} {cid : ConstructorId} {at_ : Nat}
    {w u : Walk} (run : constructor input sub cid at_ w = .ok (none, u)) : u.ctx = w.ctx := by
  unfold constructor at run
  split at run
  · contradiction
  · obtain ⟨c, -, run⟩ := bind_ok_iff.mp run
    have kept := alternatives_ctx cid c at_ _ _ _ run
    exact kept

theorem alternatives_skip {input : Input} {sub : TableId → Nat → Step (Option Nat)} (cid : ConstructorId)
    (c : Constructor) (at_ : Nat) (alts : List PatternAlt) (w : Walk)
    (never : ∀ alt ∈ alts, alt.admits (input.stream at_) w.ctx.bytes = false) :
    alternatives input sub cid c at_ alts w = .ok (none, w) := by
  induction alts with
  | nil => rfl
  | cons alt rest ih =>
    unfold alternatives
    rw [if_neg (by simp [never alt (by simp)])]
    exact ih fun other member => never other (List.mem_cons_of_mem alt member)

theorem constructor_skip {input : Input} {sub : TableId → Nat → Step (Option Nat)} {cid : ConstructorId} {at_ : Nat}
    {w : Walk} {c : Constructor} (there : input.spec.constructors[cid.index]? = some c)
    (never : ¬ input.spec.Admits cid (input.stream at_) w.ctx.bytes) :
    constructor input sub cid at_ w =
      if w.steps + 1 > input.limits.maxSteps then .error (.error .tooManySteps)
      else .ok (none, { w with steps := w.steps + 1 }) := by
  unfold constructor
  split
  · rfl
  · have refused : ∀ alt ∈ c.resolved.alternatives, alt.admits (input.stream at_) w.ctx.bytes = false := by
      intro alt member
      rw [Bool.eq_false_iff]
      intro admits
      exact never ⟨c, there, List.any_eq_true.mpr ⟨alt, member, admits⟩⟩
    simp only [entry, there, Option.elim_some]
    exact alternatives_skip cid c at_ _ _ refused

/-- Trying the constructors that pass a test agrees with trying all of them, when
    the test drops only constructors that no alternative admits. -/
theorem firstOf_agrees {input : Input} {sub sub' : TableId → Nat → Step (Option Nat)}
    (agrees : ∀ id at_, StepAgrees (sub id at_) (sub' id at_)) {ctx : Context} {at_ : Nat}
    {inList mayStart : ConstructorId → Bool} (cids : List ConstructorId)
    (drops : ∀ cid ∈ cids, (inList cid && mayStart cid) = false →
      input.spec.constructors[cid.index]? ≠ none ∧ ¬ input.spec.Admits cid (input.stream at_) ctx.bytes) :
    ∀ w w', Ahead w w' → w.ctx = ctx →
      Agrees (firstOf input sub mayStart at_ (cids.filter inList) w) (firstOf input sub' (fun _ => true) at_ cids w') := by
  induction cids with
  | nil =>
    intro w w' ahead _
    exact .done _ ahead
  | cons cid rest ih =>
    intro w w' ahead same
    have later := ih fun other member => drops other (List.mem_cons_of_mem cid member)
    by_cases tried : (inList cid && mayStart cid) = true
    · rw [Bool.and_eq_true] at tried
      rw [List.filter_cons_of_pos tried.1]
      unfold firstOf
      rw [if_pos tried.2, if_pos rfl]
      have one := @constructor_agrees input _ _ agrees cid at_ w w' ahead
      cases left : constructor input sub cid at_ w with
      | error e =>
        rw [left] at one
        cases right : constructor input sub' cid at_ w' with
        | error e' =>
          rw [right] at one
          cases one with
          | stopped => exact .stopped _
          | failed => exact .failed _
        | ok r => rw [right] at one; cases one
      | ok r =>
        obtain ⟨found, u⟩ := r
        rw [left] at one
        cases right : constructor input sub' cid at_ w' with
        | error e' =>
          rw [right] at one
          cases one with
          | stopped => exact .stopped _
        | ok r' =>
          rw [right] at one
          cases one with
          | done found ahead =>
            cases found with
            | some node => exact .done _ ahead
            | none => exact later _ _ ahead ((constructor_ctx left).trans same)
    · have dropped : (inList cid && mayStart cid) = false := by simpa using tried
      obtain ⟨listed, never⟩ := drops cid (by simp) dropped
      obtain ⟨c, there⟩ := Option.ne_none_iff_exists'.mp listed
      have sameCtx : w'.ctx = ctx := by rw [← ahead.1, same]
      have skip := @constructor_skip input sub' cid at_ _ _ there (by rwa [sameCtx])
      have left : firstOf input sub mayStart at_ ((cid :: rest).filter inList) w =
          firstOf input sub mayStart at_ (rest.filter inList) w := by
        cases inside : inList cid with
        | false => rw [List.filter_cons_of_neg (by simp [inside])]
        | true =>
          have out : mayStart cid = false := by simpa [inside] using dropped
          rw [List.filter_cons_of_pos inside]
          simp [firstOf, out]
      rw [left]
      simp only [firstOf, if_true, skip]
      split
      · exact .stopped _
      · refine later _ _ ?_ same
        exact ⟨ahead.1, Nat.le_succ_of_le ahead.2⟩

theorem context_word (ctx : Context) : ∀ (i : Nat) b, ctx.bytes[i]? = some b → (ctx.image[i]?.getD 0) = b := by
  intro i b there
  rw [Context.bytes, List.getElem?_take] at there
  split at there
  · rw [Vector.getElem?_toList] at there
    simp [there]
  · contradiction

theorem table_agrees (input : Input) (room : Nat) : ∀ id at_,
    StepAgrees (input.table (viaIndex input.spec) room id at_) (input.table (viaTable input.spec) room id at_) := by
  induction room with
  | zero =>
    intro id at_ w w' _
    exact .failed _
  | succ room ih =>
    intro id at_ w w' ahead
    unfold Input.table
    simp only [viaIndex, viaTable]
    rw [candidates_eq]
    refine firstOf_agrees ih _ ?_ w w' ahead rfl
    intro cid _ dropped
    constructor
    · intro missing
      rw [kept_of_missing missing, mayStart_of_missing missing] at dropped
      contradiction
    · intro admits
      rw [kept_of_admits admits, Context.word, mayStart_of_admits admits (context_word w.ctx)] at dropped
      contradiction

theorem decode_agrees (spec : Spec) (limits : DecodeLimits) (base : Context) (published : BitVec 64 → List Commit)
    (bytes : List Byte) (addr : BitVec 64) :
    decodeAt spec (viaTable spec) limits base published bytes addr = .error (.error .tooManySteps) ∨
      decodeAt spec (viaIndex spec) limits base published bytes addr =
        decodeAt spec (viaTable spec) limits base published bytes addr := by
  unfold decodeAt
  split
  · exact .inr rfl
  · have agree := table_agrees ⟨spec, bytes.take limits.maxBytes, addr, limits⟩ (limits.maxDepth + 1) spec.root 0
      ⟨⟨applyPublished spec (published addr) base, [], []⟩, 0⟩ _ (Ahead.refl _)
    dsimp only at agree ⊢
    generalize Input.table ⟨spec, bytes.take limits.maxBytes, addr, limits⟩ (viaIndex spec) (limits.maxDepth + 1)
      spec.root 0 ⟨⟨applyPublished spec (published addr) base, [], []⟩, 0⟩ = left at *
    generalize Input.table ⟨spec, bytes.take limits.maxBytes, addr, limits⟩ (viaTable spec) (limits.maxDepth + 1)
      spec.root 0 ⟨⟨applyPublished spec (published addr) base, [], []⟩, 0⟩ = right at *
    cases agree with
    | stopped => exact .inl rfl
    | failed => exact .inr rfl
    | done root ahead =>
      obtain ⟨t, n, n', -, rfl, rfl⟩ := ahead.cases
      exact .inr rfl

end E5r.SleighLossless
