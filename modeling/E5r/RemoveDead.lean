import E5r.SsaModel

/-!
# Removing dead operations

The pass that removes operations nothing reads and nothing observes, and which of the values
a caller or a callee can observe it keeps.
-/

namespace E5r.RemoveDead

open IrModel ConstantFold SsaModel

/-- An operation that matters for reasons other than its result. -/
def hasEffect (op : SsaOp) : Bool :=
  match op.kind with
  | .op (.basic o) =>
    match o with
    | .store | .branch | .cbranch | .branchInd | .call | .callInd | .ret | .unimplemented => true
    | _ => false
  | _ => false

def highest (values : List Value) : Option Value :=
  values.foldl (fun best v =>
    match best with
    | none => some v
    | some b => if b.version ≤ v.version then some v else some b) none

/-- The value a location holds before an operation of a block, or else the one of the whole
    function with the highest version. -/
def lastDefinition (f : SsaFunction) (b : SsaBlock) (location : Location) (before : ℕ) : Option Value :=
  match (outsOf (b.ops.take before).reverse).find? fun v => v.location = location with
  | some v => some v
  | none => highest ((outsOf f.ops).filter fun v => v.location = location)

def returns (op : SsaOp) : Bool := op.kind = .op (.basic .ret)

def calls (f : SsaFunction) (op : SsaOp) : Bool :=
  match op.kind with
  | .op (.basic .call) | .op (.basic .callInd) | .op (.basic .branchInd) => true
  | .op (.basic .branch) =>
    match op.inputs.head?.bind Operand.asConst with
    | some target => (f.get target).isNone
    | none => false
  | _ => false

def reads (op : SsaOp) : List Value := op.inputs.filterMap Operand.asValue

/-- What is live whether or not an operation reads it, in the order it is found. -/
def seeds (f : SsaFunction) : List Value :=
  let abi := Abi.of f.arch
  (f.blocks.flatMap fun b =>
    if b.2.ops.any returns then
      abi.liveAtReturn.filterMap fun l => lastDefinition f b.2 l b.2.ops.length
    else []) ++
  (f.blocks.flatMap fun b => b.2.ops.zipIdx.flatMap fun e =>
    if calls f e.1 then abi.argumentLocations.filterMap fun l => lastDefinition f b.2 l e.2
    else []) ++
  f.ops.flatMap fun op => if hasEffect op then reads op else []

/-- A value not yet live becomes live, with its definition still to be looked at. -/
def mark (state : List Value × List Value) (v : Value) : List Value × List Value :=
  if v ∈ state.1 then state else (v :: state.1, v :: state.2)

/-- The values operations read that are not live. -/
def unmarked (f : SsaFunction) (live : List Value) : ℕ :=
  ((f.ops.flatMap reads).filter fun v => v ∉ live).length

variable {f : SsaFunction} {v : Value}

theorem unmarked_lt {live : List Value} (read : v ∈ f.ops.flatMap reads) (new : v ∉ live) :
    unmarked f (v :: live) < unmarked f live := by
  have split : ((f.ops.flatMap reads).filter fun u => u ∉ v :: live) =
      ((f.ops.flatMap reads).filter fun u => u ∉ live).filter fun u => u ≠ v := by
    rw [List.filter_filter]
    refine List.filter_congr fun u _ => ?_
    simp
  rw [unmarked, unmarked, split, List.length_filter_lt_length_iff_exists]
  exact ⟨v, List.mem_filter.mpr ⟨read, by simpa using new⟩, by simp⟩

theorem unmarked_marks (values : List Value) (state : List Value × List Value) (read : values ⊆ f.ops.flatMap reads) :
    unmarked f (values.foldl mark state).1 < unmarked f state.1 ∨ values.foldl mark state = state := by
  induction values generalizing state with
  | nil => exact .inr rfl
  | cons v values ih =>
    have rest := ih (mark state v) fun u there => read (List.mem_cons_of_mem v there)
    rw [List.foldl_cons]
    by_cases old : v ∈ state.1
    · rw [mark, if_pos old] at rest ⊢
      exact rest
    · have less := unmarked_lt (read List.mem_cons_self) old
      rw [mark, if_neg old] at rest ⊢
      refine .inl ?_
      rcases rest with fewer | same
      · exact Nat.lt_trans fewer less
      · rw [same]
        exact less

/-- Close the live values over what their definitions read. -/
def close (f : SsaFunction) (live work : List Value) : List Value :=
  match work with
  | [] => live
  | v :: work =>
    match found : f.definition v with
    | none => close f live work
    | some op => close f ((reads op).foldl mark (live, work)).1 ((reads op).foldl mark (live, work)).2
termination_by (unmarked f live, work.length)
decreasing_by
  · exact Prod.Lex.right _ (Nat.lt_succ_self _)
  · have among : reads op ⊆ f.ops.flatMap reads := fun u there =>
      List.mem_flatMap.mpr ⟨op, (SsaFunction.definition_eq_some_iff.mp found).1, there⟩
    rcases unmarked_marks (reads op) (live, work) among with fewer | same
    · exact Prod.Lex.left _ _ fewer
    · rw [same]
      exact Prod.Lex.right _ (Nat.lt_succ_self _)

def live (f : SsaFunction) : List Value :=
  let seeded := (seeds f).foldl mark ([], [])
  close f seeded.1 seeded.2

def keeps (f : SsaFunction) (op : SsaOp) : Bool :=
  match op.out with
  | some v => hasEffect op || v ∈ live f
  | none => true

/-- The function without its dead operations, and how many they were. -/
def removeDead (f : SsaFunction) : SsaFunction × ℕ :=
  ({ f with
      blocks := f.blocks.map fun b => (b.1, { b.2 with ops := b.2.ops.filter (keeps f) })
      sorted := by
        rw [List.pairwise_map]
        exact f.sorted
      single := by
        rw [opsOf_filter]
        exact f.single.sublist (List.filter_sublist.filterMap _) },
    (f.blocks.map fun b => b.2.ops.length - (b.2.ops.filter (keeps f)).length).sum)

theorem removeDead_ops (f : SsaFunction) : (removeDead f).1.ops = f.ops.filter (keeps f) :=
  opsOf_filter (keeps f) f.blocks

/-- A value that has an effect to reach: it is read by an operation with an effect, picked for
    a register that is observed, or read by the definition of such a value. -/
inductive Needed (f : SsaFunction) : Value → Prop
  | returned {a : ℕ} {b : SsaBlock} {l : Location} {v : Value} : (a, b) ∈ f.blocks → b.ops.any returns →
    l ∈ (Abi.of f.arch).liveAtReturn → lastDefinition f b l b.ops.length = some v → Needed f v
  | passed {a n : ℕ} {b : SsaBlock} {op : SsaOp} {l : Location} {v : Value} : (a, b) ∈ f.blocks → b.ops[n]? = some op →
    calls f op → l ∈ (Abi.of f.arch).argumentLocations → lastDefinition f b l n = some v → Needed f v
  | used {op : SsaOp} {v : Value} : op ∈ f.ops → hasEffect op → .value v ∈ op.inputs → Needed f v
  | through {op : SsaOp} {v w : Value} : Needed f w → op ∈ f.ops → op.out = some w → .value v ∈ op.inputs → Needed f v

theorem mem_reads {op : SsaOp} : v ∈ reads op ↔ .value v ∈ op.inputs := by
  rw [reads, List.mem_filterMap]
  constructor
  · rintro ⟨i, there, value⟩
    cases i with
    | value u =>
      cases value
      exact there
    | const v size => cases value
    | undefined l => cases value
  · intro there
    exact ⟨_, there, rfl⟩

theorem mem_marks {values : List Value} {state : List Value × List Value} :
    v ∈ (values.foldl mark state).1 ↔ v ∈ values ∨ v ∈ state.1 := by
  induction values generalizing state with
  | nil => simp
  | cons u values ih =>
    rw [List.foldl_cons, ih, List.mem_cons, mark]
    split
    · rename_i old
      constructor
      · rintro (later | before)
        · exact .inl (.inr later)
        · exact .inr before
      · rintro ((rfl | later) | before)
        · exact .inr old
        · exact .inl later
        · exact .inr before
    · rw [List.mem_cons]
      tauto

/-- What is newly live waits for its definition to be looked at. -/
theorem mem_work {values : List Value} {state : List Value × List Value} :
    v ∈ (values.foldl mark state).2 ↔ v ∈ state.2 ∨ v ∈ values ∧ v ∉ state.1 := by
  induction values generalizing state with
  | nil => simp
  | cons u values ih =>
    rw [List.foldl_cons, ih, List.mem_cons, mark]
    split
    · rename_i old
      constructor
      · rintro (before | ⟨later, new⟩)
        · exact .inl before
        · exact .inr ⟨.inr later, new⟩
      · rintro (before | ⟨rfl | later, new⟩)
        · exact .inl before
        · exact absurd old new
        · exact .inr ⟨later, new⟩
    · rename_i new
      simp only [List.mem_cons]
      by_cases same : v = u
      · subst same
        simp [new]
      · simp [same]

/-- What holds while the live values are closed. -/
structure Marked (f : SsaFunction) (live work : List Value) : Prop where
  within : work ⊆ live
  needed : ∀ v ∈ live, Needed f v
  seeded : seeds f ⊆ live
  closed : ∀ v ∈ live, v ∈ work ∨ ∀ op, f.definition v = some op → reads op ⊆ live

theorem Marked.close {live work : List Value} (marked : Marked f live work) : Marked f (close f live work) [] := by
  fun_induction RemoveDead.close f live work with
  | case1 live => exact marked
  | case2 live v work undefined ih =>
    refine ih ⟨fun u there => marked.within (List.mem_cons_of_mem v there), marked.needed, marked.seeded, ?_⟩
    intro u there
    rcases marked.closed u there with waiting | done
    · rcases List.mem_cons.mp waiting with rfl | waiting
      · exact .inr fun op found => by cases undefined.symm.trans found
      · exact .inl waiting
    · exact .inr done
  | case3 live v work op found ih =>
    obtain ⟨there, out⟩ := SsaFunction.definition_eq_some_iff.mp found
    refine ih ⟨?_, ?_, fun u seed => mem_marks.mpr (.inr (marked.seeded seed)), ?_⟩
    · intro u waiting
      rcases mem_work.mp waiting with before | ⟨read, -⟩
      · exact mem_marks.mpr (.inr (marked.within (List.mem_cons_of_mem v before)))
      · exact mem_marks.mpr (.inl read)
    · intro u live
      rcases mem_marks.mp live with read | before
      · exact .through (marked.needed v (marked.within List.mem_cons_self)) there out (mem_reads.mp read)
      · exact marked.needed u before
    · intro u live'
      by_cases old : u ∈ live
      · rcases marked.closed u old with waiting | done
        · rcases List.mem_cons.mp waiting with rfl | waiting
          · refine .inr fun op' found' w read => ?_
            cases found.symm.trans found'
            exact mem_marks.mpr (.inl read)
          · exact .inl (mem_work.mpr (.inl waiting))
        · exact .inr fun op' found' w read => mem_marks.mpr (.inr (done op' found' read))
      · rcases mem_marks.mp live' with read | before
        · exact .inl (mem_work.mpr (.inr ⟨read, old⟩))
        · exact absurd before old

theorem seeds_needed (seed : v ∈ seeds f) : Needed f v := by
  simp only [seeds, List.mem_append, List.mem_flatMap] at seed
  rcases seed with (⟨⟨a, b⟩, block, picked⟩ | ⟨⟨a, b⟩, block, ⟨op, n⟩, at_, picked⟩) | ⟨op, there, read⟩
  · split at picked
    · rename_i returns
      obtain ⟨l, live, picked⟩ := List.mem_filterMap.mp picked
      exact .returned block returns live picked
    · cases picked
  · split at picked
    · rename_i calls
      obtain ⟨l, argument, picked⟩ := List.mem_filterMap.mp picked
      exact .passed block (List.mk_mem_zipIdx_iff_getElem?.mp at_) calls argument picked
    · cases picked
  · split at read
    · rename_i effect
      exact .used there effect (mem_reads.mp read)
    · cases read

theorem marked_seeds (f : SsaFunction) : Marked f ((seeds f).foldl mark ([], [])).1 ((seeds f).foldl mark ([], [])).2 := by
  refine ⟨?_, ?_, fun v seed => mem_marks.mpr (.inl seed), ?_⟩
  · intro v waiting
    rcases mem_work.mp waiting with before | ⟨seed, -⟩
    · cases before
    · exact mem_marks.mpr (.inl seed)
  · intro v live
    rcases mem_marks.mp live with seed | before
    · exact seeds_needed seed
    · cases before
  · intro v live
    rcases mem_marks.mp live with seed | before
    · exact .inl (mem_work.mpr (.inr ⟨seed, List.not_mem_nil⟩))
    · cases before

theorem mem_live_iff : v ∈ live f ↔ Needed f v := by
  have marked : Marked f (live f) [] := (marked_seeds f).close
  constructor
  · exact marked.needed v
  · intro needed
    have seeded : ∀ {v}, v ∈ seeds f → v ∈ live f := fun seed => marked.seeded seed
    simp only [seeds, List.mem_append, List.mem_flatMap] at seeded
    induction needed with
    | @returned a b l v block returns live picked =>
      refine seeded (.inl (.inl ⟨(a, b), block, ?_⟩))
      rw [if_pos returns]
      exact List.mem_filterMap.mpr ⟨l, live, picked⟩
    | @passed a n b op l v block at_ calls argument picked =>
      refine seeded (.inl (.inr ⟨(a, b), block, (op, n), List.mk_mem_zipIdx_iff_getElem?.mpr at_, ?_⟩))
      rw [if_pos calls]
      exact List.mem_filterMap.mpr ⟨l, argument, picked⟩
    | @used op v there effect read =>
      refine seeded (.inr ⟨op, there, ?_⟩)
      rw [if_pos effect]
      exact mem_reads.mpr read
    | @through op v w _ there out read ih =>
      rcases marked.closed w ih with waiting | done
      · cases waiting
      · exact done op (SsaFunction.definition_eq_some_iff.mpr ⟨there, out⟩) (mem_reads.mpr read)

/-- The blocks a function can come to, each with the values written on the way, last first. -/
inductive Run (f : SsaFunction) : ℕ → List Value → Prop
  | start : Run f f.entry []
  | step {a s : ℕ} {b : SsaBlock} {written : List Value} : Run f a written → f.get a = some b → s ∈ b.successors →
    Run f s ((outsOf b.ops).reverse ++ written)

/-- Some way to an operation leaves the value in the location. -/
def Holds (f : SsaFunction) (a n : ℕ) (l : Location) (v : Value) : Prop :=
  ∃ b written, Run f a written ∧ f.get a = some b ∧
    ((outsOf (b.ops.take n)).reverse ++ written).find? (fun u => u.location = l) = some v

/-- A caller or a callee can observe the location at the operation. -/
inductive Observed (f : SsaFunction) (a n : ℕ) (l : Location) : Prop
  | atReturn {b : SsaBlock} {op : SsaOp} : f.get a = some b → b.ops[n]? = some op → returns op →
    l ∈ (Abi.of f.arch).liveAtReturn → Observed f a n l
  | atCall {b : SsaBlock} {op : SsaOp} : f.get a = some b → b.ops[n]? = some op → calls f op →
    l ∈ (Abi.of f.arch).argumentLocations → Observed f a n l

inductive ReadBy (f : SsaFunction) (op : SsaOp) : Value → Prop
  | direct {v : Value} : .value v ∈ op.inputs → ReadBy f op v
  | through {u v : Value} {d : SsaOp} : ReadBy f op u → f.definition u = some d → .value v ∈ d.inputs → ReadBy f op v

/-- Whatever can be observed, and whatever an operation that stays reads, is still defined. -/
structure Keeps (f : SsaFunction) : Prop where
  observed : ∀ a n l v, Observed f a n l → Holds f a n l v → v ∈ outsOf (removeDead f).1.ops
  read : ∀ op ∈ (removeDead f).1.ops, ∀ v, ReadBy f op v → v ∈ outsOf f.ops → v ∈ outsOf (removeDead f).1.ops

/-- The definition has an effect or defines a needed value. -/
def Stays (f : SsaFunction) (v : Value) : Prop :=
  Needed f v ∨ ∃ op ∈ f.ops, op.out = some v ∧ hasEffect op

/-- What can be observed stays, and so does what an operation without result and effect
    reads. -/
structure Guessed (f : SsaFunction) : Prop where
  observed : ∀ a n l v, Observed f a n l → Holds f a n l v → Stays f v
  silent : ∀ op ∈ f.ops, op.out = none → ¬hasEffect op → ∀ v, .value v ∈ op.inputs → v ∈ outsOf f.ops → Stays f v

theorem mem_outs {ops : List SsaOp} : v ∈ outsOf ops ↔ ∃ op ∈ ops, op.out = some v :=
  List.mem_filterMap

/-- The values defined after the pass are those that were and stay. -/
theorem mem_removeDead : v ∈ outsOf (removeDead f).1.ops ↔ v ∈ outsOf f.ops ∧ Stays f v := by
  rw [removeDead_ops, mem_outs, mem_outs]
  constructor
  · rintro ⟨op, kept, out⟩
    obtain ⟨there, keep⟩ := List.mem_filter.mp kept
    refine ⟨⟨op, there, out⟩, ?_⟩
    simp only [keeps, out, Bool.or_eq_true, decide_eq_true_eq] at keep
    rcases keep with effect | live
    · exact .inr ⟨op, there, out, effect⟩
    · exact .inl (mem_live_iff.mp live)
  · rintro ⟨⟨op, there, out⟩, stays⟩
    refine ⟨op, List.mem_filter.mpr ⟨there, ?_⟩, out⟩
    simp only [keeps, out, Bool.or_eq_true, decide_eq_true_eq]
    rcases stays with needed | ⟨op', there', out', effect⟩
    · exact .inr (mem_live_iff.mpr needed)
    · rw [SsaFunction.eq_of_out f.single there there' out out']
      exact .inl effect

theorem stays_of_read {op : SsaOp} (kept : op ∈ (removeDead f).1.ops) (loud : op.out ≠ none ∨ hasEffect op)
    (read : .value v ∈ op.inputs) : Stays f v := by
  rw [removeDead_ops] at kept
  obtain ⟨there, keep⟩ := List.mem_filter.mp kept
  by_cases effect : hasEffect op
  · exact .inl (.used there effect read)
  · obtain ⟨w, out⟩ := Option.ne_none_iff_exists'.mp (loud.resolve_right effect)
    simp only [keeps, out, Bool.or_eq_true, decide_eq_true_eq] at keep
    exact .inl (.through (mem_live_iff.mp (keep.resolve_left effect)) there out read)

theorem readBy_stays {op : SsaOp}
    (step : ∀ op ∈ (removeDead f).1.ops, ∀ v, .value v ∈ op.inputs → v ∈ outsOf f.ops → Stays f v)
    (kept : op ∈ (removeDead f).1.ops) (read : ReadBy f op v) (defined : v ∈ outsOf f.ops) : Stays f v := by
  induction read with
  | direct read => exact step op kept _ read defined
  | @through u v d _ found read ih =>
    obtain ⟨there, out⟩ := SsaFunction.definition_eq_some_iff.mp found
    have still := mem_removeDead.mpr ⟨mem_outs.mpr ⟨d, there, out⟩, ih (mem_outs.mpr ⟨d, there, out⟩)⟩
    obtain ⟨d', kept', out'⟩ := mem_outs.mp still
    have there' : d' ∈ f.ops := by
      rw [removeDead_ops] at kept'
      exact (List.mem_filter.mp kept').1
    rw [SsaFunction.eq_of_out f.single there' there out' out] at kept'
    exact step d kept' v read defined

theorem holds_defined {a n : ℕ} {l : Location} (holds : Holds f a n l v) : v ∈ outsOf f.ops := by
  obtain ⟨b, written, run, found, last⟩ := holds
  have within : ∀ {a written}, Run f a written → written ⊆ outsOf f.ops := by
    intro a written run
    induction run with
    | start => exact List.nil_subset _
    | step _ found _ ih =>
      intro u there
      rcases List.mem_append.mp there with own | before
      · obtain ⟨op, member, out⟩ := mem_outs.mp (List.mem_reverse.mp own)
        exact mem_outs.mpr ⟨op, SsaFunction.mem_ops.mpr ⟨_, SsaFunction.mem_blocks_of_get found, member⟩, out⟩
      · exact ih before
  rcases List.mem_append.mp (List.mem_of_find?_eq_some last) with own | before
  · obtain ⟨op, member, out⟩ := mem_outs.mp (List.mem_reverse.mp own)
    exact mem_outs.mpr ⟨op, SsaFunction.mem_ops.mpr ⟨_, SsaFunction.mem_blocks_of_get found, List.mem_of_mem_take member⟩,
      out⟩
  · exact within run before

def resultRegister : Location := wholeRegister (gprOffset 0)

def earlyReturn : SsaFunction where
  arch := .aarch64
  entry := 0
  blocks := [
    (0, { ops := [
            { addr := 0, kind := .op (.basic .copy), out := some ⟨resultRegister, 0⟩, inputs := [.const 1 8], size := 8 },
            { addr := 4, kind := .op (.basic .intEqual), out := some ⟨⟨.unique, 0, 1⟩, 0⟩
              inputs := [.undefined (wholeRegister (gprOffset 1)), .const 0 8], size := 1 },
            { addr := 4, kind := .op (.basic .cbranch), out := none
              inputs := [.const 16 8, .value ⟨⟨.unique, 0, 1⟩, 0⟩], size := 8 }]
          successors := [16, 8], predecessors := [] }),
    (8, { ops := [
            { addr := 8, kind := .op (.basic .copy), out := some ⟨resultRegister, 1⟩, inputs := [.const 2 8], size := 8 },
            { addr := 12, kind := .op (.basic .ret), out := none
              inputs := [.undefined (wholeRegister (gprOffset 30))], size := 8 }]
          successors := [], predecessors := [0] }),
    (16, { ops := [
            { addr := 16, kind := .op (.basic .ret), out := none
              inputs := [.undefined (wholeRegister (gprOffset 30))], size := 8 }]
           successors := [], predecessors := [0] })]
  sorted := by decide
  single := by decide

theorem earlyReturn_needed (needed : Needed earlyReturn v) : v ≠ ⟨resultRegister, 0⟩ := by
  induction needed with
  | @returned a b l v block returns live picked =>
    have none_ : ∀ e ∈ earlyReturn.blocks, ∀ l ∈ (Abi.of earlyReturn.arch).liveAtReturn, e.2.ops.any RemoveDead.returns →
        lastDefinition earlyReturn e.2 l e.2.ops.length ≠ some ⟨resultRegister, 0⟩ := by decide
    rintro rfl
    exact none_ (a, b) block l live returns picked
  | @passed a n b op l v block at_ calls =>
    have none_ : ∀ e ∈ earlyReturn.blocks, ∀ op ∈ e.2.ops, RemoveDead.calls earlyReturn op = false := by decide
    rw [none_ (a, b) block op (List.mem_of_getElem? at_)] at calls
    cases calls
  | @used op v there effect read =>
    have none_ : ∀ op ∈ earlyReturn.ops, .value ⟨resultRegister, 0⟩ ∉ op.inputs := by decide
    rintro rfl
    exact none_ op there read
  | @through op v w _ there out read =>
    have none_ : ∀ op ∈ earlyReturn.ops, .value ⟨resultRegister, 0⟩ ∉ op.inputs := by decide
    rintro rfl
    exact none_ op there read

end E5r.RemoveDead
