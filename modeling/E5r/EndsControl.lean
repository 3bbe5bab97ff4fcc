import E5r.RegionTrees
import E5r.SsaModel

/-!
# Arms that end control

The emitter writes `if (c) { arm } rest` for an `if` with an `else` when it takes the arm to leave
by itself, and folds nested tests that share an arm into one. What it takes to leave is compared
with what the tree runs.
-/

namespace E5r.EndsControl

open JumpPrograms RegionTrees SsaModel

/-- What the emitter reads: the function, the values that got a name, the blocks with a label, and
the blocks whose indirect branch the tree already says as a switch. -/
structure Emitter where
  f : SsaFunction
  locals : List (Value × String)
  labels : List ℕ
  switches : List ℕ

/-- The function a branch tails into, when it leaves this function entirely. -/
def tailCall (f : SsaFunction) (op : SsaOp) : Option ℕ :=
  if op.kind ≠ .op (.basic .branch) then none
  else do
    let target ← (← op.inputs.head?).asConst
    if (f.get target).isSome then none else some target

namespace Emitter

/-- Whether an operation has to appear as a statement rather than inlined into what reads it. -/
def isStatement (e : Emitter) (op : SsaOp) : Bool :=
  match op.kind with
  | .phi => false
  | .op (.basic .store) | .op (.basic .ret) | .op (.basic .call) | .op (.basic .callInd)
  | .op (.basic .unimplemented) | .op (.basic .branchInd) => true
  | .op (.basic .branch) => (tailCall e.f op).isSome
  | .op (.basic .cbranch) => false
  | _ => match op.out with
    | some v => (e.locals.lookup v).isSome
    | none => false

/-- Whether a block's only job is to compute the branch condition. -/
def headIsOnlyATest (e : Emitter) (b : ℕ) : Bool :=
  match e.f.get b with
  | none => true
  | some block => !block.ops.any e.isStatement

mutual
/-- Whether a region is taken to never fall through to the statement after it. -/
def regionEndsControl (e : Emitter) : Region → Bool
  | .block b => match e.f.get b with
    | none => true
    | some block =>
      block.ops.any (fun op => op.kind == .op (.basic .ret) || op.kind == .op (.basic .branchInd)
        || (tailCall e.f op).isSome)
      || !block.successors.any fun successor => (e.f.get successor).isSome
  | .brk | .cont | .goto _ => true
  | .seq parts => lastEndsControl e parts
  | .ifElse _ _ arm (some otherwise) => regionEndsControl e arm && regionEndsControl e otherwise
  | .switch _ cases (some default) => casesEndControl e cases && regionEndsControl e default
  | _ => false

def lastEndsControl (e : Emitter) : List Region → Bool
  | [] => false
  | [p] => regionEndsControl e p
  | _ :: ps => lastEndsControl e ps

def casesEndControl (e : Emitter) : List (List ℕ × Region) → Bool
  | [] => true
  | (_, p) :: cs => regionEndsControl e p && casesEndControl e cs
end

end Emitter

/-! ### Folded conjunctions -/

/-- One test in a chain that shares an arm, and whether its then-arm goes on toward the arm that
is not shared. -/
structure AndTerm where
  head : ℕ
  invert : Bool
  uniqueWhenHeld : Bool
  deriving DecidableEq

def AndTerm.test (term : AndTerm) : Test × Bool :=
  (.holds term.head, if term.uniqueWhenHeld then !term.invert else term.invert)

/-- The `if` nested as this arm, when the block in front of it is only its own head. -/
def nestedIf : Region → Option (ℕ × Bool × Region × Option Region)
  | .ifElse head invert arm otherwise => some (head, invert, arm, otherwise)
  | .seq [.block b, .ifElse head invert arm otherwise] =>
    if b = head then some (head, invert, arm, otherwise) else none
  | _ => none

mutual
/-- Whether a region is, or begins with, the block a goto names. -/
def startsAt (b : ℕ) : Region → Bool
  | .block a => a == b
  | .seq parts => firstStartsAt b parts
  | .ifElse head _ _ _ => head == b
  | _ => false

def firstStartsAt (b : ℕ) : List Region → Bool
  | [] => false
  | p :: _ => startsAt b p
end

/-- Which arm of a test is the shared one: its term, the other arm, and the arm shared from here
on. -/
def sides (head : ℕ) (invert : Bool) (arm otherwise shared : Region) :
    Option (AndTerm × Region × Region) :=
  if otherwise = shared then some (⟨head, invert, true⟩, arm, shared)
  else if arm = shared then some (⟨head, invert, false⟩, otherwise, shared)
  else match shared with
    | .goto target =>
      if startsAt target arm then some (⟨head, invert, false⟩, otherwise, arm)
      else if startsAt target otherwise then some (⟨head, invert, true⟩, arm, otherwise)
      else none
    | _ => none

/-- The next test of a chain: its term, the arm to go on with, and the arm that is shared. -/
def chainStep (e : Emitter) (shared cursor : Region) : Option (AndTerm × Region × Region) :=
  match nestedIf cursor with
  | some (head, invert, arm, some otherwise) =>
    if e.headIsOnlyATest head then sides head invert arm otherwise shared else none
  | _ => none

variable {r arm : Region} {invert : Bool}

theorem nestedIf_sizeOf {head : ℕ} {otherwise : Option Region}
    (nested : nestedIf r = some (head, invert, arm, otherwise)) : sizeOf arm + sizeOf otherwise < sizeOf r := by
  unfold nestedIf at nested
  split at nested
  · cases nested
    simp
  · split at nested
    · cases nested
      simp
      omega
    · cases nested
  · cases nested

variable {shared shared' : Region} {term : AndTerm}

theorem sides_cases {head : ℕ} {otherwise next : Region}
    (step : sides head invert arm otherwise shared = some (term, next, shared')) :
    ((term = ⟨head, invert, true⟩ ∧ next = arm ∧ shared' = otherwise) ∨
      (term = ⟨head, invert, false⟩ ∧ next = otherwise ∧ shared' = arm)) ∧
    (shared' = shared ∨ ∃ target, shared = .goto target ∧ startsAt target shared' = true) := by
  unfold sides at step
  split at step
  · next same =>
    cases step
    exact ⟨.inl ⟨rfl, rfl, same.symm⟩, .inl rfl⟩
  split at step
  · next same =>
    cases step
    exact ⟨.inr ⟨rfl, rfl, same.symm⟩, .inl rfl⟩
  split at step
  · next target _ _ =>
    split at step
    · next starts =>
      cases step
      exact ⟨.inr ⟨rfl, rfl, rfl⟩, .inr ⟨target, rfl, starts⟩⟩
    split at step
    · next starts =>
      cases step
      exact ⟨.inl ⟨rfl, rfl, rfl⟩, .inr ⟨target, rfl, starts⟩⟩
    · cases step
  · cases step

variable {e : Emitter} {cursor : Region}

theorem chainStep_cases {next : Region} (step : chainStep e shared cursor = some (term, next, shared')) :
    ∃ head invert arm otherwise, nestedIf cursor = some (head, invert, arm, some otherwise) ∧
      e.headIsOnlyATest head = true ∧
      ((term = ⟨head, invert, true⟩ ∧ next = arm ∧ shared' = otherwise) ∨
        (term = ⟨head, invert, false⟩ ∧ next = otherwise ∧ shared' = arm)) ∧
      (shared' = shared ∨ ∃ target, shared = .goto target ∧ startsAt target shared' = true) := by
  unfold chainStep at step
  split at step
  · next head invert arm otherwise nested =>
    split at step
    · next only =>
      exact ⟨head, invert, arm, otherwise, nested, only, sides_cases step⟩
    · cases step
  · cases step

/-- Tests and-ed in front of one arm, when each nested `if` shares the other: the terms, the arm
they lead to and the arm they share. -/
def chain (e : Emitter) (shared cursor : Region) : List AndTerm × Region × Region :=
  match step : chainStep e shared cursor with
  | none => ([], cursor, shared)
  | some (term, next, shared') =>
    let (terms, unique, shared'') := chain e shared' next
    (term :: terms, unique, shared'')
termination_by sizeOf cursor
decreasing_by
  obtain ⟨_, _, arm, otherwise, nested, -, sides, -⟩ := chainStep_cases step
  have smaller := nestedIf_sizeOf nested
  rcases sides with ⟨-, rfl, -⟩ | ⟨-, rfl, -⟩ <;> simp at smaller <;> omega

def conjunction (e : Emitter) (arm otherwise : Region) : Option (List AndTerm × Region × Region) :=
  let (terms, unique, shared) := chain e otherwise arm
  if terms.isEmpty then none else some (terms, unique, shared)

/-! ### What is written for an `if` -/

/-- The code written for an `if`: `if (tests) { arm } rest`, or with `rest` in an `else`. -/
inductive Printed where
  | ifThen (tests : List (Test × Bool)) (arm rest : Region)
  | ifElse (tests : List (Test × Bool)) (arm otherwise : Region)
  deriving DecidableEq

/-- How an `if` is written that no earlier case of the emitter takes. -/
def printIf (e : Emitter) (head : ℕ) (invert : Bool) (arm : Region) (otherwise : Option Region) :
    Printed :=
  match otherwise with
  | none => .ifElse [(.holds head, !invert)] arm .empty
  | some other =>
    match conjunction e arm other with
    | some (terms, unique, shared) =>
      let tests := (.holds head, !invert) :: terms.map AndTerm.test
      if e.regionEndsControl unique then .ifThen tests unique shared else .ifElse tests unique shared
    | none =>
      if e.regionEndsControl arm then .ifThen [(.holds head, !invert)] arm other
      else if e.regionEndsControl other then .ifThen [(.holds head, invert)] other arm
      else .ifElse [(.holds head, !invert)] arm other

/-! ### Runs -/

/-- A block leaves the function when it returns, calls in tail position, or jumps to an address
that no switch says, or when none of its successors is in the function. A block that only tests
shows nothing else. -/
def Emitter.machine (e : Emitter) : Machine ℕ Test where
  labels b := b ∈ e.labels
  shown b := !e.headIsOnlyATest b
  stops b := leaves b
  dead c := leaves c.head
where
  leaves (b : ℕ) : Bool :=
    match e.f.get b with
    | none => true
    | some block =>
      block.ops.any (fun op => op.kind == .op (.basic .ret)
        || (op.kind == .op (.basic .branchInd) && !e.switches.contains b)
        || (tailCall e.f op).isSome)
      || !block.successors.any fun successor => (e.f.get successor).isSome

/-- What the code written for an `if` runs. -/
def Printed.runs (m : Machine ℕ Test) : Printed → Behaviour ℕ Test
  | .ifThen tests arm rest => seq (branch m tests (RegionTrees.runs m arm) skip) (RegionTrees.runs m rest)
  | .ifElse tests arm otherwise =>
    branch m tests (RegionTrees.runs m arm) (RegionTrees.runs m otherwise)

/-! ### Where control comes out after all -/

mutual
/-- A run of the region, from its start or from a label in it, reaches a break that leaves a
switch the region ends with, or a block the region ends with whose indirect branch is a switch of
the tree. -/
def Slips (e : Emitter) (entry : Option ℕ) : Region → Prop
  | .block b =>
    (entry = none ∨ entry = some b ∧ b ∈ e.labels) ∧ b ∈ e.switches ∧ e.machine.stops b = false
  | .seq parts => LastSlips e entry parts
  | .ifElse head _ arm (some otherwise) =>
    (entry = none → e.machine.stops head = false) ∧ (Slips e entry arm ∨ Slips e entry otherwise)
  | .switch head cases (some default) =>
    CasesSlip e entry head ((∃ t, runs e.machine default entry t .brk) ∨ Slips e entry default) cases
  | _ => False

def LastSlips (e : Emitter) (entry : Option ℕ) : List Region → Prop
  | [] => False
  | [p] => Slips e entry p
  | p :: ps =>
    ((∃ t, runs e.machine p entry t .fall) ∧ LastSlips e none ps) ∨ (entry ≠ none ∧ LastSlips e entry ps)

def CasesSlip (e : Emitter) (entry : Option ℕ) (head : ℕ) (default : Prop) :
    List (List ℕ × Region) → Prop
  | [] => default
  | (_, p) :: cs =>
    (entry = none → e.machine.stops head = false) ∧
      ((∃ t, runs e.machine p entry t .brk) ∨ Slips e entry p ∨ CasesSlip e entry head default cs)
end

theorem block_falls {m : Machine ℕ Test} {b : ℕ} {entry : Option ℕ} :
    (∃ t, block m b entry t .fall) ↔
      (entry = none ∨ entry = some b ∧ m.labels b) ∧ m.stops b = false := by
  simp only [block]
  cases m.stops b <;> simp

variable {p : Behaviour ℕ Test}

theorem seq_falls {q : Behaviour ℕ Test} {entry : Option ℕ} :
    (∃ t, seq p q entry t .fall) ↔
      ((∃ t, p entry t .fall) ∧ ∃ t, q none t .fall) ∨ (entry ≠ none ∧ ∃ t, q entry t .fall) := by
  simp only [seq]
  constructor
  · rintro ⟨t, ⟨-, fell⟩ | ⟨s, u, rfl, first, last⟩ | ⟨inside, run⟩⟩
    · exact absurd rfl fell
    · exact .inl ⟨⟨s, first⟩, u, last⟩
    · exact .inr ⟨inside, t, run⟩
  · rintro (⟨⟨s, first⟩, u, last⟩ | ⟨inside, t, run⟩)
    · exact ⟨s ++ u, .inr (.inl ⟨s, u, rfl, first, last⟩)⟩
    · exact ⟨t, .inr (.inr ⟨inside, run⟩)⟩

/-- Both arms of one test can be taken, unless the test is not made. -/
theorem branch_leaves {m : Machine ℕ Test} {c : Test} {wanted : Bool} {q : Behaviour ℕ Test} {entry : Option ℕ}
    {x : Exit ℕ} (goes : x ≠ .stop) (whole : x ≠ .cut) :
    (∃ t, branch m [(c, wanted)] p q entry t x) ↔
      (entry = none → m.dead c = false) ∧ ((∃ t, p entry t x) ∨ ∃ t, q entry t x) := by
  cases entry with
  | some b => simp [branch, exists_or]
  | none =>
    simp only [branch, tests, true_implies]
    constructor
    · rintro ⟨t, ⟨-, ended | ⟨-, stopped⟩⟩ | ⟨live, held, u, rfl, run⟩⟩
      · exact absurd ended whole
      · exact absurd stopped goes
      · refine ⟨live, ?_⟩
        split at run
        · exact .inl ⟨u, run⟩
        · exact .inr ⟨u, run⟩
    · rintro ⟨live, ⟨u, run⟩ | ⟨u, run⟩⟩
      · exact ⟨_, .inr ⟨live, wanted, u, rfl, by rwa [if_pos rfl]⟩⟩
      · refine ⟨_, .inr ⟨live, !wanted, u, rfl, ?_⟩⟩
        rwa [if_neg (by cases wanted <;> simp)]

theorem scope_falls {entry : Option ℕ} :
    (∃ t, scope p entry t .fall) ↔ (∃ t, p entry t .brk) ∨ ∃ t, p entry t .fall := by
  simp [scope, exists_or]

theorem switch_of_ends {b : ℕ} (ends : e.regionEndsControl (.block b) = true) (goes : e.machine.stops b = false) :
    b ∈ e.switches := by
  simp only [Emitter.regionEndsControl] at ends
  simp only [Emitter.machine, Emitter.machine.leaves] at goes
  by_contra other
  have absent : e.switches.contains b = false := by simpa using other
  rw [absent] at goes
  simp only [Bool.not_false, Bool.and_true] at goes
  rw [goes] at ends
  cases ends

mutual
theorem falls_iff_slips (e : Emitter) (entry : Option ℕ) :
    ∀ r : Region, e.regionEndsControl r = true →
      ((∃ t, runs e.machine r entry t .fall) ↔ Slips e entry r)
  | .block b, ends => by
    simp only [runs, block_falls, Slips]
    constructor
    · rintro ⟨entered, goes⟩
      exact ⟨entered, switch_of_ends ends goes, goes⟩
    · rintro ⟨entered, -, goes⟩
      exact ⟨entered, goes⟩
  | .seq parts, ends => lastFalls_iff e entry parts ends
  | .ifElse head invert arm (some otherwise), ends => by
    simp only [Emitter.regionEndsControl, Bool.and_eq_true] at ends
    simp only [runs, runsElse, Slips, branch_leaves (x := .fall) nofun nofun,
      falls_iff_slips e entry arm ends.1, falls_iff_slips e entry otherwise ends.2]
    rfl
  | .switch head cases (some default), ends => by
    simp only [Emitter.regionEndsControl, Bool.and_eq_true] at ends
    simp only [runs, runsElse, Slips, scope_falls]
    exact casesFall_iff e entry head (or_congr_right (falls_iff_slips e entry default ends.2)) cases ends.1
  | .brk, _ | .cont, _ | .goto _, _ => by simp [runs, leave, Slips]

theorem lastFalls_iff (e : Emitter) (entry : Option ℕ) :
    ∀ ps : List Region, e.lastEndsControl ps = true →
      ((∃ t, runsAll e.machine ps entry t .fall) ↔ LastSlips e entry ps)
  | [p], ends => by
    simp only [runsAll, seq_skip, LastSlips]
    exact falls_iff_slips e entry p ends
  | p :: q :: ps, ends => by
    rw [runsAll, seq_falls, lastFalls_iff e none (q :: ps) ends, lastFalls_iff e entry (q :: ps) ends]
    rfl

theorem casesFall_iff (e : Emitter) (entry : Option ℕ) (head : ℕ) {d : Behaviour ℕ Test}
    {default : Prop} (slips : ((∃ t, d entry t .brk) ∨ ∃ t, d entry t .fall) ↔ default) :
    ∀ cs : List (List ℕ × Region), e.casesEndControl cs = true →
      (((∃ t, runsCases e.machine head d cs entry t .brk) ∨
          ∃ t, runsCases e.machine head d cs entry t .fall) ↔ CasesSlip e entry head default cs)
  | [], _ => slips
  | (values, p) :: cs, ends => by
    simp only [Emitter.casesEndControl, Bool.and_eq_true] at ends
    rw [runsCases, branch_leaves (x := .brk) nofun nofun, branch_leaves (x := .fall) nofun nofun,
      CasesSlip, ← casesFall_iff e entry head slips cs ends.2, ← falls_iff_slips e entry p ends.1,
      show e.machine.dead (.among head values) = e.machine.stops head from rfl]
    tauto
end

/-! ### What folding a chain keeps -/

mutual
def beginsWith (b : ℕ) : Region → Bool
  | .block a => a == b
  | .seq parts => firstBeginsWith b parts
  | _ => false

def firstBeginsWith (b : ℕ) : List Region → Bool
  | [] => false
  | p :: _ => beginsWith b p
end

mutual
theorem begins_same {m : Machine ℕ Test} {b : ℕ} (labelled : m.labels b) :
    ∀ r : Region, beginsWith b r = true → (written r).count b ≤ 1 →
      (∀ t x, runs m r (some b) t x ↔ runs m r none t x) ∧ b ∈ written r ∧ runs m r none [] .cut
  | .block a, begins, _ => by
    obtain rfl : a = b := by simpa [beginsWith] using begins
    exact ⟨fun t x => by simp [runs, block, labelled], List.mem_singleton_self a, .inl rfl, .inl ⟨rfl, rfl⟩⟩
  | .seq parts, begins, once => firstBegins_same labelled parts begins once

theorem firstBegins_same {m : Machine ℕ Test} {b : ℕ} (labelled : m.labels b) :
    ∀ ps : List Region, firstBeginsWith b ps = true → (writtenAll ps).count b ≤ 1 →
      (∀ t x, runsAll m ps (some b) t x ↔ runsAll m ps none t x) ∧ b ∈ writtenAll ps ∧
        runsAll m ps none [] .cut
  | p :: ps, begins, once => by
    rw [writtenAll, List.count_append] at once
    obtain ⟨same, there, starts⟩ := begins_same labelled p begins (Nat.le_of_add_right_le once)
    have later : b ∉ writtenAll ps := by
      intro again
      have first := List.count_pos_iff.mpr there
      have second := List.count_pos_iff.mpr again
      omega
    have never (t : List (Event ℕ Test)) (x : Exit ℕ) : ¬ runsAll m ps (some b) t x := fun run =>
      later (runsAll_entries m ps (fun _ inside => inside) b t x run)
    refine ⟨fun t x => ?_, List.mem_append_left _ there, .inl ⟨starts, nofun⟩⟩
    simp only [runsAll, seq, same, never, and_false, or_false, ne_eq, not_true_eq_false, false_and]
end

/-- The test of an arm with the block of its head in front of it. -/
theorem nestedIf_runs {otherwise : Option Region} {head : ℕ}
    (nested : nestedIf r = some (head, invert, arm, otherwise)) (only : e.headIsOnlyATest head = true)
    (unlabelled : head ∉ e.labels) :
    runs e.machine r
      = branch e.machine [(.holds head, !invert)] (runs e.machine arm) (runsElse e.machine otherwise) := by
  unfold nestedIf at nested
  split at nested
  · cases nested
    rfl
  · split at nested
    · next same =>
      cases nested
      subst same
      simp only [runs, runsAll, seq_skip]
      exact block_branch _ _ _ _ _ _ _ (by simp [Emitter.machine, only]) unlabelled rfl
    · cases nested
  · cases nested

theorem nestedIf_written {otherwise : Option Region} {head : ℕ}
    (nested : nestedIf r = some (head, invert, arm, otherwise)) (b : ℕ) :
    (written arm).count b + (writtenElse otherwise).count b ≤ (written r).count b := by
  unfold nestedIf at nested
  split at nested
  · cases nested
    simp [written]
  · split at nested
    · cases nested
      simp [written, writtenAll, List.count_cons]
    · cases nested
  · cases nested

theorem chainStep_runs {next : Region} (step : chainStep e shared cursor = some (term, next, shared'))
    (unlabelled : term.head ∉ e.labels) :
    runs e.machine cursor = branch e.machine [term.test] (runs e.machine next) (runs e.machine shared') := by
  obtain ⟨head, invert, arm, otherwise, nested, only, ⟨rfl, rfl, rfl⟩ | ⟨rfl, rfl, rfl⟩, -⟩ :=
    chainStep_cases step
  · exact nestedIf_runs nested only unlabelled
  · rw [nestedIf_runs nested only unlabelled, branch_not]
    rfl

theorem chainStep_written {next : Region} (step : chainStep e shared cursor = some (term, next, shared')) (b : ℕ) :
    (written next).count b + (written shared').count b ≤ (written cursor).count b := by
  obtain ⟨head, invert, arm, otherwise, nested, -, ⟨-, rfl, rfl⟩ | ⟨-, rfl, rfl⟩, -⟩ :=
    chainStep_cases step
  · exact nestedIf_written nested b
  · rw [Nat.add_comm]
    exact nestedIf_written nested b

theorem chain_runs (e : Emitter) (shared cursor : Region) {terms : List AndTerm}
    {unique last : Region} (found : chain e shared cursor = (terms, unique, last))
    (unlabelled : ∀ term ∈ terms, term.head ∉ e.labels) :
    (last = shared ∧ (∀ b, (written unique).count b ≤ (written cursor).count b) ∧
      ∀ cs, branch e.machine cs (runs e.machine cursor) (runs e.machine shared)
        = branch e.machine (cs ++ terms.map AndTerm.test) (runs e.machine unique) (runs e.machine last)) ∨
    ∃ target before after, shared = .goto target ∧ terms = before ++ after ∧
      startsAt target last = true ∧
      (∀ b, (written unique).count b + (written last).count b ≤ (written cursor).count b) ∧
      ∀ cs, branch e.machine cs (runs e.machine cursor) (leave (.goto target))
        = branch e.machine (cs ++ before.map AndTerm.test)
            (branch e.machine (after.map AndTerm.test) (runs e.machine unique) (runs e.machine last))
            (leave (.goto target)) := by
  induction shared, cursor using chain.induct e generalizing terms with
  | case1 shared cursor stuck =>
    rw [chain] at found
    split at found
    · cases found
      exact .inl ⟨rfl, fun _ => le_rfl, fun cs => by rw [List.map_nil, List.append_nil]⟩
    · next step => rw [stuck] at step; cases step
  | case2 shared cursor term next shared' step terms' unique' last' found' ih =>
    rw [chain] at found
    split at found
    · next stuck => rw [step] at stuck; cases stuck
    next term₂ next₂ shared₂ step₂ =>
    rw [step] at step₂
    cases step₂
    rw [found'] at found
    cases found
    have runsCursor := chainStep_runs step (unlabelled term List.mem_cons_self)
    have fewer := chainStep_written step
    have rest := ih found' fun term there => unlabelled term (List.mem_cons_of_mem _ there)
    obtain ⟨-, -, -, -, -, -, -, rfl | ⟨target, rfl, starts⟩⟩ := chainStep_cases step
    · rcases rest with ⟨rfl, count, law⟩ | ⟨target, before, after, rfl, rfl, starts, count, law⟩
      · refine .inl ⟨rfl, fun b => ?_, fun cs => ?_⟩
        · have := count b
          have := fewer b
          omega
        · rw [runsCursor, ← branch_append, law, List.append_assoc]
          rfl
      · refine .inr ⟨target, term :: before, after, rfl, rfl, starts, fun b => ?_, fun cs => ?_⟩
        · have := count b
          have := fewer b
          omega
        · rw [runsCursor]
          show branch _ _ (branch _ _ _ (leave (.goto target))) _ = _
          rw [← branch_append, law, List.append_assoc]
          rfl
    · rcases rest with ⟨rfl, count, law⟩ | ⟨target', before, after, rfl, -, -⟩
      · refine .inr ⟨target, [], term :: terms', rfl, rfl, starts, fun b => ?_, fun cs => ?_⟩
        · have := count b
          have := fewer b
          omega
        · rw [runsCursor, law [term.test], List.map_nil, List.append_nil]
          rfl
      · cases starts

/-- Where an `if` can be folded: no folded head carries a label, and a goto to the shared arm names
a labelled block that the arm begins with and that is written nowhere else. -/
def Foldable (e : Emitter) (arm otherwise : Region) : Prop :=
  ∀ terms unique shared, conjunction e arm otherwise = some (terms, unique, shared) →
    (∀ term ∈ terms, term.head ∉ e.labels) ∧
    ∀ target, otherwise = .goto target → shared ≠ otherwise →
      target ∈ e.labels ∧ beginsWith target shared = true ∧ (written arm).count target ≤ 1

theorem fold_executes {otherwise unique : Region} {terms : List AndTerm}
    (found : conjunction e arm otherwise = some (terms, unique, shared)) (foldable : Foldable e arm otherwise)
    (c : Test × Bool) (entry : Option ℕ) (t : List (Event ℕ Test)) (x : Exit ℕ) :
    Executes (branch e.machine (c :: terms.map AndTerm.test) (runs e.machine unique) (runs e.machine shared))
        entry t x ↔
      Executes (branch e.machine [c] (runs e.machine arm) (runs e.machine otherwise)) entry t x := by
  obtain ⟨unlabelled, threads⟩ := foldable terms unique shared found
  have chained : chain e otherwise arm = (terms, unique, shared) := by
    simp only [conjunction] at found
    split at found
    · cases found
    · injection found
  rcases chain_runs e otherwise arm chained unlabelled with
    ⟨rfl, -, law⟩ | ⟨target, before, after, rfl, rfl, starts, count, law⟩
  · rw [law [c]]
    rfl
  · have other : shared ≠ .goto target := by
      rintro rfl
      cases starts
    obtain ⟨labelled, begins, once⟩ := threads target rfl other
    have fewer := count target
    obtain ⟨same, there, cut⟩ := begins_same (m := e.machine) labelled shared begins (by omega)
    have outside : target ∉ written unique := by
      intro again
      have first := List.count_pos_iff.mpr there
      have second := List.count_pos_iff.mpr again
      omega
    rw [show runs e.machine (.goto target) = leave (.goto target) from rfl, law [c], List.map_append,
      ← List.cons_append, branch_append]
    refine thread_jump (fun t x => ?_) (fun b t x run => .inr run) ⟨_, _, cut⟩ entry t x
    have never : ¬ runs e.machine unique (some target) t x := fun run =>
      outside (runs_entries e.machine unique (fun _ inside => inside) target t x run)
    simp only [branch, never, false_or, same]

/-- Block 9 branches to the jump table of block 0 or to block 5. The table goes to block 6, where
the arms rejoin, or to block 7, which returns. -/
def tableFunction : SsaFunction where
  arch := .x86_64
  entry := 9
  blocks := [
    (0, ⟨[⟨0, .op (.basic .branchInd), none, [.undefined ⟨.register, 0, 8⟩], 8⟩], [6, 7], [9]⟩),
    (5, ⟨[⟨5, .op (.basic .store), none, [.const 0 8, .const 1 8], 8⟩], [6], [9]⟩),
    (6, ⟨[⟨6, .op (.basic .ret), none, [], 0⟩], [], [0, 5]⟩),
    (7, ⟨[⟨7, .op (.basic .ret), none, [], 0⟩], [], [0]⟩),
    (9, ⟨[⟨9, .op (.basic .cbranch), none, [.const 5 8, .undefined ⟨.register, 512, 1⟩], 0⟩], [0, 5], []⟩)]
  sorted := by decide
  single := by decide

def tableEmitter : Emitter := ⟨tableFunction, [], [], [0]⟩

/-- The arm of block 9's `if` that switches: index 0 goes where the arms rejoin. -/
def tableArm : Region := .seq [.block 0, .switch 0 [([0], .brk)] (some (.block 7))]

end E5r.EndsControl
