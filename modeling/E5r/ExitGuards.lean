import Mathlib.Algebra.Group.Nat.Defs
import E5r.RegionTrees

/-!
# Early returns

A branch whose arms rejoin only at the block that leaves the function, with one arm much smaller
than the other, is rewritten into a guard that returns.
-/

namespace E5r.ExitGuards

open JumpPrograms RegionTrees

/-- Successors of each block. -/
abbrev Graph := List (ℕ × List ℕ)

/-- How much each block does, as 32-bit numbers. -/
abbrev Weights := List (ℕ × ℕ)

/-- Heavier than this, an arm is the body of the function and not a guard. -/
def guardMax : ℕ := 8

/-- Heavier than this, the block both arms fall into is shared work, not an epilogue. -/
def exitMax : ℕ := 3

def weightOf (weight : Weights) (b : ℕ) : ℕ := (weight.lookup b).getD 0

def saturatingMul (a b : ℕ) : ℕ := min (a * b) (2 ^ 32 - 1)

/-- `some true` when the then-arm is the guard, `some false` when the else is. -/
def guardSide : Option ℕ → Option ℕ → Option Bool
  | some arm, some otherwise =>
    if arm > 0 ∧ otherwise ≥ saturatingMul arm 3 ∧ arm ≤ guardMax then some true
    else if otherwise > 0 ∧ arm ≥ saturatingMul otherwise 3 ∧ otherwise ≤ guardMax then some false
    else none
  | some arm, none => if arm > 0 ∧ arm ≤ guardMax then some true else none
  | none, some otherwise => if otherwise > 0 ∧ otherwise ≤ guardMax then some false else none
  | none, none => none

mutual
/-- Statement-weight of a straight-line arm, or `none` when it has structure. -/
def straightWeight (weight : Weights) : Region → Option ℕ
  | .empty => some 0
  | .block b => some (weightOf weight b)
  | .seq parts => straightWeightAll weight 0 parts
  | _ => none

def straightWeightAll (weight : Weights) (total : ℕ) : List Region → Option ℕ
  | [] => some total
  | p :: ps => do
    let w ← straightWeight weight p
    straightWeightAll weight ((total + w) % 2 ^ 32) ps
end

mutual
def containsBlock (b : ℕ) : Region → Bool
  | .block a => a == b
  | .seq parts => containsBlockAll b parts
  | .ifElse _ _ arm otherwise => containsBlock b arm || containsBlockElse b otherwise
  | .whileLoop _ _ body => containsBlock b body
  | .infinite _ body => containsBlock b body
  | .switch _ cases default => containsBlockCases b cases || containsBlockElse b default
  | _ => false

def containsBlockAll (b : ℕ) : List Region → Bool
  | [] => false
  | p :: ps => containsBlock b p || containsBlockAll b ps

def containsBlockElse (b : ℕ) : Option Region → Bool
  | none => false
  | some p => containsBlock b p

def containsBlockCases (b : ℕ) : List (List ℕ × Region) → Bool
  | [] => false
  | (_, p) :: cs => containsBlock b p || containsBlockCases b cs
end

mutual
def endsWithBlock (b : ℕ) : Region → Bool
  | .block a => a == b
  | .seq parts => endsWithBlockLast b parts
  | _ => false

def endsWithBlockLast (b : ℕ) : List Region → Bool
  | [] => false
  | [p] => endsWithBlock b p
  | _ :: ps => endsWithBlockLast b ps
end

structure NestedTest where
  leading : Option ℕ
  head : ℕ
  invert : Bool
  arm : Region
  otherwise : Option Region

/-- The `if` nested as this arm, and the head block in front of it when the arm is that block
plus the `if`. -/
def nestedTest : Region → Option NestedTest
  | .ifElse head invert arm otherwise => some ⟨none, head, invert, arm, otherwise⟩
  | .seq [.block b, .ifElse head invert arm otherwise] =>
    if b = head then some ⟨some head, head, invert, arm, otherwise⟩ else none
  | _ => none

def inFront : Option ℕ → Region → Region
  | none, r => r
  | some b, r => .seq [.block b, r]

/-- The arm a nested test does not share with the test around it, and whether it is the
then-arm. -/
def lightArm (arm innerElse shared : Region) : Option (Region × Bool) :=
  if innerElse = shared then some (arm, true)
  else if arm = shared then some (innerElse, false)
  else none

/-- A test with one arm on the given side and the shared one on the other. -/
def innerIf (head : ℕ) (invert onThen : Bool) (light shared : Region) : Region :=
  if onThen then .ifElse head invert light (some shared)
  else .ifElse head invert shared (some light)

/-- A compound test `if (a && b) { light } else { rest }` in front of the epilogue is the same
guard as a single test. -/
def plantConjunctionExit (branch : Region) (exit : ℕ) (weight : Weights) : Option Region :=
  match branch with
  | .ifElse head invert arm (some shared) => do
    let nested ← nestedTest arm
    let innerElse ← nested.otherwise
    let (light, onThen) ← lightArm nested.arm innerElse shared
    let lightW ← straightWeight weight light
    if lightW = 0 ∨ lightW > guardMax ∨ containsBlock exit light = true then none
    else
      let light := .seq [light, .block exit]
      let inner := innerIf nested.head nested.invert onThen light shared
      some (.ifElse head invert (inFront nested.leading inner) (some shared))
  | _ => none

/-- The parts of a sequence, or a region as a sequence of itself. -/
def parts : Region → List Region
  | .seq ps => ps
  | r => [r]

def liftOne (branch tail : Region) (graph : Graph) (labels : List ℕ) (weight : Weights) :
    Option (List Region) :=
  match branch, tail with
  | .ifElse head invert arm (some otherwise), .block exit =>
    if exit ∈ labels ∨ graph.lookup exit ≠ some [] ∨ weightOf weight exit > exitMax then none
    else match plantConjunctionExit branch exit weight with
      | some planted => some [planted, .block exit]
      | none => do
        let thenIsGuard ← guardSide (straightWeight weight arm) (straightWeight weight otherwise)
        let (guard, rest, invert) :=
          if thenIsGuard then (arm, otherwise, invert) else (otherwise, arm, !invert)
        let rest := .ifElse head invert (.seq [guard, .block exit]) none :: parts rest
        some (if endsWithBlockLast exit rest then rest else rest ++ [.block exit])
  | _, _ => none

/-- One scan over a sequence: whether its last two parts are a guard. -/
def scan (graph : Graph) (labels : List ℕ) (weight : Weights) : List Region → List Region × Bool
  | [] => ([], false)
  | [p] => ([p], false)
  | [p, q] => match liftOne p q graph labels weight with
    | some rewritten => (rewritten, true)
    | none => ([p, q], false)
  | p :: ps => (p :: (scan graph labels weight ps).1, (scan graph labels weight ps).2)

/-- A lifted guard splices the arm it was hiding in front of the epilogue. That arm may itself
be a guard, so scan until nothing new moves. -/
def liftSeq (graph : Graph) (labels : List ℕ) (weight : Weights) : ℕ → List Region → List Region
  | 0, ps => ps
  | rounds + 1, ps =>
    let (ps, changed) := scan graph labels weight ps
    if changed then liftSeq graph labels weight rounds ps else ps

mutual
def liftExitGuardsRec (graph : Graph) (labels : List ℕ) (weight : Weights) : Region → Region
  | .seq parts => .seq (liftSeq graph labels weight 8 (liftAll graph labels weight parts))
  | .ifElse head invert arm otherwise =>
    .ifElse head invert (liftExitGuardsRec graph labels weight arm)
      (liftElse graph labels weight otherwise)
  | .whileLoop head invert body =>
    .whileLoop head invert (liftExitGuardsRec graph labels weight body)
  | .infinite head body => .infinite head (liftExitGuardsRec graph labels weight body)
  | .switch head cases default =>
    .switch head (liftCases graph labels weight cases) (liftElse graph labels weight default)
  | r => r

def liftAll (graph : Graph) (labels : List ℕ) (weight : Weights) : List Region → List Region
  | [] => []
  | p :: ps => liftExitGuardsRec graph labels weight p :: liftAll graph labels weight ps

def liftElse (graph : Graph) (labels : List ℕ) (weight : Weights) : Option Region → Option Region
  | none => none
  | some p => some (liftExitGuardsRec graph labels weight p)

def liftCases (graph : Graph) (labels : List ℕ) (weight : Weights) :
    List (List ℕ × Region) → List (List ℕ × Region)
  | [] => []
  | (values, p) :: cs =>
    (values, liftExitGuardsRec graph labels weight p) :: liftCases graph labels weight cs
end

/-- An `if` whose body is empty and whose `else` is not is the negated test with one arm. -/
def tidyIf (head : ℕ) (invert : Bool) (arm : Region) (otherwise : Option Region) : Region :=
  if arm = .empty then
    match otherwise with
    | some o => if o = .empty then .ifElse head invert arm none else .ifElse head (!invert) o none
    | none => .ifElse head invert arm none
  else if otherwise = some .empty then .ifElse head invert arm none
  else .ifElse head invert arm otherwise

def tidySeq (parts : List Region) : Region :=
  match parts.filter (· ≠ .empty) with
  | [] => .empty
  | [p] => p
  | ps => .seq ps

mutual
def tidy : Region → Region
  | .seq parts => tidySeq (tidyAll parts)
  | .ifElse head invert arm otherwise => tidyIf head invert (tidy arm) (tidyElse otherwise)
  | .whileLoop head invert body => .whileLoop head invert (tidy body)
  | .infinite head body => .infinite head (tidy body)
  | .switch head cases default => .switch head (tidyCases cases) (tidyElse default)
  | r => r

def tidyAll : List Region → List Region
  | [] => []
  | p :: ps => tidy p :: tidyAll ps

def tidyElse : Option Region → Option Region
  | none => none
  | some p => some (tidy p)

def tidyCases : List (List ℕ × Region) → List (List ℕ × Region)
  | [] => []
  | (values, p) :: cs => (values, tidy p) :: tidyCases cs
end

/-- A branch whose arms rejoin only by leaving the function, with one arm much smaller than the
other, becomes the early return a guard is. -/
def liftExitGuards (root : Region) (graph : Graph) (labels : List ℕ) (weight : Weights) : Region :=
  tidy (liftExitGuardsRec graph labels weight root)

/-! ### What the rewriting keeps -/

/-- A block without successors leaves the function, and its test is not made. -/
def machine (graph : Graph) : Machine ℕ Test where
  labels _ := True
  shown _ := true
  stops b := graph.lookup b == some []
  dead c := graph.lookup c.head == some []

/-- Parts that run the same, write the labelled blocks as often and jump to no other block. -/
structure Keeps (graph : Graph) (labels : List ℕ) (ps qs : List Region) : Prop where
  runs : runsAll { machine graph with labels := (· ∈ labels) } ps
    = runsAll { machine graph with labels := (· ∈ labels) } qs
  written : ∀ l ∈ labels, (writtenAll ps).count l = (writtenAll qs).count l
  gotos : ∀ b ∈ gotosAll ps, b ∈ gotosAll qs

section

variable {graph : Graph} {labels : List ℕ} {weight : Weights}

variable (m : Machine ℕ Test) (ps : List Region)

theorem Keeps.refl : Keeps graph labels ps ps :=
  ⟨rfl, fun _ _ => rfl, fun _ there => there⟩

theorem Keeps.trans {ps qs rs : List Region} (first : Keeps graph labels ps qs)
    (second : Keeps graph labels qs rs) : Keeps graph labels ps rs where
  runs := first.runs.trans second.runs
  written l labelled := (first.written l labelled).trans (second.written l labelled)
  gotos b there := second.gotos b (first.gotos b there)

theorem Keeps.cons {p q : Region} {ps qs : List Region} (first : Keeps graph labels [p] [q])
    (later : Keeps graph labels ps qs) : Keeps graph labels (p :: ps) (q :: qs) where
  runs := by
    have same := first.runs
    simp only [runsAll, seq_skip] at same
    simp only [runsAll, same, later.runs]
  written l labelled := by
    have same := first.written l labelled
    simp only [writtenAll, List.append_nil] at same
    simp only [writtenAll, List.count_append, same, later.written l labelled]
  gotos b there := by
    have same := first.gotos b
    simp only [gotosAll, List.append_nil] at same
    simp only [gotosAll, List.mem_append] at there ⊢
    exact there.imp (same ·) (later.gotos b ·)

theorem runsAll_parts (r : Region) : runsAll m (parts r) = runs m r := by
  cases r <;> simp [parts, runsAll, RegionTrees.runs]

theorem writtenAll_parts (r : Region) : writtenAll (parts r) = written r := by
  cases r <;> simp [parts, writtenAll, RegionTrees.written]

theorem gotosAll_parts (r : Region) : gotosAll (parts r) = gotos r := by
  cases r <;> simp [parts, gotosAll, RegionTrees.gotos]

mutual
theorem endsWithBlock_never {m : Machine ℕ Test} {exit : ℕ} (stops : m.stops exit = true) :
    ∀ r : Region, endsWithBlock exit r = true → NeverFalls (runs m r)
  | .block b, ends => by
    obtain rfl : b = exit := by simpa [endsWithBlock] using ends
    exact neverFalls_block stops
  | .seq ps, ends => endsWithBlockLast_never stops ps ends

theorem endsWithBlockLast_never {m : Machine ℕ Test} {exit : ℕ} (stops : m.stops exit = true) :
    ∀ ps : List Region, endsWithBlockLast exit ps = true → NeverFalls (runsAll m ps)
  | [p], ends => by
    simp only [runsAll, seq_skip]
    exact endsWithBlock_never stops p ends
  | _ :: p :: ps, ends => neverFalls_seq (endsWithBlockLast_never stops (p :: ps) ends)
end

theorem nestedTest_eq {arm : Region} {n : NestedTest} (nested : nestedTest arm = some n) :
    arm = inFront n.leading (.ifElse n.head n.invert n.arm n.otherwise) := by
  unfold nestedTest at nested
  split at nested
  · cases nested
    rfl
  · split at nested
    · next same =>
      cases nested
      subst same
      rfl
    · cases nested
  · cases nested

theorem lightArm_eq {n : NestedTest} {innerElse shared light : Region} {onThen : Bool}
    (side : lightArm n.arm innerElse shared = some (light, onThen)) :
    .ifElse n.head n.invert n.arm (some innerElse)
      = innerIf n.head n.invert onThen light shared := by
  unfold lightArm at side
  split at side
  · next same =>
    cases side
    rw [same]
    rfl
  · split at side
    · next same =>
      cases side
      rw [same]
      rfl
    · cases side

theorem runs_innerIf (head : ℕ) (invert onThen : Bool) (light shared : Region) :
    runs m (innerIf head invert onThen light shared)
      = branch m [(.holds head, onThen ^^ invert)] (runs m light) (runs m shared) := by
  cases onThen with
  | true => simp [innerIf, RegionTrees.runs, runsElse]
  | false => simp [innerIf, RegionTrees.runs, runsElse, branch_not]

variable (leading : Option ℕ)

theorem runs_inFront (r : Region) : runs m (inFront leading r) = seq (leading.elim skip (block m)) (runs m r) := by
  cases leading <;> simp [inFront, RegionTrees.runs, runsAll]

theorem written_inFront (r : Region) : written (inFront leading r) = leading.toList ++ written r := by
  cases leading <;> simp [inFront, RegionTrees.written, writtenAll]

theorem gotos_inFront (r : Region) : gotos (inFront leading r) = gotos r := by
  cases leading <;> simp [inFront, RegionTrees.gotos, gotosAll]

theorem exit_never {exit : ℕ} (leaves : graph.lookup exit = some []) :
    NeverFalls (block { machine graph with labels := (· ∈ labels) } exit) :=
  neverFalls_block (by simp [machine, leaves])

theorem plantConjunctionExit_keeps {branch planted : Region} {exit : ℕ}
    (done : plantConjunctionExit branch exit weight = some planted) (unlabelled : exit ∉ labels)
    (leaves : graph.lookup exit = some []) :
    Keeps graph labels [planted, .block exit] [branch, .block exit] := by
  unfold plantConjunctionExit at done
  split at done
  · next head invert arm shared =>
    obtain ⟨n, nested, done⟩ := Option.bind_eq_some_iff.mp done
    obtain ⟨innerElse, otherwise, done⟩ := Option.bind_eq_some_iff.mp done
    obtain ⟨⟨light, onThen⟩, side, done⟩ := Option.bind_eq_some_iff.mp done
    obtain ⟨w, -, done⟩ := Option.bind_eq_some_iff.mp done
    dsimp only at done
    split at done
    · cases done
    cases done
    rw [nestedTest_eq nested, otherwise, lightArm_eq side]
    refine ⟨?_, fun l labelled => ?_, fun b there => ?_⟩
    · simp only [runsAll, RegionTrees.runs, runsElse, runs_inFront, runs_innerIf, seq_skip, branch_seq,
        seq_assoc, seq_self (exit_never leaves)]
    · have other : exit ≠ l := fun same => unlabelled (same ▸ labelled)
      cases onThen <;> simp [writtenAll, RegionTrees.written, writtenElse, written_inFront, innerIf, other]
    · cases onThen <;>
        simpa [gotosAll, RegionTrees.gotos, gotosElse, gotos_inFront, innerIf] using there
  · cases done

/-- With the exit written into one arm, what the other arm was can follow the branch. -/
theorem guard_keeps (head : ℕ) (invert : Bool) (guard rest : Region) {exit : ℕ}
    (unlabelled : exit ∉ labels) (leaves : graph.lookup exit = some []) :
    Keeps graph labels
      ((.ifElse head invert (.seq [guard, .block exit]) none :: parts rest) ++ [.block exit])
      [.ifElse head invert guard (some rest), .block exit] := by
  refine ⟨?_, fun l labelled => ?_, fun b there => ?_⟩
  · simp only [List.cons_append, runsAll, RegionTrees.runs, runsElse, runsAll_append, runsAll_parts,
      seq_skip]
    rw [drop_else _ _ _ (neverFalls_seq (exit_never leaves)), branch_seq]
  · have other : exit ≠ l := fun same => unlabelled (same ▸ labelled)
    simp [writtenAll, RegionTrees.written, writtenElse, writtenAll_append, writtenAll_parts, other]
  · simpa [gotosAll, RegionTrees.gotos, gotosElse, gotosAll_append, gotosAll_parts] using there

theorem guard_keeps_swapped (head : ℕ) (invert : Bool) (guard rest : Region) (exit : ℕ) :
    Keeps graph labels [.ifElse head (!invert) guard (some rest), .block exit]
      [.ifElse head invert rest (some guard), .block exit] := by
  refine ⟨?_, fun l labelled => ?_, fun b there => ?_⟩
  · simp only [runsAll, RegionTrees.runs, runsElse, branch_not]
  · simp only [writtenAll, RegionTrees.written, writtenElse, List.count_append]
    omega
  · simp only [gotosAll, RegionTrees.gotos, gotosElse, List.append_nil, List.mem_append] at there ⊢
    exact there.symm

theorem ends_keeps {ps : List Region} {exit : ℕ} (ends : endsWithBlockLast exit ps = true)
    (unlabelled : exit ∉ labels) (leaves : graph.lookup exit = some []) :
    Keeps graph labels ps (ps ++ [.block exit]) := by
  refine ⟨?_, fun l labelled => ?_, fun b there => ?_⟩
  · rw [runsAll_append, seq_of_neverFalls
      (endsWithBlockLast_never (by simp [machine, leaves]) ps ends)]
    simp only [runsAll, RegionTrees.runs, seq_skip]
    exact closed_block unlabelled
  · have other : exit ≠ l := fun same => unlabelled (same ▸ labelled)
    simp [writtenAll_append, writtenAll, RegionTrees.written, other]
  · rw [gotosAll_append]
    exact List.mem_append_left _ there

/-- The exit block can be written into the light arm when the other arm falls into it. -/
theorem liftOne_keeps {branch tail : Region} {out : List Region}
    (done : liftOne branch tail graph labels weight = some out) :
    Keeps graph labels out [branch, tail] := by
  unfold liftOne at done
  split at done
  · next head invert arm otherwise exit =>
    split at done
    · cases done
    next refused =>
    push Not at refused
    obtain ⟨unlabelled, leaves, -⟩ := refused
    split at done
    · next planted plants =>
      cases done
      exact plantConjunctionExit_keeps plants unlabelled leaves
    · obtain ⟨thenIsGuard, -, done⟩ := Option.bind_eq_some_iff.mp done
      have either (invert : Bool) (guard rest : Region) :
          let lifted := .ifElse head invert (.seq [guard, .block exit]) none :: parts rest
          Keeps graph labels
            (if endsWithBlockLast exit lifted then lifted else lifted ++ [.block exit])
            [.ifElse head invert guard (some rest), .block exit] := by
        intro lifted
        split
        · next ends =>
          exact (ends_keeps ends unlabelled leaves).trans
            (guard_keeps head invert guard rest unlabelled leaves)
        · exact guard_keeps head invert guard rest unlabelled leaves
      cases thenIsGuard with
      | true =>
        cases done
        exact either invert arm otherwise
      | false =>
        cases done
        exact (either (!invert) otherwise arm).trans (guard_keeps_swapped head invert otherwise arm exit)
  · cases done

theorem scan_keeps : Keeps graph labels (scan graph labels weight ps).1 ps := by
  induction ps with
  | nil => exact .refl _
  | cons p ps ih =>
    match ps with
    | [] => exact .refl _
    | [q] =>
      simp only [scan]
      split
      · next rewritten done => exact liftOne_keeps done
      · exact .refl _
    | _ :: _ :: _ => exact .cons (.refl _) ih

theorem liftSeq_keeps (rounds : ℕ) (ps : List Region) :
    Keeps graph labels (liftSeq graph labels weight rounds ps) ps := by
  induction rounds generalizing ps with
  | zero => exact .refl _
  | succ rounds ih =>
    simp only [liftSeq]
    split
    · exact (ih _).trans (scan_keeps ps)
    · exact scan_keeps ps

/-! ### Whole trees -/

theorem runsElse_eq (o : Option Region) : runsElse m o = runsAll m o.toList := by
  cases o <;> simp [runsElse, runsAll]

theorem writtenElse_eq (o : Option Region) : writtenElse o = writtenAll o.toList := by
  cases o <;> simp [writtenElse, writtenAll]

theorem gotosElse_eq (o : Option Region) : gotosElse o = gotosAll o.toList := by
  cases o <;> simp [gotosElse, gotosAll]

structure KeepsCases (graph : Graph) (labels : List ℕ) (cs ds : List (List ℕ × Region)) : Prop where
  runs : ∀ head default, runsCases { machine graph with labels := (· ∈ labels) } head default cs
    = runsCases { machine graph with labels := (· ∈ labels) } head default ds
  written : ∀ l ∈ labels, (writtenCases cs).count l = (writtenCases ds).count l
  gotos : ∀ b ∈ gotosCases cs, b ∈ gotosCases ds

theorem Keeps.seq {ps qs : List Region} (inside : Keeps graph labels ps qs) :
    Keeps graph labels [.seq ps] [.seq qs] := by
  refine ⟨?_, fun l labelled => ?_, fun b there => ?_⟩
  · simp only [runsAll, RegionTrees.runs, inside.runs]
  · simpa [writtenAll, RegionTrees.written] using inside.written l labelled
  · simp only [gotosAll, RegionTrees.gotos, List.append_nil] at there ⊢
    exact inside.gotos b there

theorem Keeps.ifElse (head : ℕ) (invert : Bool) {p q : Region} {o o' : Option Region}
    (arm : Keeps graph labels [p] [q]) (otherwise : Keeps graph labels o.toList o'.toList) :
    Keeps graph labels [.ifElse head invert p o] [.ifElse head invert q o'] := by
  obtain ⟨armRuns, armWritten, armGotos⟩ := arm
  simp only [runsAll, writtenAll, gotosAll, seq_skip, List.append_nil] at armRuns armWritten armGotos
  refine ⟨?_, fun l labelled => ?_, fun b there => ?_⟩
  · simp only [runsAll, RegionTrees.runs, runsElse_eq, armRuns, otherwise.runs]
  · simp only [writtenAll, RegionTrees.written, writtenElse_eq, List.append_nil, List.count_append,
      armWritten l labelled, otherwise.written l labelled]
  · simp only [gotosAll, RegionTrees.gotos, gotosElse_eq, List.append_nil, List.mem_append] at there ⊢
    exact there.imp (armGotos b ·) (otherwise.gotos b ·)

theorem Keeps.whileLoop (head : ℕ) (invert : Bool) {p q : Region}
    (body : Keeps graph labels [p] [q]) :
    Keeps graph labels [.whileLoop head invert p] [.whileLoop head invert q] := by
  obtain ⟨bodyRuns, bodyWritten, bodyGotos⟩ := body
  simp only [runsAll, writtenAll, gotosAll, seq_skip, List.append_nil] at bodyRuns bodyWritten bodyGotos
  refine ⟨?_, fun l labelled => ?_, fun b there => ?_⟩
  · simp only [runsAll, RegionTrees.runs, bodyRuns]
  · simp only [writtenAll, RegionTrees.written, List.append_nil, List.count_cons, bodyWritten l labelled]
  · simp only [gotosAll, RegionTrees.gotos, List.append_nil] at there ⊢
    exact bodyGotos b there

theorem Keeps.infinite (head : ℕ) {p q : Region} (body : Keeps graph labels [p] [q]) :
    Keeps graph labels [.infinite head p] [.infinite head q] := by
  obtain ⟨bodyRuns, bodyWritten, bodyGotos⟩ := body
  simp only [runsAll, writtenAll, gotosAll, seq_skip, List.append_nil] at bodyRuns bodyWritten bodyGotos
  refine ⟨?_, fun l labelled => ?_, fun b there => ?_⟩
  · simp only [runsAll, RegionTrees.runs, bodyRuns]
  · simp only [writtenAll, RegionTrees.written, List.append_nil, List.count_cons, bodyWritten l labelled]
  · simp only [gotosAll, RegionTrees.gotos, List.append_nil] at there ⊢
    exact bodyGotos b there

theorem Keeps.switch (head : ℕ) {cs ds : List (List ℕ × Region)} {o o' : Option Region}
    (cases : KeepsCases graph labels cs ds) (default : Keeps graph labels o.toList o'.toList) :
    Keeps graph labels [.switch head cs o] [.switch head ds o'] := by
  refine ⟨?_, fun l labelled => ?_, fun b there => ?_⟩
  · simp only [runsAll, RegionTrees.runs, runsElse_eq, cases.runs, default.runs]
  · simp only [writtenAll, RegionTrees.written, writtenElse_eq, List.append_nil, List.count_append,
      cases.written l labelled, default.written l labelled]
  · simp only [gotosAll, RegionTrees.gotos, gotosElse_eq, List.append_nil, List.mem_append] at there ⊢
    exact there.imp (cases.gotos b ·) (default.gotos b ·)

theorem KeepsCases.cons (values : List ℕ) {p q : Region} {cs ds : List (List ℕ × Region)}
    (first : Keeps graph labels [p] [q]) (later : KeepsCases graph labels cs ds) :
    KeepsCases graph labels ((values, p) :: cs) ((values, q) :: ds) := by
  obtain ⟨firstRuns, firstWritten, firstGotos⟩ := first
  simp only [runsAll, writtenAll, gotosAll, seq_skip, List.append_nil] at firstRuns firstWritten firstGotos
  refine ⟨fun head default => ?_, fun l labelled => ?_, fun b there => ?_⟩
  · simp only [runsCases, firstRuns, later.runs]
  · simp only [writtenCases, List.count_append, firstWritten l labelled, later.written l labelled]
  · simp only [gotosCases, List.mem_append] at there ⊢
    exact there.imp (firstGotos b ·) (later.gotos b ·)

mutual
theorem liftExitGuardsRec_keeps :
    ∀ r : Region, Keeps graph labels [liftExitGuardsRec graph labels weight r] [r]
  | .seq ps => ((liftSeq_keeps 8 _).trans (liftAll_keeps ps)).seq
  | .ifElse head invert arm otherwise =>
    (liftExitGuardsRec_keeps arm).ifElse head invert (liftElse_keeps otherwise)
  | .whileLoop head invert body => (liftExitGuardsRec_keeps body).whileLoop head invert
  | .infinite head body => (liftExitGuardsRec_keeps body).infinite head
  | .switch head cases default => .switch head (liftCases_keeps cases) (liftElse_keeps default)
  | .block _ | .goto _ | .brk | .cont | .empty => .refl _

theorem liftAll_keeps : ∀ ps, Keeps graph labels (liftAll graph labels weight ps) ps
  | [] => .refl _
  | p :: ps => (liftExitGuardsRec_keeps p).cons (liftAll_keeps ps)

theorem liftElse_keeps :
    ∀ o, Keeps graph labels (liftElse graph labels weight o).toList o.toList
  | none => .refl _
  | some p => liftExitGuardsRec_keeps p

theorem liftCases_keeps : ∀ cs, KeepsCases graph labels (liftCases graph labels weight cs) cs
  | [] => ⟨fun _ _ => rfl, fun _ _ => rfl, fun _ there => there⟩
  | (values, p) :: cs => .cons values (liftExitGuardsRec_keeps p) (liftCases_keeps cs)
end

theorem filter_keeps : Keeps graph labels (ps.filter (· ≠ .empty)) ps := by
  induction ps with
  | nil => exact .refl _
  | cons p ps ih =>
    by_cases nothing : p = .empty
    · subst nothing
      obtain ⟨runs, written, gotos⟩ := ih
      exact ⟨by simpa [runsAll, RegionTrees.runs] using runs,
        by simpa [writtenAll, RegionTrees.written] using written,
        by simpa [gotosAll, RegionTrees.gotos] using gotos⟩
    · rw [List.filter_cons_of_pos (by simpa using nothing)]
      exact .cons (.refl _) ih

theorem tidySeq_keeps : Keeps graph labels [tidySeq ps] [.seq ps] := by
  refine Keeps.trans ?_ (filter_keeps ps).seq
  unfold tidySeq
  split
  · next kept =>
    rw [kept]
    exact ⟨by simp [runsAll, RegionTrees.runs], by simp [writtenAll, RegionTrees.written],
      by simp [gotosAll, RegionTrees.gotos]⟩
  · next p kept =>
    rw [kept]
    exact ⟨by simp [runsAll, RegionTrees.runs], by simp [writtenAll, RegionTrees.written],
      by simp [gotosAll, RegionTrees.gotos]⟩
  · exact .refl _

theorem tidyIf_keeps (head : ℕ) (invert : Bool) (arm : Region) (otherwise : Option Region) :
    Keeps graph labels [tidyIf head invert arm otherwise] [.ifElse head invert arm otherwise] := by
  have dropped (arm : Region) :
      Keeps graph labels [.ifElse head invert arm none] [.ifElse head invert arm (some .empty)] :=
    ⟨by simp [runsAll, RegionTrees.runs, runsElse],
      by simp [writtenAll, RegionTrees.written, writtenElse],
      by simp [gotosAll, RegionTrees.gotos, gotosElse]⟩
  unfold tidyIf
  split
  · next nothing =>
    subst nothing
    split
    · next o =>
      split
      · next same =>
        subst same
        exact dropped .empty
      · exact ⟨by simp [runsAll, RegionTrees.runs, runsElse, branch_not],
          by simp [writtenAll, RegionTrees.written, writtenElse],
          by simp [gotosAll, RegionTrees.gotos, gotosElse]⟩
    · exact .refl _
  · split
    · next same =>
      subst same
      exact dropped arm
    · exact .refl _

mutual
theorem tidy_keeps : ∀ r : Region, Keeps graph labels [tidy r] [r]
  | .seq ps => (tidySeq_keeps _).trans (tidyAll_keeps ps).seq
  | .ifElse head invert arm otherwise =>
    (tidyIf_keeps head invert _ _).trans ((tidy_keeps arm).ifElse head invert (tidyElse_keeps otherwise))
  | .whileLoop head invert body => (tidy_keeps body).whileLoop head invert
  | .infinite head body => (tidy_keeps body).infinite head
  | .switch head cases default => .switch head (tidyCases_keeps cases) (tidyElse_keeps default)
  | .block _ | .goto _ | .brk | .cont | .empty => .refl _

theorem tidyAll_keeps : ∀ ps, Keeps graph labels (tidyAll ps) ps
  | [] => .refl _
  | p :: ps => (tidy_keeps p).cons (tidyAll_keeps ps)

theorem tidyElse_keeps : ∀ o, Keeps graph labels (tidyElse o).toList o.toList
  | none => .refl _
  | some p => tidy_keeps p

theorem tidyCases_keeps : ∀ cs, KeepsCases graph labels (tidyCases cs) cs
  | [] => ⟨fun _ _ => rfl, fun _ _ => rfl, fun _ there => there⟩
  | (values, p) :: cs => .cons values (tidy_keeps p) (tidyCases_keeps cs)
end

end

/-- Lifting the guards keeps every run of a tree whose jumps all go to labels, for every sequence
of decisions, and writes no labelled block once more. -/
theorem liftExitGuards_sound (root : Region) (graph : Graph) (labels : List ℕ) (weight : Weights)
    (targets : ∀ b ∈ gotos root, b ∈ labels) :
    (∀ t x, Executes (runs (machine graph) (liftExitGuards root graph labels weight)) none t x
      ↔ Executes (runs (machine graph) root) none t x) ∧
    ∀ l ∈ labels, (written (liftExitGuards root graph labels weight)).count l
      = (written root).count l := by
  have keeps : Keeps graph labels [liftExitGuards root graph labels weight] [root] :=
    (tidy_keeps _).trans (liftExitGuardsRec_keeps root)
  obtain ⟨same, counts, jumps⟩ := keeps
  simp only [runsAll, writtenAll, gotosAll, seq_skip, List.append_nil] at same counts jumps
  refine ⟨fun t x => ?_, counts⟩
  have all (b : ℕ) : (machine graph).labels b := trivial
  calc Executes (runs (machine graph) (liftExitGuards root graph labels weight)) none t x
      ↔ Executes (runs { machine graph with labels := (· ∈ labels) }
          (liftExitGuards root graph labels weight)) none t x :=
        (executes_labels all _ (fun b there => targets b (jumps b there)) t x).symm
    _ ↔ Executes (runs { machine graph with labels := (· ∈ labels) } root) none t x := by rw [same]
    _ ↔ Executes (runs (machine graph) root) none t x := executes_labels all root targets t x

/-- `if (a && b) { 3 } else { 4 }` in front of the epilogue at 5: both arms return. -/
theorem compound_guard_returns :
    let graph : Graph := [(1, [2, 4]), (2, [3, 4]), (3, [5]), (4, [5]), (5, [])]
    let weight : Weights := [(3, 1), (4, 6), (5, 1)]
    let root : Region := .seq [.ifElse 1 false
      (.seq [.block 2, .ifElse 2 false (.block 3) (some (.block 4))]) (some (.block 4)), .block 5]
    let lifted : Region := .seq [.ifElse 1 true (.seq [.block 4, .block 5]) none, .block 2,
      .ifElse 2 false (.seq [.seq [.block 3, .block 5], .block 5]) none, .block 4, .block 5]
    liftExitGuards root graph [] weight = lifted ∧
      ∀ t x, Executes (runs (machine graph) lifted) none t x
        ↔ Executes (runs (machine graph) root) none t x := by
  intro graph weight root lifted
  have same : liftExitGuards root graph [] weight = lifted := by decide
  have targets : ∀ b ∈ gotos root, b ∈ ([] : List ℕ) := by simp [root, gotos, gotosAll, gotosElse]
  exact ⟨same, same ▸ (liftExitGuards_sound root graph [] weight targets).1⟩

end E5r.ExitGuards
