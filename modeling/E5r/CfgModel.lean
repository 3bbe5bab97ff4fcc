import Mathlib.Data.Finset.Max
import E5r.SortedRecords
import E5r.Tilings

/-!
The walk that recovers the control flow graph of one function: decode from the
entry, follow every direct successor, stop at a return, a trap or an indirect
branch that no jump table resolves. The walk keeps the blocks by their start in
the order of the addresses and cuts them once it is over, where the start of one
lies inside another. The instruction decoder and the reader of jump tables are
parameters.
-/
namespace E5r.CfgModel
open SortedRecords Tilings

/-- What an instruction does to control flow. -/
inductive Flow where
  | next
  | branch (target : ℕ)
  | condBranch (target : ℕ)
  | indirectBranch
  | call (target : ℕ)
  | indirectCall
  | ret
  | trap
  | syscall
  deriving DecidableEq

/-- A decoded instruction. The mnemonic and the operands are a function of the
    address, as the flow is, so they are left to whoever reads them. -/
structure Insn where
  addr : ℕ
  len : ℕ
  flow : Flow
  deriving DecidableEq

/-- One past the last byte. -/
def Insn.stop (i : Insn) : ℕ := (i.addr + i.len) % 2 ^ 64

def Insn.next (i : Insn) : ℕ := i.stop

/-- A decoder reads the length and the flow of one instruction off some bytes and
    their address. -/
abbrev Decoder := List UInt8 → ℕ → Option ({len : ℕ // 1 ≤ len ∧ len ≤ 15} × Flow)

/-- One mapped range of the address space. The bytes past the file's read as zero. -/
structure Segment where
  start : ℕ
  stop : ℕ
  exec : Bool
  data : List UInt8
  ordered : start ≤ stop
  inSpace : stop < 2 ^ 64
  backed : data.length ≤ stop - start

def Segment.contains (s : Segment) (addr : ℕ) : Bool := decide (s.start ≤ addr ∧ addr < s.stop)

/-- All file-backed bytes from `addr` to the end of the segment. -/
def Segment.sliceToEnd (s : Segment) (addr : ℕ) : Option (List UInt8) :=
  if s.start ≤ addr ∧ addr - s.start < s.data.length then some (s.data.drop (addr - s.start)) else none

/-- Every mapped range in one program, sorted by start address. -/
structure MemoryMap where
  segments : List Segment
  sorted : Sorted Segment.start segments

/-- Scan back from the last segment that starts at or before `addr`. -/
def MemoryMap.segmentAt (m : MemoryMap) (addr : ℕ) : Option Segment :=
  (m.segments.take (partitionPoint (fun s => decide (s.start ≤ addr)) m.segments)).reverse.find?
    (fun s => s.contains addr)

def MemoryMap.isExecutable (m : MemoryMap) (addr : ℕ) : Bool := (m.segmentAt addr).any Segment.exec

/-- Up to `max` bytes, however many are actually there. -/
def MemoryMap.decodeWindow (m : MemoryMap) (addr max : ℕ) : Option (List UInt8) :=
  (m.segmentAt addr).bind (fun s => (s.sliceToEnd addr).map (List.take max))

/-- A jump table: the branch it was recovered for and where it leads. -/
structure JumpTable where
  at_ : ℕ
  targets : List ℕ
  deriving DecidableEq

structure Caps where
  functionInsns : ℕ
  functionBlocks : ℕ

/-- What one walk is given. `recover` reads a jump table off the instructions
    before an indirect branch, in the section of the entry. -/
structure Setting where
  memory : MemoryMap
  decoder : Decoder
  maxInsnLen : ℕ
  entry : ℕ
  stopAt : Finset ℕ
  noreturn : Finset ℕ
  caps : Caps
  isData : ℕ → Bool
  recover : List Insn → Option JumpTable

/-- Why a block ended. -/
inductive Terminator where
  | flow
  | ret
  | tailCall
  | noReturnCall
  | trap
  | unresolved
  deriving DecidableEq

/-- Why a walk stopped before it ran out of work. -/
inductive Halt where
  | complete
  | instructionCap
  | blockCap
  | undecodable
  deriving DecidableEq

/-- One straight-line run of instructions. -/
structure Block where
  start : ℕ
  stop : ℕ
  successors : List ℕ
  insns : ℕ
  unresolved : Bool
  terminator : Terminator
  deriving DecidableEq

/-- The control flow graph of one function. -/
structure Cfg where
  entry : ℕ
  blocks : List Block
  calls : Finset ℕ
  hasIndirect : Bool
  tables : List JumpTable
  halt : Halt

/-- Walked to the end with nothing unresolved. -/
def Cfg.isComplete (cfg : Cfg) : Bool := decide (cfg.halt = .complete) && !cfg.hasIndirect

/-- The instruction the decoder reads at an address of the map. -/
def Setting.insnAt (s : Setting) (addr : ℕ) : Option Insn :=
  (s.memory.decodeWindow addr s.maxInsnLen).bind
    (fun window => (s.decoder window addr).map (fun shape => ⟨addr, shape.1, shape.2⟩))

/-- What the walk keeps for one start: where its run ended, the instructions of the
    run, and why it ended. The count of the run is the number of these. -/
structure Run where
  stop : ℕ
  successors : List ℕ
  body : List Insn
  unresolved : Bool
  terminator : Terminator

/-- A run, and what it did to the state of the walk. -/
structure Outcome where
  run : Run
  budget : ℕ
  calls : Finset ℕ
  halt : Option Halt
  table : Option JumpTable
  indirect : Bool

def Outcome.ended (stop : ℕ) (body : List Insn) (budget : ℕ) (calls : Finset ℕ) (terminator : Terminator)
    (successors : List ℕ) : Outcome :=
  { run := { stop, successors, body, unresolved := false, terminator }, budget, calls, halt := none,
    table := none, indirect := false }

/-- A run that ended because nothing further could be decoded. -/
def Outcome.gaveUp (stop : ℕ) (body : List Insn) (budget : ℕ) (calls : Finset ℕ) (halt : Halt) : Outcome :=
  { run := { stop, successors := [], body, unresolved := true, terminator := .unresolved }, budget, calls,
    halt := some halt, table := none, indirect := false }

/-- A run that ended at an indirect branch, with the table recovered for it. -/
def Outcome.indirectly (stop : ℕ) (body : List Insn) (budget : ℕ) (calls : Finset ℕ) :
    Option JumpTable → Outcome
  | some t =>
    { run := { stop, successors := t.targets, body, unresolved := false, terminator := .flow }, budget, calls,
      halt := none, table := some t, indirect := false }
  | none =>
    { run := { stop, successors := [], body, unresolved := true, terminator := .unresolved }, budget, calls,
      halt := none, table := none, indirect := true }

/-- A branch to another function's entry is a tail call. -/
def Setting.leaves (s : Setting) (target : ℕ) : Bool := decide (target ∈ s.stopAt ∧ target ≠ s.entry)

/-- What the flow of the instruction decoded last makes of a run: it ends, or it
    goes on behind the instruction with these calls. -/
def follow (s : Setting) (context : List Insn → List Insn) (insn : Insn) (body : List Insn) (budget : ℕ)
    (calls : Finset ℕ) : Outcome ⊕ Finset ℕ :=
  let next := insn.next
  match insn.flow with
  | .next | .indirectCall | .syscall => .inr calls
  | .call t =>
    if t ∈ s.noreturn then .inl (.ended next body budget (insert t calls) .noReturnCall [])
    else .inr (insert t calls)
  | .ret => .inl (.ended next body budget calls .ret [])
  | .trap => .inl (.ended next body budget calls .trap [])
  | .indirectBranch => .inl (.indirectly next body budget calls (s.recover (context body)))
  | .branch t =>
    if s.leaves t then
      .inl (.ended next body budget (insert t calls) (if t ∈ s.noreturn then .noReturnCall else .tailCall) [])
    else .inl (.ended next body budget calls .flow [t])
  | .condBranch t =>
    if s.leaves t then .inl (.ended next body budget (insert t calls) .flow [next])
    else .inl (.ended next body budget calls .flow [t, next])

/-- Decode on from `addr`, having decoded `body` since `start`. `context` puts the
    instructions of the blocks that lead here in front of those of the run. -/
def runFrom (s : Setting) (starts : Finset ℕ) (context : List Insn → List Insn) (start : ℕ) :
    ℕ → ℕ → List Insn → Finset ℕ → Outcome
  | 0, addr, body, calls => .gaveUp addr body 0 calls .instructionCap
  | budget + 1, addr, body, calls =>
    if addr ≠ start ∧ addr ∈ starts then .ended addr body (budget + 1) calls .flow [addr]
    else if s.isData addr then .gaveUp addr body (budget + 1) calls .undecodable
    else
      match s.insnAt addr with
      | none => .gaveUp addr body (budget + 1) calls .undecodable
      | some insn =>
        match follow s context insn (body ++ [insn]) budget calls with
        | .inl o => o
        | .inr calls => runFrom s starts context start budget insn.next (body ++ [insn]) calls

/-- The runs of a walk so far, by their starts. -/
abbrev Ends := List (ℕ × Run)

/-- The blocks that lead to one of the `frontier`, after those already in the chain,
    and the new ones among them. -/
def reachBack (ends : Ends) (block : ℕ) (chain frontier : List ℕ) : List ℕ × List ℕ :=
  frontier.foldl (fun found target =>
    ends.foldl (fun (chain, next) (start, run) =>
      if target ∈ run.successors ∧ start ∉ chain ∧ start ≠ block then (chain ++ [start], next ++ [start])
      else (chain, next)) found) (chain, [])

/-- The blocks that lead to `block` over at most so many levels. -/
def chainOf (ends : Ends) (block : ℕ) : ℕ → List ℕ → List ℕ → List ℕ
  | 0, chain, _ => chain
  | levels + 1, chain, frontier =>
    match reachBack ends block chain frontier with
    | (chain, []) => chain
    | (chain, next) => chainOf ends block levels chain next

/-- The instructions of a run preceded by those of the blocks that reach it. -/
def withPredecessors (ends : Ends) (block : ℕ) (body : List Insn) : List Insn :=
  let bodies := (chainOf ends block 3 [] [block]).filterMap (fun a =>
    (ends.find? (fun e => decide (e.1 = a))).map (fun e => e.2.body))
  sortByKey Insn.addr bodies.flatten ++ body

/-- Enter an address in a sorted list of distinct addresses. -/
def enter (a : ℕ) (l : List ℕ) : List ℕ := if a ∈ l then l else put id a l

def sortDedup (l : List ℕ) : List ℕ := l.foldr enter []

/-- The state of a walk. The work list is a stack with its top first. -/
structure Walk where
  work : List ℕ
  seen : Finset ℕ
  starts : Finset ℕ
  calls : Finset ℕ
  ends : Ends
  hasIndirect : Bool
  budget : ℕ
  halt : Halt
  tables : List JumpTable

/-- Walk the run that starts at `start` and enter what it leads to. -/
def visit (s : Setting) (start : ℕ) (w : Walk) : Walk :=
  let starts := insert start w.starts
  let o := runFrom s starts (withPredecessors w.ends start) start w.budget start [] w.calls
  let successors := sortDedup o.run.successors
  { w with
    work := (successors.filter (fun t => decide (t ∉ w.seen) && s.memory.isExecutable t)).reverse ++ w.work
    starts := starts
    calls := o.calls
    ends := put Prod.fst (start, { o.run with successors }) w.ends
    hasIndirect := w.hasIndirect || o.indirect
    budget := o.budget
    halt := o.halt.getD w.halt
    tables := w.tables ++ o.table.toList }

/-- One turn of the loop, with `start` taken off the work list. Past the block cap
    the loop is left, and nothing reads the work list again. -/
def turn (s : Setting) (start : ℕ) (w : Walk) : Walk :=
  if start ∈ w.seen then w
  else
    let w := { w with seen := insert start w.seen }
    if s.caps.functionBlocks ≤ w.ends.length then { w with halt := .blockCap, work := [] }
    else visit s start w

def turns (s : Setting) : ℕ → Walk → Walk
  | 0, w => w
  | fuel + 1, w =>
    match w.work with
    | [] => w
    | start :: rest => turns s fuel (turn s start { w with work := rest })

/-- The flow of one instruction decides where a run ends, not what it may still cost. -/
theorem follow_budget {s : Setting} {context : List Insn → List Insn} {insn : Insn} {body : List Insn}
    {budget : ℕ} {calls : Finset ℕ} {o : Outcome} (ends : follow s context insn body budget calls = .inl o) :
    o.budget = budget := by
  unfold follow at ends
  cases flow : insn.flow with
  | next => simp [flow] at ends
  | indirectCall => simp [flow] at ends
  | syscall => simp [flow] at ends
  | ret => simp only [flow, Sum.inl.injEq] at ends; rw [← ends]; rfl
  | trap => simp only [flow, Sum.inl.injEq] at ends; rw [← ends]; rfl
  | indirectBranch =>
    simp only [flow, Sum.inl.injEq] at ends
    rw [← ends]
    cases s.recover (context body) <;> rfl
  | call t =>
    simp only [flow] at ends
    split at ends
    · rw [← Sum.inl.inj ends]; rfl
    · simp at ends
  | branch t =>
    simp only [flow] at ends
    split at ends
    · rw [← Sum.inl.inj ends]; rfl
    · rw [← Sum.inl.inj ends]; rfl
  | condBranch t =>
    simp only [flow] at ends
    split at ends
    · rw [← Sum.inl.inj ends]; rfl
    · rw [← Sum.inl.inj ends]; rfl

theorem runFrom_budget (s : Setting) (starts : Finset ℕ) (context : List Insn → List Insn) (start : ℕ)
    (budget addr : ℕ) (body : List Insn) (calls : Finset ℕ) :
    (runFrom s starts context start budget addr body calls).budget ≤ budget := by
  fun_induction runFrom s starts context start budget addr body calls with
  | case1 => exact le_refl _
  | case2 => exact le_refl _
  | case3 => exact le_refl _
  | case4 => exact le_refl _
  | case5 budget addr body calls _ _ insn _ o ends => exact (follow_budget ends).le.trans (Nat.le_succ _)
  | case6 budget addr body calls _ _ insn _ more goes ih => exact ih.trans (Nat.le_succ _)

theorem runFrom_spends (s : Setting) (starts : Finset ℕ) (context : List Insn → List Insn) (start : ℕ)
    (budget : ℕ) (calls : Finset ℕ) :
    (runFrom s starts context start budget start [] calls).budget < budget ∨
      (runFrom s starts context start budget start [] calls).run.successors = [] := by
  cases budget with
  | zero => exact .inr rfl
  | succ budget =>
    unfold runFrom
    rw [if_neg (fun joins => joins.1 rfl)]
    split
    · exact .inr rfl
    · split
      · exact .inr rfl
      · split
        next ends => exact .inl (by rw [follow_budget ends]; exact Nat.lt_succ_self _)
        next goes => exact .inl (Nat.lt_succ_of_le (runFrom_budget _ _ _ _ _ _ _ _))

@[simp] theorem sortDedup_nil : sortDedup [] = [] := rfl

theorem turn_decreases (s : Setting) (start : ℕ) (rest : List ℕ) (w : Walk) (work : w.work = start :: rest) :
    Prod.Lex (· < ·) (· < ·)
      ((turn s start { w with work := rest }).budget, (turn s start { w with work := rest }).work.length)
      (w.budget, w.work.length) := by
  have shorter : rest.length < w.work.length := by rw [work]; exact Nat.lt_succ_self _
  unfold turn
  split
  · exact .right _ shorter
  · dsimp only
    split
    · exact .right _ (by rw [work]; exact Nat.zero_lt_succ _)
    · unfold visit
      dsimp only
      rcases runFrom_spends s (insert start w.starts) (withPredecessors w.ends start) start w.budget w.calls with
        less | nowhere
      · exact .left _ _ less
      · rw [nowhere]
        simp only [sortDedup_nil, List.filter_nil, List.reverse_nil, List.nil_append]
        rcases (runFrom_budget s (insert start w.starts) (withPredecessors w.ends start) start w.budget start []
          w.calls).lt_or_eq with less | same
        · exact .left _ _ less
        · rw [same]
          exact .right _ shorter

/-- Turns of the loop until the work list is empty. -/
def drain (s : Setting) (w : Walk) : Walk :=
  match _ : w.work with
  | [] => w
  | start :: rest => drain s (turn s start { w with work := rest })
termination_by (w.budget, w.work.length)
decreasing_by exact turn_decreases s start rest w ‹_›

theorem drain_of_turns (s : Setting) (fuel : ℕ) (w : Walk) (done : (turns s fuel w).work = []) :
    drain s w = turns s fuel w := by
  induction fuel generalizing w with
  | zero =>
    have empty : w.work = [] := done
    rw [drain]
    split
    · rfl
    next start rest more => rw [empty] at more; exact absurd more (List.cons_ne_nil _ _).symm
  | succ fuel ih =>
    rw [drain]
    cases work : w.work with
    | nil => simp only [turns, work]
    | cons start rest =>
      simp only [turns, work] at done ⊢
      exact ih _ done

/-- The least start strictly between two addresses. -/
def cutAt (starts : Finset ℕ) (start stop : ℕ) : Option ℕ :=
  let inside := starts.filter (fun c => start < c ∧ c < stop)
  if found : inside.Nonempty then some (inside.min' found) else none

/-- The instructions decoded one after another below `stop`. Every instruction takes
    room, so no more are read than there are addresses between the two. -/
def insnsBetween (s : Setting) (start stop : ℕ) : List Insn :=
  readFrom s.insnAt Insn.next stop (stop - start) start

/-- How many instructions fit between two addresses, in 32 bits. -/
def countInsns (s : Setting) (start stop : ℕ) : ℕ := (insnsBetween s start stop).length % 2 ^ 32

/-- The block of one run, cut where another run starts inside it. A block that was
    cut has its instructions counted again. -/
def closeBlock (s : Setting) (starts : Finset ℕ) : ℕ × Run → Option Block
  | (start, run) =>
    let cut := if start < run.stop then cutAt starts start run.stop else none
    let block : Block :=
      match cut with
      | some c => { start, stop := c, successors := [c], insns := 0, unresolved := false, terminator := .flow }
      | none =>
        { start, stop := run.stop, successors := run.successors, insns := run.body.length % 2 ^ 32,
          unresolved := run.unresolved, terminator := run.terminator }
    if block.stop ≤ start then none
    else some { block with insns := if block.insns = 0 then countInsns s start block.stop else block.insns }

/-- What a walk starts from. -/
def Setting.begin (s : Setting) : Walk :=
  { work := [s.entry], seen := ∅, starts := ∅, calls := ∅, ends := [], hasIndirect := false,
    budget := s.caps.functionInsns, halt := .complete, tables := [] }

/-- The blocks of a walk that is over, in the order of their starts. -/
def finish (s : Setting) (w : Walk) : Cfg :=
  { entry := s.entry
    blocks := w.ends.filterMap (closeBlock s w.starts)
    calls := w.calls
    hasIndirect := w.hasIndirect
    tables := sortByKey JumpTable.at_ w.tables
    halt := w.halt }

/-- Walk one function from its entry. -/
def build (s : Setting) : Cfg := finish s (drain s s.begin)

end E5r.CfgModel
