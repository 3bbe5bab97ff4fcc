import E5r.ArchModel
import E5r.CacheCodec

/-!
Cross references that instructions make. The tracker keeps the constants it knows to be
in registers over a straight run; an address that an instruction forms from one of them
is a reference.
-/
namespace E5r.RefTracker
open ArchModel MemoryModel
open CfgModel (Flow)
open CacheCodec (Xref XrefKind)

/-- Constants known to be in general registers. -/
def Regs := ℕ → Option (BitVec 64)

namespace Regs

def empty : Regs := fun _ => none
def get (regs : Regs) (r : Reg) : Option (BitVec 64) := if r.class = .gpr then regs r.num else none
def set (regs : Regs) (r : Reg) (v : BitVec 64) : Regs :=
  fun n => if r.class = .gpr ∧ n = r.num then some v else regs n
def forget (regs : Regs) (r : Reg) : Regs :=
  fun n => if r.class = .gpr ∧ n = r.num then none else regs n

end Regs

def isMapped (mem : MemoryMap) (a : ℕ) : Bool := (mem.segmentAt a).isSome

/-- The absolute address that a pc-relative operand names, given where the instruction
    ends. -/
def pcTarget (m : Mem) (insnEnd : ℕ) : Option ℕ :=
  if m.base.map Reg.class = some .pc then some (((insnEnd : ℤ) + m.disp) % 2 ^ 64).toNat else none

/-- References by pc-relative operands. The first operand is a destination. -/
def pcReferences (i : Insn) (mem : MemoryMap) : List Xref :=
  i.operands.zipIdx.filterMap fun p =>
    match p.1 with
    | .mem m =>
      (pcTarget m i.next).bind fun t =>
        if isMapped mem t then some ⟨i.addr, t, if m.size = 0 then .data else if p.2 = 0 then .write else .read⟩ else none
    | _ => none

def trackAdr (i : Insn) (regs : Regs) (mem : MemoryMap) : Regs × List Xref :=
  match i.operands with
  | .reg d :: .addr a :: _ =>
    (regs.set d (.ofNat 64 a), if i.mnemonic = "adr" ∧ isMapped mem a then [⟨i.addr, a, .data⟩] else [])
  | _ => (regs, [])

def trackAdd (i : Insn) (regs : Regs) (mem : MemoryMap) : Regs × List Xref :=
  match i.operands with
  | .reg d :: .reg n :: .imm v :: _ =>
    match regs.get n with
    | some base =>
      let val := base + .ofInt 64 v
      (regs.set d val, if isMapped mem val.toNat then [⟨i.addr, val.toNat, .data⟩] else [])
    | none => (regs.forget d, [])
  | .reg d :: _ => (regs.forget d, [])
  | _ => (regs, [])

def trackMov (i : Insn) (regs : Regs) : Regs :=
  match i.operands with
  | .reg d :: .imm v :: _ => regs.set d (.ofInt 64 v)
  | .reg d :: .uimm v :: _ => regs.set d (.ofNat 64 v)
  | .reg d :: .reg n :: _ =>
    match regs.get n with
    | some v => regs.set d v
    | none => regs.forget d
  | _ => regs

def stores : List String := ["str", "strb", "strh"]
def accesses : List String := ["ldr", "ldrb", "ldrh", "ldrsb", "ldrsh", "ldrsw"] ++ stores

/-- The address that the last operand to name one names. -/
def referenced (regs : Regs) (mem : MemoryMap) (ops : List Operand) : Option ℕ :=
  ops.foldl (fun found op =>
    match op with
    | .addr a => some a
    | .mem m =>
      if m.index = none then
        match m.base.bind regs.get with
        | some base =>
          let at_ := base + .ofInt 64 m.disp
          if isMapped mem at_.toNat then some at_.toNat else found
        | none => found
      else found
    | _ => found) none

def trackAccess (i : Insn) (regs : Regs) (mem : MemoryMap) : Regs × List Xref :=
  let write := decide (i.mnemonic ∈ stores)
  let refs := (referenced regs mem i.operands).toList.map fun to_ => ⟨i.addr, to_, if write then .write else .read⟩
  match i.operands with
  | .reg d :: _ => (if write then regs else regs.forget d, refs)
  | _ => (regs, refs)

/-- Anything else invalidates its first operand. -/
def trackOther (i : Insn) (regs : Regs) : Regs :=
  match i.operands with
  | .reg d :: _ => regs.forget d
  | _ => regs

/-- Update the constants for one instruction, and give the references it completes. -/
def track (i : Insn) (regs : Regs) (mem : MemoryMap) : Regs × List Xref :=
  let r :=
    if i.mnemonic ∈ ["adrp", "adr"] then trackAdr i regs mem
    else if i.mnemonic = "add" then trackAdd i regs mem
    else if i.mnemonic = "mov" then (trackMov i regs, [])
    else if i.mnemonic ∈ accesses then trackAccess i regs mem
    else (trackOther i regs, [])
  (r.1, pcReferences i mem ++ r.2)

/-- A walk that is fed one instruction at a time and holds back the last, whose successor
    is not known yet. -/
structure Collector where
  out : List Xref
  regs : Regs
  fresh : Bool
  pending : Option Insn

namespace Collector

def new : Collector := ⟨[], .empty, true, none⟩

def process (mem : MemoryMap) (c : Collector) (i : Insn) (fallsThrough : Bool) : Collector :=
  let regs := if c.fresh then c.regs else .empty
  let flows : List Xref :=
    match i.flow with
    | .call t => [⟨i.addr, t, .call⟩]
    | .branch t => [⟨i.addr, t, .branch⟩]
    | .condBranch t => [⟨i.addr, t, .branch⟩]
    | _ => []
  let r := track i regs mem
  { c with out := c.out ++ flows ++ r.2, regs := r.1, fresh := fallsThrough }

def push (mem : MemoryMap) (c : Collector) (i : Insn) : Collector :=
  let c :=
    match c.pending with
    | some prev => c.process mem prev (decide (prev.flow = Flow.next ∧ i.addr = prev.next))
    | none => c
  { c with pending := some i }

def finish (mem : MemoryMap) (c : Collector) : List Xref :=
  match c.pending with
  | some prev => (c.process mem prev false).out
  | none => c.out

end Collector

/-- The collector that was fed some instructions. -/
def pushAll (mem : MemoryMap) (insns : List Insn) : Collector := insns.foldl (Collector.push mem) .new

def collect (mem : MemoryMap) (insns : List Insn) : List Xref := (pushAll mem insns).finish mem

structure Registers where
  x : ℕ → BitVec 64
  sp : BitVec 64

def Registers.value (s : Registers) (r : Reg) : Option (BitVec 64) :=
  match r.class with
  | .gpr => some (s.x r.num)
  | .sp => some s.sp
  | .zr => some 0
  | _ => none

/-- A result in a register of 32 bits has no others. -/
def cut (w : Width) (v : BitVec 64) : BitVec 64 := if w = .w32 then (v.setWidth 32).setWidth 64 else v

/-- The result of an instruction whose arithmetic is modelled, and where it goes, over
    what registers are known to hold. An immediate of an addition can be shifted. -/
def arithmetic (i : Insn) (known : Reg → Option (BitVec 64)) : Option (Reg × BitVec 64) :=
  if i.mnemonic ∈ ["adrp", "adr"] then
    match i.operands with
    | .reg d :: .addr a :: _ => some (d, .ofNat 64 a)
    | _ => none
  else if i.mnemonic = "add" then
    match i.operands with
    | [.reg d, .reg n, .imm v] => (known n).map fun base => (d, cut d.width (base + .ofInt 64 v))
    | [.reg d, .reg n, .imm v, .shiftOp .lsl k] => (known n).map fun base => (d, cut d.width (base + BitVec.ofInt 64 v <<< k))
    | _ => none
  else if i.mnemonic = "mov" then
    match i.operands with
    | [.reg d, .imm v] => some (d, cut d.width (.ofInt 64 v))
    | [.reg d, .uimm v] => some (d, cut d.width (.ofNat 64 v))
    | [.reg d, .reg n] => (known n).map fun v => (d, cut d.width v)
    | _ => none
  else none

def pairLoads : List String := ["ldp", "ldnp", "ldpsw", "ldxp", "ldaxp"]

/-- Whether an atomic operation gives the old value to its second operand. -/
def exchanges (mnemonic : String) : Bool :=
  (["swp", "ldadd", "ldclr", "ldeor", "ldset", "ldsmax", "ldsmin", "ldumax", "ldumin"].flatMap fun op =>
    ["", "l", "a", "al"].flatMap fun order => ["", "b", "h"].map fun size => op ++ order ++ size).contains mnemonic

/-- Registers that instructions write without naming them. -/
def implicit (mnemonic : String) : List ℕ :=
  if mnemonic ∈ ["xpaclri", "paciaz", "paciasp", "pacibz", "pacibsp", "autiaz", "autiasp", "autibz", "autibsp",
      "bl", "blr", "blraa", "blraaz"] then [30]
  else if mnemonic ∈ ["pacia1716", "pacib1716", "autia1716", "autib1716"] then [17]
  else if mnemonic = "hint" then [16]
  else []

/-- Operands that are registers an instruction may write. That it may write one it only
    reads does no harm: whatever holds for every outcome holds for the real one. -/
def destinations (i : Insn) : List Operand :=
  if i.mnemonic ∈ stores then []
  else if i.mnemonic ∈ pairLoads ∨ exchanges i.mnemonic then i.operands.take 2
  else if i.mnemonic = "sysl" then i.operands
  else i.operands.take 1

def updatedBase : Operand → Option Reg
  | .mem m => if m.mode = .offset then none else m.base
  | _ => none

/-- The general registers an instruction may write. -/
def written (i : Insn) : List ℕ :=
  ((destinations i).filterMap (fun op => match op with
    | .reg r => if r.class = .gpr then some r.num else none
    | _ => none)) ++
  (i.operands.filterMap fun op => (updatedBase op).bind fun r => if r.class = .gpr then some r.num else none) ++
  implicit i.mnemonic

/-- One instruction takes registers to registers. -/
structure Executes (i : Insn) (s s' : Registers) : Prop where
  frame : ∀ r, r ∉ written i → s'.x r = s.x r
  result : ∀ d v, arithmetic i s.value = some (d, v) → d.class = .gpr → s'.x d.num = v

def address (s : Registers) (m : Mem) : Option (BitVec 64) :=
  if m.index = none then
    (m.base.bind s.value).map fun base => if m.mode = .postIndex then base else base + .ofInt 64 m.disp
  else none

/-- An address that an instruction names or forms. -/
inductive Names (i : Insn) (s : Registers) : ℕ → Prop where
  | relative {m : Mem} {t : ℕ} : Operand.mem m ∈ i.operands → pcTarget m i.next = some t → Names i s t
  | literal {a : ℕ} : Operand.addr a ∈ i.operands → Names i s a
  | formed {d : Reg} {v : BitVec 64} : arithmetic i s.value = some (d, v) → Names i s v.toNat
  | accessed {m : Mem} {v : BitVec 64} : Operand.mem m ∈ i.operands → address s m = some v → Names i s v.toNat

/-- Each instruction falls through to the next. -/
def Straight (insns : List Insn) : Prop := insns.IsChain fun prev i => prev.flow = Flow.next ∧ i.addr = prev.next

/-- The registers before each instruction of a run, and behind the last. -/
def Run (insns : List Insn) (states : ℕ → Registers) : Prop :=
  ∀ k i, insns[k]? = some i → Executes i (states k) (states (k + 1))

/-- Constants that registers really hold. -/
def Valid (regs : Regs) (s : Registers) : Prop := ∀ r v, regs r = some v → s.x r = v

/-- Every reference but those of branches and calls names an address that its
    instruction names or forms where it is executed. -/
def Sound (mem : MemoryMap) (insns : List Insn) (states : ℕ → Registers) : Prop :=
  (∀ x ∈ collect mem insns, x.kind = .call ∨ x.kind = .branch ∨
    ∃ k i, insns[k]? = some i ∧ x.source = i.addr ∧ Names i (states k) x.target) ∧
  ∀ before i after, insns = before ++ i :: after →
    Valid (pushAll mem (before ++ [i])).regs (states before.length)

end E5r.RefTracker
