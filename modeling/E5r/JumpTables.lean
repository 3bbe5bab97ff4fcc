import E5r.CheckedWords
import E5r.RefTracker

/-!
Jump table recovery. A small value model runs over the instructions that lead to an
indirect branch and says how the branch reads its table (`plan`). The entries are then
read until one is no target (`scanFrom`).
-/
namespace E5r.JumpTables
open CheckedWords ArchModel MemoryModel
open CfgModel (Flow)
open CacheCodec (JumpTable TableKind)
open RefTracker (isMapped pcTarget)

/-- A register, identified across the simulation. -/
abbrev RegKey := ℕ × ℕ

def key (r : Reg) : Option RegKey :=
  match r.class with
  | .gpr => some (0, r.num)
  | .sp => some (1, 31)
  | _ => none

/-- A value loaded from a table: where and how it was read, and the register that the
    table was indexed by. -/
structure Entry where
  table : ℕ
  size : ℕ
  signed : Bool
  index : Option RegKey
  scale : ℕ
  fromElem : Bool
deriving DecidableEq

/-- What a register holds, as far as recovery needs to know. -/
inductive Val where
  | unknown
  -- another register's unknown value, carried by a move
  | alias (k : RegKey)
  | const (v : ℕ)
  -- a pointer to one element of a table
  | elem (table scale : ℕ) (index : RegKey)
  | entry (e : Entry)
  -- an entry added to a base
  | target (e : Entry) (base shift : ℕ)
deriving DecidableEq

/-- Registers, spilled values, and the registers that an index had lived in when a table
    was read by it. -/
structure Regs where
  registers : List (RegKey × Val)
  slots : List ((RegKey × ℤ) × Val)
  indexChains : List (RegKey × List RegKey)
deriving DecidableEq

def insertAt {κ β : Type} [DecidableEq κ] (k : κ) (v : β) (l : List (κ × β)) : List (κ × β) :=
  (k, v) :: l.filter fun p => p.1 ≠ k

namespace Regs

def default : Regs := ⟨[], [], []⟩

def get (regs : Regs) (r : Reg) : Val := ((key r).bind fun k => regs.registers.lookup k).getD .unknown

/-- A write makes the aliases of the register stale, and what was spilled over it. -/
def set (regs : Regs) (r : Reg) (v : Val) : Regs :=
  match key r with
  | none => regs
  | some k =>
    { regs with
      registers := insertAt k v (regs.registers.filter fun p => p.2 ≠ .alias k)
      slots := regs.slots.filter fun p => p.1.1 ≠ k }

def slot (m : Mem) : Option (RegKey × ℤ) := do
  if m.index.isSome ∨ m.mode ≠ .offset then none
  else return (← key (← m.base), m.disp)

def loadSlot (regs : Regs) (m : Mem) : Option Val := (slot m).bind fun k => regs.slots.lookup k

def storeSlot (regs : Regs) (m : Mem) (v : Val) : Regs :=
  match slot m with
  | none => regs
  | some k => { regs with slots := insertAt k v regs.slots }

end Regs

def aliasesFrom (registers : List (RegKey × Val)) : ℕ → List RegKey → RegKey → Option (List RegKey)
  | 0, _, _ => none
  | fuel + 1, chain, at_ =>
    match registers.lookup at_ with
    | some (.alias next) => if next ∈ chain then some chain else aliasesFrom registers fuel (chain ++ [next]) next
    | _ => some chain

/-- Every register the index value has been held in, newest first. -/
def aliases (index : RegKey) (regs : Regs) : Option (List RegKey) :=
  aliasesFrom regs.registers (regs.registers.length + 2) [index] index

def operandValue (op : Option Operand) (regs : Regs) : Val :=
  let v := match op with
    | some (.reg r) => regs.get r
    | some (.shifted r _ _) | some (.extended r _ _) => regs.get r
    | some (.imm v) => .const (v % 2 ^ 64).toNat
    | some (.uimm v) => .const v
    | _ => .unknown
  match v with
  | .alias _ => .unknown
  | v => v

/-- The scaling an `add` applies to its shifted or extended operand. -/
def shiftOf (ops : List Operand) : ℕ :=
  (ops.findSome? fun o => match o with
    | .shifted _ _ n | .extended _ _ n => some n
    | _ => none).getD 0

/-- The register an `add`'s shifted or extended operand names. -/
def scaledIndex (ops : List Operand) : Option RegKey :=
  ops.findSome? fun o => match o with
    | .shifted r _ _ | .extended r _ _ => key r
    | _ => none

/-- Whether an `add`'s extend sign-extends its operand, when it has one. -/
def signedExtend (ops : List Operand) : Option Bool :=
  ops.findSome? fun o => match o with
    | .extended _ e _ => some (decide (e ∈ [Extend.sxtb, .sxth, .sxtw, .sxtx]))
    | _ => none

/-- The value of an `add` whose parts the model knows. -/
def addValue (ar : Arith) (ops : List Operand) (regs : Regs) : Option Val :=
  let a := operandValue (if 3 ≤ ops.length then ops[1]? else ops[0]?) regs
  let b := operandValue (if 3 ≤ ops.length then ops[2]? else ops[1]?) regs
  let shift := shiftOf ops
  match a, b with
  | .const x, .const y => some (.const ((x + y) % 2 ^ 64))
  | .const table, .unknown | .unknown, .const table =>
    match scaledIndex ops with
    | some index => if 0 < shift then do return .elem table (2 ^ (← ar.amount shift)) index else some .unknown
    | none => some .unknown
  -- the extend on the add decides the sign, not the load
  | .entry e, .const base | .const base, .entry e =>
    some (.target { e with signed := (signedExtend ops).getD e.signed } base shift)
  | .entry e, .elem _ _ _ | .elem _ _ _, .entry e => some (.target { e with fromElem := true } 0 shift)
  | _, _ => some .unknown

/-- The value a load produces, when it reads something the model recognizes. -/
def loadValue (ar : Arith) (i : Insn) (regs : Regs) : Option Val :=
  match (i.operands[1]? : Option Operand) with
  | some (.mem m) =>
    match regs.loadSlot m with
    | some v => some v
    | none =>
      let signed := decide (i.mnemonic ∈ ["ldrsw", "ldrsb", "ldrsh", "movsxd", "movsx"])
      let size := if m.size = 0 then 8 else m.size
      match m.base.map regs.get, m.index with
      | some (.const table), some (ix, _, scale) => do
        let scale ← (if scale = 0 then some size else do return 2 ^ (← ar.amount scale))
        return .entry ⟨((table + m.disp) % 2 ^ 64).toNat, size, signed, key ix, scale, false⟩
      | some (.elem table scale index), none =>
        some (.entry ⟨((table + m.disp) % 2 ^ 64).toNat, size, signed, some index, scale, true⟩)
      | _, _ => some .unknown
  -- a register move carries the value along, or the identity of the source
  | some (.reg src) =>
    match regs.get src with
    | .unknown => some (((key src).map Val.alias).getD .unknown)
    | v => some v
  | _ => some .unknown

def loads : List String :=
  ["ldr", "ldrb", "ldrh", "ldrsw", "ldrsb", "ldrsh", "mov", "movsxd", "movzx", "movsx"]

def valueOf (ar : Arith) (i : Insn) (regs : Regs) : Option Val :=
  if i.mnemonic ∈ ["adrp", "adr"] then
    match (i.operands[1]? : Option Operand) with
    | some (.addr a) => some (.const a)
    | _ => some .unknown
  else if i.mnemonic = "lea" then
    match (i.operands[1]? : Option Operand) with
    | some (.mem m) =>
      match pcTarget m i.next with
      | some t => some (.const t)
      | none =>
        match m.base.map regs.get with
        | some (.const c) => some (.const ((c + m.disp) % 2 ^ 64).toNat)
        | _ => some .unknown
    | _ => some .unknown
  else if i.mnemonic = "add" then addValue ar i.operands regs
  else if i.mnemonic ∈ loads then loadValue ar i regs
  else some .unknown

/-- Advance the value model by one instruction. -/
def step (ar : Arith) (i : Insn) (regs : Regs) : Option Regs :=
  -- these name a register first but write only flags
  if i.mnemonic ∈ ["cmp", "cmn", "test", "tst"] then some regs
  else do
    let v ← valueOf ar i regs
    match i.operands with
    | .reg d :: _ =>
      match v with
      | .entry ⟨_, _, _, some ix, _, _⟩ =>
        -- captured before the write, which makes aliases stale
        return { regs with indexChains := insertAt ix (← aliases ix regs) regs.indexChains }.set d v
      | v => return regs.set d v
    | .mem m :: .reg source :: _ =>
      return if i.mnemonic ∈ ["mov", "str", "stur"] then regs.storeSlot m (regs.get source) else regs
    | _ => return regs

/-- How a branch reads its table. -/
structure Shape where
  entry : Entry
  kind : TableKind
  base : ℕ
  shift : ℕ
deriving DecidableEq

def memoryTable (last : Insn) (m : Mem) (regs : Regs) : Option ℕ :=
  if m.base.map Reg.class = some .pc then pcTarget m last.next
  else
    match m.base.map regs.get with
    | some (.const c) => some ((c + m.disp) % 2 ^ 64).toNat
    | none => if 0 < m.disp then some m.disp.toNat else none
    | _ => none

def branchValue (ar : Arith) (last : Insn) (regs : Regs) : Option (Option Val) :=
  match last.operands with
  | .reg r :: _ => some (some (regs.get r))
  | .mem m :: _ =>
    if m.seg.isSome then some none
    else
      match memoryTable last m regs, m.index with
      | some table, some (ix, _, scale) => do
        let scale := 2 ^ (← ar.amount scale)
        return some (.entry ⟨table, scale, false, key ix, scale, false⟩)
      | _, _ => some none
  | _ => some none

def shapeOf : Val → Option Shape
  | .target e base shift => some ⟨e, if e.fromElem then .relativeToEntry else .relativeToBase, base, shift⟩
  -- a table of whole pointers needs no arithmetic after the load
  | .entry e => if e.size = 8 then some ⟨e, .absolute, 0, 0⟩ else none
  | _ => none

/-- The switch bound from the compare that guards it: the nearest one of a register that
    the index value lived in. -/
def boundAt (chain : List RegKey) (i : Insn) (next : Option Insn) : Option ℕ :=
  let comparison :=
    if i.mnemonic ∈ ["cmp", "subs"] then true
    else if i.mnemonic = "sub" then next.any fun n => match n.flow with
      | .condBranch _ => true
      | _ => false
    else false
  if comparison then
    match i.operands with
    | .reg r :: rest =>
      if (key r).any fun k => decide (k ∈ chain) then
        match rest with
        | .imm v :: _ => if 0 ≤ v ∧ v < 2 ^ 20 then some (v.toNat + 1) else none
        | .uimm v :: _ => if v < 2 ^ 20 then some (v + 1) else none
        | _ => none
      else none
    | _ => none
  else none

/-- The last instruction of the body that bounds the switch wins. -/
def boundFor (chain : List RegKey) : List Insn → Option ℕ
  | [] => none
  | i :: rest => (boundFor chain rest).or (boundAt chain i rest.head?)

/-- What is known before the table is read. -/
structure Plan where
  shape : Shape
  bound : Option ℕ
deriving DecidableEq

def Plan.table (p : Plan) : ℕ := p.shape.entry.table
def Plan.size (p : Plan) : ℕ := p.shape.entry.size
def Plan.scale (p : Plan) : ℕ := p.shape.entry.scale

/-- The chain recorded at the table read wins over the one the registers show now. -/
def chainOf (regs : Regs) (ix : RegKey) : Option (List RegKey) :=
  match regs.indexChains.lookup ix with
  | some chain => some chain
  | none => aliases ix regs

def plan (ar : Arith) (insns : List Insn) (mem : MemoryMap) : Option (Option Plan) :=
  match insns.getLast? with
  | none => some none
  | some last =>
    if last.flow ≠ .indirectBranch then some none
    else do
      let regs ← insns.dropLast.foldlM (fun regs i => step ar i regs) Regs.default
      match (← branchValue ar last regs).bind shapeOf with
      | none => return none
      | some shape =>
        if shape.entry.size = 0 ∨ shape.entry.scale = 0 ∨ isMapped mem shape.entry.table = false then return none
        else
          let bound ← (match shape.entry.index with
            | none => some none
            | some ix => do return boundFor (← chainOf regs ix) insns.dropLast)
          -- a compact table cannot be bounded by scanning
          if bound = none ∧ shape.entry.size ≤ 2 ∧ shape.kind ≠ .absolute then return none
          else return some ⟨shape, bound⟩

/-- The largest table believed without a bound from a compare. -/
def SCAN_CAP : ℕ := 256

def Plan.limit (p : Plan) (cap : ℕ) : ℕ := min (p.bound.getD SCAN_CAP) cap

def isExecutable (mem : MemoryMap) (a : ℕ) : Bool := (mem.segmentAt a).any fun s => s.perms.exec

/-- A little-endian number, byte by byte. -/
def orBytes (ar : Arith) : ℕ → ℕ → List UInt8 → Option ℕ
  | _, v, [] => some v
  | i, v, b :: bs => do orBytes ar (i + 1) (v ||| b.toNat <<< (← ar.amount (8 * i))) bs

def readPtr (ar : Arith) (mem : MemoryMap) (at_ size : ℕ) : Option (Option ℕ) :=
  match mem.read at_ size with
  | none => some none
  | some bytes => do return some (← orBytes ar 0 0 bytes)

def signExtend (v bytes : ℕ) : ℤ :=
  if bytes = 1 then Int.bmod v (2 ^ 8)
  else if bytes = 2 then Int.bmod v (2 ^ 16)
  else if bytes = 4 then Int.bmod v (2 ^ 32)
  else Int.bmod v (2 ^ 64)

/-- What an entry means, by the kind of its table. -/
def targetOf (ar : Arith) (s : Shape) (at_ raw : ℕ) : Option ℕ :=
  let value := if s.entry.signed then signExtend raw s.entry.size else Int.bmod raw (2 ^ 64)
  let from_ := if s.entry.fromElem then at_ else s.base
  match s.kind with
  | .absolute => some raw
  | _ => do return ((from_ + value * 2 ^ (← ar.amount s.shift)) % 2 ^ 64).toNat

/-- Whether an address can be a target. -/
def accepts (mem : MemoryMap) (section_ : AddrRange) (alignment target : ℕ) : Bool :=
  section_.contains target && isExecutable mem target && decide (target % alignment = 0)

/-- The targets of the entries from one on, until one is none. -/
def scanFrom (ar : Arith) (s : Shape) (mem : MemoryMap) (section_ : AddrRange) (alignment : ℕ) :
    ℕ → ℕ → Option (List ℕ)
  | 0, _ => some []
  | left + 1, n => do
    let at_ := s.entry.table + (← ar.mul n s.entry.scale)
    if 2 ^ 64 ≤ at_ then return []
    else
      match ← readPtr ar mem at_ s.entry.size with
      | none => return []
      | some raw =>
        let target ← targetOf ar s at_ raw
        if accepts mem section_ alignment target then
          return target :: (← scanFrom ar s mem section_ alignment left (n + 1))
        else return []

/-- Try to resolve the indirect branch that ends the instructions. There is no answer
    where the program stops. -/
def recover (ar : Arith) (insns : List Insn) (mem : MemoryMap) (section_ : AddrRange) (cap alignment : ℕ) :
    Option (Option JumpTable) := do
  match ← plan ar insns mem with
  | none => return none
  | some p =>
    let limit := p.limit cap
    let targets ← scanFrom ar p.shape mem section_ (max alignment 1) limit 0
    -- an unbounded result that ran to the cap is a recovery that went wrong
    if targets.length < 2 ∨ (p.bound = none ∧ limit ≤ targets.length) then return none
    else
      let at_ := (insns.getLast?.map Insn.addr).getD 0
      return some ⟨at_, p.table, p.size, p.shape.kind, p.shape.base, p.shape.shift, targets, p.bound.isNone⟩

/-- The entries a recovered table was read out of. -/
def entriesRegion (t : JumpTable) : Option DataRegions.Region := do
  if t.entrySize * t.targets.length < 2 ^ 64 then
    let range ← AddrRange.sized t.table (t.entrySize * t.targets.length)
    return ⟨range, .jumpTable t.at_⟩
  else none

end E5r.JumpTables
