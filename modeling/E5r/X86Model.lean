import E5r.ArchModel
import E5r.IrBuilder
import E5r.RustText

/-!
The x86 lifter, as far as its integer arithmetic goes: how operands are read and
written, the flags, the conditions, and the instructions built from them. The
instructions it lifts besides, and those it hands to the vector lifter, come in as a
parameter.
-/
namespace E5r.X86Model
open ArchModel IrModel IrBuilder
open CfgModel (Flow)

def rBase : ℕ := 0
/-- The flags, one byte each. -/
def cf : ℕ := 17 * 8
def pf : ℕ := cf + 1
def af : ℕ := cf + 2
def zf : ℕ := cf + 3
def sf : ℕ := cf + 4
def of : ℕ := cf + 5
def df : ℕ := cf + 6
/-- Byte offset of `xmm0`; vector registers are sixteen bytes each. -/
def xmmBase : ℕ := 18 * 8

/-- The byte offset of a general purpose register, in encoding order. -/
def gprOffset (n : ℕ) : ℕ := rBase + n * 8

def flagCf : Varnode := Varnode.register cf 1
def flagZf : Varnode := Varnode.register zf 1
def flagSf : Varnode := Varnode.register sf 1
def flagOf : Varnode := Varnode.register of 1
def flagPf : Varnode := Varnode.register pf 1
def flagAf : Varnode := Varnode.register af 1

def widthBytes : Width → ℕ
  | .w8 => 1
  | .w16 => 2
  | .w32 => 4
  | .w64 => 8
  | .w128 => 16

/-- The varnode a register operand names; `ah` is byte one of `rax`. -/
def reg (r : Reg) : Option Varnode :=
  let size := widthBytes r.width
  match r.class with
  | .gpr => some (Varnode.register (gprOffset r.num) size)
  | .gprHigh => some (Varnode.register (gprOffset (r.num &&& 3) + 1) 1)
  | .vec => some (Varnode.register (xmmBase + r.num * 16) (max size 16))
  | _ => none

/-- The whole register a one-byte operand sits in, and which byte of it that is. -/
def byteSlot (v : Varnode) : Option (Varnode × ℕ) :=
  if v.space = .register ∧ v.size = 1 ∧ v.offset < cf then
    some (Varnode.register (v.offset / 8 * 8) 8, v.offset % 8)
  else none

/-- Read a varnode, cutting a byte operand out of the register that holds it. -/
def read (v : Varnode) : Build Varnode :=
  match byteSlot v with
  | some (whole, index) => eval .subPiece 1 [whole, Varnode.constant index 1]
  | none => pure v

/-- Write a varnode, merging a byte operand back into the register that holds it. -/
def write (dest value : Varnode) : Build Unit :=
  match byteSlot dest with
  | none => emit .copy (some dest) [value]
  | some (whole, index) => do
    let byte ← if value.size = 1 then pure value else eval .subPiece 1 [value, Varnode.constant 0 1]
    let shift := index * 8
    let kept ← eval .intAnd 8 [whole, Varnode.constant (2 ^ 64 - 1 - 0xff * 2 ^ shift) 8]
    let wide ← eval .intZExt 8 [byte]
    let placed ← if shift = 0 then pure wide else eval .intLeft 8 [wide, Varnode.constant shift 1]
    emit .intOr (some whole) [kept, placed]

/-- Write a register, including the upper-half clear a 32-bit write performs. -/
def writeReg (r : Reg) (value : Varnode) : Build Unit :=
  match reg r with
  | none => pure ()
  | some dest => do
    write dest value
    if r.width = .w32 ∧ r.class = .gpr then
      emit .copy (some (Varnode.register (dest.offset + 4) 4)) [Varnode.constant 0 4]

/-- The value of the base register, or of the next instruction's address. -/
def baseOf (p at_ : ℕ) : Option Reg → Option Varnode
  | some r => if r.class = .pc then some (Varnode.constant at_ p) else (reg r).map (fun v => { v with size := p })
  | none => some (Varnode.constant 0 p)

def scaledIndex (p : ℕ) (ix : Reg) (ext : Extend) (scale : ℕ) : Build Varnode := do
  let base ← given (reg ix)
  let narrow := if ext = .uxtw ∨ ext = .sxtw then { base with size := 4 } else { base with size := p }
  let widened ← if narrow.size = p then pure narrow
    else eval (if ext = .sxtw then .intSExt else .intZExt) p [narrow]
  if scale = 0 then pure widened else eval .intLeft p [widened, Varnode.constant scale 1]

/-- The address a memory operand names; none for a thread-local access through `fs` or
    `gs`, numbers 4 and 5 in the segment bank. -/
def address (m : Mem) (at_ : ℕ) : Build Varnode := do
  let _ ← given (match m.seg with
    | some s => if s.num = 4 ∨ s.num = 5 then none else some ()
    | none => some ())
  let p ← pointer
  let base ← given (baseOf p at_ m.base)
  let indexed ← match m.index with
    | none => pure base
    | some (ix, ext, scale) => do
      let scaled ← scaledIndex p ix ext scale
      if m.base.isNone then pure scaled else eval .intAdd p [base, scaled]
  if m.disp ≠ 0 then eval .intAdd p [indexed, Varnode.constant (asU64 m.disp) p] else pure indexed

/-- Read an operand, loading from memory when it names memory. -/
def source (op : Operand) (size at_ : ℕ) : Build Varnode :=
  match op with
  | .reg r => do read (← given (reg r))
  | .imm v => pure (Varnode.constant (asU64 v) size)
  | .uimm v => pure (Varnode.constant v size)
  | .count v => pure (Varnode.constant (asU64 v) size)
  | .addr a => do return Varnode.constant a (← pointer)
  | .mem m => do
    let addr ← address m at_
    eval .load (if m.size = 0 then size else min m.size 16) [addr]
  | _ => given none

/-- Write a value to whatever an operand names. -/
def store (op : Operand) (value : Varnode) (at_ : ℕ) : Build Unit :=
  match op with
  | .reg r => writeReg r value
  | .mem m => do
    let addr ← address m at_
    emit .store none [addr, value]
  | _ => given none

def operandSize : List Operand → Option ℕ
  | [] => none
  | .reg r :: _ => some (widthBytes r.width)
  | .mem m :: rest => if 0 < m.size then some (min m.size 16) else operandSize rest
  | _ :: rest => operandSize rest

/-- Widen a source that is narrower than the operation. -/
def sizeMatched (y : Varnode) (size : ℕ) : Build Varnode :=
  if y.size = size then pure y
  else if y.isConst then pure { y with size := size }
  else eval .intSExt size [y]

/-- The two operands of a binary form, destination first. -/
def two (ops : List Operand) (size at_ : ℕ) : Build (Varnode × Varnode) := do
  let x ← source (← given ops[0]?) size at_
  let y ← source (← given ops[1]?) size at_
  let y ← sizeMatched y size
  return (x, y)

/-- Choose between two values without a branch. -/
def select (cond t f : Varnode) (size : ℕ) : Build Varnode := do
  let wide ← if size = 1 then pure cond else eval .intZExt size [cond]
  let mask ← eval .intNegate size [wide]
  let keep ← eval .intAnd size [t, mask]
  let inverse ← eval .intNot size [mask]
  let drop ← eval .intAnd size [f, inverse]
  eval .intOr size [keep, drop]

def signOf (v : Varnode) : Build Varnode := do
  let high ← eval .intRight v.size [v, Varnode.constant (v.size * 8 - 1) 1]
  eval .intNotEqual 1 [high, Varnode.constant 0 v.size]

/-- Set sign, zero and parity from a result; parity is over the low byte only. -/
def setResultFlags (result : Varnode) : Build Unit := do
  let sf ← signOf result
  emit .copy (some flagSf) [sf]
  let zf ← eval .intEqual 1 [result, Varnode.constant 0 result.size]
  emit .copy (some flagZf) [zf]
  let low ← eval .intAnd result.size [result, Varnode.constant 0xff result.size]
  let ones ← eval .popCount 1 [low]
  let odd ← eval .intAnd 1 [ones, Varnode.constant 1 1]
  let pf ← eval .intEqual 1 [odd, Varnode.constant 0 1]
  emit .copy (some flagPf) [pf]

/-- The adjust flag: bit four of `x ^ y ^ result`. -/
def setAdjustFlag (x y result : Varnode) : Build Unit := do
  let size := result.size
  let xy ← eval .intXor size [x, y]
  let all ← eval .intXor size [xy, result]
  let bit ← eval .intAnd size [all, Varnode.constant 0x10 size]
  let af ← eval .intNotEqual 1 [bit, Varnode.constant 0 size]
  emit .copy (some flagAf) [af]

/-- The carry and overflow flags as two operations over the operands give them. -/
def setCarryFlags (carry overflow : Op) (x y : Varnode) : Build Unit := do
  let cf ← eval carry 1 [x, y]
  emit .copy (some flagCf) [cf]
  let of ← eval overflow 1 [x, y]
  emit .copy (some flagOf) [of]

def setAddFlags (x y result : Varnode) : Build Unit := do
  setCarryFlags .intCarry .intSCarry x y
  setAdjustFlag x y result
  setResultFlags result

def setSubFlags (x y result : Varnode) : Build Unit := do
  setCarryFlags .intLess .intSBorrow x y
  setAdjustFlag x y result
  setResultFlags result

def setLogicFlags (result : Varnode) : Build Unit := do
  emit .copy (some flagCf) [Varnode.constant 0 1]
  emit .copy (some flagOf) [Varnode.constant 0 1]
  emit .copy (some flagAf) [Varnode.constant 0 1]
  setResultFlags result

/-- Overflow from the sign bits, for the forms that carry an incoming flag. -/
def setSignedOverflow (x y result : Varnode) (sub : Bool) : Build Unit := do
  let sx ← signOf x
  let sy ← signOf y
  let sr ← signOf result
  let same ← eval .intEqual 1 [sx, sy]
  let differs ← eval .intNotEqual 1 [sr, sx]
  let agree ← if sub then eval .boolNot 1 [same] else pure same
  let of ← eval .boolAnd 1 [agree, differs]
  emit .copy (some flagOf) [of]

/-- The condition a `jcc`, `setcc` or `cmovcc` tests, taken from the suffix. -/
def condition (suffix : String) : Build Varnode :=
  let not (v : Varnode) := eval .boolNot 1 [v]
  match suffix with
  | "o" => pure flagOf
  | "no" => not flagOf
  | "b" | "c" | "nae" => pure flagCf
  | "ae" | "nb" | "nc" => not flagCf
  | "e" | "z" => pure flagZf
  | "ne" | "nz" => not flagZf
  | "be" | "na" => eval .boolOr 1 [flagCf, flagZf]
  | "a" | "nbe" => do
    let ncf ← not flagCf
    let nzf ← not flagZf
    eval .boolAnd 1 [ncf, nzf]
  | "s" => pure flagSf
  | "ns" => not flagSf
  | "p" | "pe" => pure flagPf
  | "np" | "po" => not flagPf
  | "l" | "nge" => eval .intNotEqual 1 [flagSf, flagOf]
  | "ge" | "nl" => eval .intEqual 1 [flagSf, flagOf]
  | "le" | "ng" => do
    let lt ← eval .intNotEqual 1 [flagSf, flagOf]
    eval .boolOr 1 [flagZf, lt]
  | "g" | "nle" => do
    let ge ← eval .intEqual 1 [flagSf, flagOf]
    let nzf ← not flagZf
    eval .boolAnd 1 [nzf, ge]
  | _ => given none

/-- The suffix of a mnemonic beginning with `start`. -/
def suffix (mnemonic start : String) : Option String :=
  ((RustText.stripPrefix start.toList mnemonic.toList).map String.ofList).filter
    (fun s => !s.isEmpty && !s.toList.contains ' ')

/-- Which flag rule an arithmetic form follows. -/
inductive Kind where
  | add | sub | logic
  deriving DecidableEq

/-- The operation of a two-operand form without a carry, and its flag rule. -/
def operation (m : String) : Op × Kind :=
  match m with
  | "add" => (.intAdd, .add)
  | "sub" | "cmp" => (.intSub, .sub)
  | "and" | "test" => (.intAnd, .logic)
  | "or" => (.intOr, .logic)
  | _ => (.intXor, .logic)

/-- `add`, `sub`, `and`, `or`, `xor`, `cmp` and `test`. -/
def liftBinary (m : String) (ops : List Operand) (size at_ : ℕ) : Build Unit := do
  let (x, y) ← two ops size at_
  let (op, kind) := operation m
  let result ← eval op size [x, y]
  match kind with
    | .add => setAddFlags x y result
    | .sub => setSubFlags x y result
    | .logic => setLogicFlags result
  if m ≠ "cmp" ∧ m ≠ "test" then store (← given ops[0]?) result at_

/-- `adc` and `sbb`: the carry out happens in either of two steps. -/
def liftCarrying (m : String) (ops : List Operand) (size at_ : ℕ) : Build Unit := do
  let (x, y) ← two ops size at_
  let carryIn ← eval .intZExt size [flagCf]
  let op := if m = "adc" then Op.intAdd else .intSub
  let partialResult ← eval op size [x, y]
  let result ← eval op size [partialResult, carryIn]
  let carry := if m = "adc" then Op.intCarry else .intLess
  let c1 ← eval carry 1 [x, y]
  let c2 ← eval carry 1 [partialResult, carryIn]
  let cf ← eval .boolOr 1 [c1, c2]
  emit .copy (some flagCf) [cf]
  setSignedOverflow x y result (m = "sbb")
  setAdjustFlag x y result
  setResultFlags result
  store (← given ops[0]?) result at_

/-- `inc` and `dec`, which leave the carry flag alone. -/
def liftStepping (m : String) (ops : List Operand) (size at_ : ℕ) : Build Unit := do
  let x ← source (← given ops[0]?) size at_
  let one := Varnode.constant 1 size
  let result ← eval (if m = "inc" then .intAdd else .intSub) size [x, one]
  let of ← eval (if m = "inc" then .intSCarry else .intSBorrow) 1 [x, one]
  emit .copy (some flagOf) [of]
  setAdjustFlag x one result
  setResultFlags result
  store (← given ops[0]?) result at_

def liftNeg (ops : List Operand) (size at_ : ℕ) : Build Unit := do
  let x ← source (← given ops[0]?) size at_
  let zero := Varnode.constant 0 size
  let result ← eval .intNegate size [x]
  let cf ← eval .intNotEqual 1 [x, zero]
  emit .copy (some flagCf) [cf]
  let of ← eval .intSBorrow 1 [zero, x]
  emit .copy (some flagOf) [of]
  setAdjustFlag zero x result
  setResultFlags result
  store (← given ops[0]?) result at_

def liftNot (ops : List Operand) (size at_ : ℕ) : Build Unit := do
  let x ← source (← given ops[0]?) size at_
  let result ← eval .intNot size [x]
  store (← given ops[0]?) result at_

def liftSet (m : String) (ops : List Operand) (at_ : ℕ) : Build Unit := do
  let s ← condition (← given (suffix m "set"))
  store (← given ops[0]?) s at_

def liftCmov (m : String) (ops : List Operand) (size at_ : ℕ) : Build Unit := do
  let (dst, src) ← two ops size at_
  let cond ← condition (← given (suffix m "cmov"))
  let chosen ← select cond src dst size
  store (← given ops[0]?) chosen at_

/-- A conditional branch. -/
def liftJump (m : String) (target : ℕ) : Build Unit := do
  let cond ← condition (← given (suffix m "j"))
  let ptr ← pointer
  emit .cbranch none [Varnode.constant target ptr, cond]

/-- The mnemonics whose arms are not modelled here; they come before the arms of
    `setcc` and `cmovcc`. -/
def otherArms : List String :=
  ["nop", "endbr64", "endbr32", "hlt", "pause", "cld", "std", "lfence", "mfence", "sfence", "prefetch",
    "prefetchnta", "prefetcht0", "prefetcht1", "prefetcht2", "mov", "movabs", "lea", "movzx", "movsx", "movsxd",
    "push", "pop", "leave", "bt", "xchg", "bswap", "shl", "sal", "shr", "sar", "rol", "ror", "imul", "mul", "div",
    "idiv", "cdq", "cqo", "cwd", "cdqe", "cwde", "popcnt", "lzcnt", "tzcnt", "bsf", "bsr"]

def startsWith (m start : String) : Bool := (RustText.stripPrefix start.toList m.toList).isSome

/-- Whether an instruction goes to the vector lifter. -/
def handles (i : Insn) : Bool :=
  i.operands.any (fun o => match o with
    | .reg r => r.class == .vec
    | _ => false) || startsWith i.mnemonic "cvt"

/-- Lift an instruction that does not branch, by the arm of its mnemonic; `others` lifts
    what is not modelled here. -/
def liftArm (others : Insn → ℕ → Lifted) (i : Insn) (ptr : ℕ) : Lifted :=
  let b := Builder.sized i.addr ptr
  let ops := i.operands
  let at_ := i.next
  let size := (operandSize ops).getD 8
  let m := i.mnemonic
  match m with
  | "add" | "sub" | "and" | "or" | "xor" | "cmp" | "test" => lifted (liftBinary m ops size at_) b
  | "adc" | "sbb" => lifted (liftCarrying m ops size at_) b
  | "inc" | "dec" => lifted (liftStepping m ops size at_) b
  | "neg" => lifted (liftNeg ops size at_) b
  | "not" => lifted (liftNot ops size at_) b
  | _ =>
    if m ∈ otherArms then others i ptr
    else if startsWith m "set" then lifted (liftSet m ops at_) b
    else if startsWith m "cmov" then lifted (liftCmov m ops size at_) b
    else b.unimplemented

/-- Lift one instruction for a machine whose pointers are `ptr` bytes. -/
def liftSized (others : Insn → ℕ → Lifted) (i : Insn) (ptr : ℕ) : Lifted :=
  let b := Builder.sized i.addr ptr
  -- A repeated string operation is a loop, not one instruction.
  if i.leading = some "rep" ∨ i.leading = some "repne" ∨ i.leading = some "repe" then b.unimplemented
  else
    match i.flow with
    | .condBranch t => lifted (liftJump i.mnemonic t) b
    | .next => if handles i then others i ptr else liftArm others i ptr
    | _ => others i ptr

def lift (others : Insn → ℕ → Lifted) (i : Insn) : Lifted := liftSized others i 8

def lift32 (others : Insn → ℕ → Lifted) (i : Insn) : Lifted := liftSized others i 4

end E5r.X86Model
