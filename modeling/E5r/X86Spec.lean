import E5r.IrModel

/-!
What an x86-64 processor does for the integer arithmetic instructions, over numbers:
the operands, the status flags as the architecture defines them, and the sixteen
conditions. A flag that the architecture leaves undefined may take any value.
-/
namespace E5r.X86Spec
open IrModel (position)

inductive Flag where
  | cf | pf | af | zf | sf | of | df
  deriving DecidableEq

/-- A segment whose base is not zero in long mode. -/
inductive Segment where
  | fs | gs
  deriving DecidableEq

/-- The general registers by bytes, the flags, and memory by addresses. -/
structure Processor where
  gpr : Fin 16 → Fin 8 → UInt8
  flag : Flag → Bool
  memory : ℕ → UInt8
  segmentBase : Segment → ℕ

inductive OperandWidth where
  | byte | word | dword | qword
  deriving DecidableEq

def OperandWidth.bytes : OperandWidth → ℕ
  | .byte => 1
  | .word => 2
  | .dword => 4
  | .qword => 8

/-- How many numbers an operand can hold, and the first whose sign bit is set. -/
def OperandWidth.modulus (w : OperandWidth) : ℕ := 256 ^ w.bytes
def OperandWidth.half (w : OperandWidth) : ℕ := w.modulus / 2

def Processor.number (p : Processor) (n : Fin 16) (bytes : ℕ) : ℕ :=
  LittleEndian.value (fun i => if h : i < 8 then p.gpr n ⟨i, h⟩ else 0) bytes

/-- What an address starts from: nothing, a register or the next instruction. -/
inductive Base where
  | none
  | gpr (n : Fin 16)
  | next
  deriving DecidableEq

/-- The index of an address, scaled by a power of two. The encoding also has a form
    whose index is always zero. -/
inductive Index where
  | none
  | gpr (n : Fin 16) (scale : Fin 4)
  | zero (scale : Fin 4)
  deriving DecidableEq

/-- An address; a narrow one is computed in 32 bits. -/
structure Address where
  segment : Option Segment
  narrow : Bool
  base : Base
  index : Index
  disp : ℤ
  deriving DecidableEq

def Address.bytes (a : Address) : ℕ := if a.narrow then 4 else 8

/-- The offset an address names, where the next instruction is at `next`. -/
def Address.offset (a : Address) (p : Processor) (next : ℕ) : ℕ :=
  let base := match a.base with
    | .none => 0
    | .gpr n => p.number n a.bytes
    | .next => next
  let index := match a.index with
    | .none | .zero _ => 0
    | .gpr n scale => p.number n a.bytes * 2 ^ scale.val
  (((base : ℤ) + index + a.disp) % (256 ^ a.bytes : ℕ)).toNat

def Address.linear (a : Address) (p : Processor) (next : ℕ) : ℕ :=
  ((a.segment.map p.segmentBase).getD 0 + a.offset p next) % 2 ^ 64

/-- What an operand names. The high bytes are those of the first four registers. -/
inductive Place where
  | gpr (n : Fin 16)
  | high (n : Fin 4)
  | mem (a : Address)
  deriving DecidableEq

inductive Source where
  | place (p : Place)
  | imm (v : ℤ)
  deriving DecidableEq

def highRegister (n : Fin 4) : Fin 16 := ⟨n.val, by omega⟩

def Processor.read (p : Processor) (next : ℕ) (w : OperandWidth) : Place → ℕ
  | .gpr n => p.number n w.bytes
  | .high n => (p.gpr (highRegister n) 1).toNat
  | .mem a => LittleEndian.value (fun i => p.memory ((a.linear p next + i) % 2 ^ 64)) w.bytes

def Processor.value (p : Processor) (next : ℕ) (w : OperandWidth) : Source → ℕ
  | .place a => p.read next w a
  | .imm v => (v % (w.modulus : ℤ)).toNat

/-- A write to a doubleword register clears the upper half; one to a narrower one
    leaves the other bytes as they are. -/
def Processor.write (p : Processor) (next : ℕ) (w : OperandWidth) (v : ℕ) : Place → Processor
  | .gpr n =>
    { p with gpr := Function.update p.gpr n (fun i =>
        if i.val < w.bytes then LittleEndian.byte v i else if w = .dword then 0 else p.gpr n i) }
  | .high n =>
    let whole := highRegister n
    { p with gpr := Function.update p.gpr whole (Function.update (p.gpr whole) 1 (LittleEndian.byte v 0)) }
  | .mem a =>
    { p with memory := fun at_ =>
        if position (a.linear p next) at_ < w.bytes then LittleEndian.byte v (position (a.linear p next) at_)
        else p.memory at_ }

def signed (w : OperandWidth) (x : ℕ) : ℤ := if x < w.half then x else x - w.modulus

/-- Whether a signed number can be held. -/
def fits (w : OperandWidth) (z : ℤ) : Bool := decide (-(w.half : ℤ) ≤ z ∧ z < w.half)

/-- Whether the low byte has an even number of bits set. -/
def evenParity (x : ℕ) : Bool := (List.range 8).countP (fun i => x.testBit i) % 2 = 0

/-- What an instruction does to a flag. -/
inductive Change where
  | same
  | set (b : Bool)
  | undefined
  deriving DecidableEq

def Change.allows (before after : Bool) : Change → Prop
  | .same => after = before
  | .set b => after = b
  | .undefined => True

def resultFlags (w : OperandWidth) (r : ℕ) : Flag → Change
  | .sf => .set (decide (w.half ≤ r))
  | .zf => .set (decide (r = 0))
  | .pf => .set (evenParity r)
  | _ => .same

def sum (w : OperandWidth) (x y c : ℕ) : ℕ := (x + y + c) % w.modulus

def sumFlags (w : OperandWidth) (x y c : ℕ) : Flag → Change
  | .cf => .set (decide (w.modulus ≤ x + y + c))
  | .of => .set (!fits w (signed w x + signed w y + c))
  | .af => .set (decide (16 ≤ x % 16 + y % 16 + c))
  | f => resultFlags w (sum w x y c) f

def difference (w : OperandWidth) (x y c : ℕ) : ℕ := (((x : ℤ) - y - c) % (w.modulus : ℤ)).toNat

def differenceFlags (w : OperandWidth) (x y c : ℕ) : Flag → Change
  | .cf => .set (decide (x < y + c))
  | .of => .set (!fits w (signed w x - signed w y - c))
  | .af => .set (decide (x % 16 < y % 16 + c))
  | f => resultFlags w (difference w x y c) f

def logicFlags (w : OperandWidth) (r : ℕ) : Flag → Change
  | .cf | .of => .set false
  | .af => .undefined
  | f => resultFlags w r f

/-- The flags of an instruction that leaves the carry flag alone. -/
def exceptCarry (flags : Flag → Change) : Flag → Change
  | .cf => .same
  | f => flags f

inductive BinaryOp where
  | add | adc | sub | sbb | cmp | and | or | xor | test
  deriving DecidableEq

/-- The result and the flags of a two-operand instruction, where `c` is the carry
    flag. -/
def BinaryOp.outcome (op : BinaryOp) (w : OperandWidth) (x y : ℕ) (c : Bool) : ℕ × (Flag → Change) :=
  match op with
  | .add => (sum w x y 0, sumFlags w x y 0)
  | .adc => (sum w x y c.toNat, sumFlags w x y c.toNat)
  | .sub | .cmp => (difference w x y 0, differenceFlags w x y 0)
  | .sbb => (difference w x y c.toNat, differenceFlags w x y c.toNat)
  | .and | .test => (x &&& y, logicFlags w (x &&& y))
  | .or => (x ||| y, logicFlags w (x ||| y))
  | .xor => (x ^^^ y, logicFlags w (x ^^^ y))

/-- Whether the result goes to the destination. -/
def BinaryOp.writes : BinaryOp → Bool
  | .cmp | .test => false
  | _ => true

inductive UnaryOp where
  | inc | dec | neg | not
  deriving DecidableEq

def UnaryOp.outcome (op : UnaryOp) (w : OperandWidth) (x : ℕ) : ℕ × (Flag → Change) :=
  match op with
  | .inc => (sum w x 1 0, exceptCarry (sumFlags w x 1 0))
  | .dec => (difference w x 1 0, exceptCarry (differenceFlags w x 1 0))
  | .neg => (difference w 0 x 0, differenceFlags w 0 x 0)
  | .not => (w.modulus - 1 - x, fun _ => .same)

inductive Condition where
  | o | no | b | ae | e | ne | be | a | s | ns | p | np | l | ge | le | g
  deriving DecidableEq

def Condition.holds (c : Condition) (flag : Flag → Bool) : Bool :=
  match c with
  | .o => flag .of
  | .no => !flag .of
  | .b => flag .cf
  | .ae => !flag .cf
  | .e => flag .zf
  | .ne => !flag .zf
  | .be => flag .cf || flag .zf
  | .a => !(flag .cf || flag .zf)
  | .s => flag .sf
  | .ns => !flag .sf
  | .p => flag .pf
  | .np => !flag .pf
  | .l => flag .sf != flag .of
  | .ge => flag .sf == flag .of
  | .le => flag .zf || flag .sf != flag .of
  | .g => !flag .zf && flag .sf == flag .of

inductive Instr where
  | binary (op : BinaryOp) (w : OperandWidth) (dst : Place) (src : Source)
  | unary (op : UnaryOp) (w : OperandWidth) (dst : Place)
  | set (c : Condition) (dst : Place)
  | cmov (c : Condition) (w : OperandWidth) (dst : Fin 16) (src : Place)
  | jump (c : Condition) (target : ℕ)
  deriving DecidableEq

/-- The memory address an instruction names, if it names one. -/
def Place.addresses : Place → Option Address
  | .mem a => some a
  | _ => none

def Instr.addresses : Instr → List Address
  | .binary _ _ dst (.place src) => dst.addresses.toList ++ src.addresses.toList
  | .binary _ _ dst (.imm _) => dst.addresses.toList
  | .unary _ _ dst => dst.addresses.toList
  | .set _ dst => dst.addresses.toList
  | .cmov _ _ _ src => src.addresses.toList
  | .jump _ _ => []

/-- Registers and memory agree. -/
structure SameStorage (p q : Processor) : Prop where
  gpr : p.gpr = q.gpr
  memory : ∀ a < 2 ^ 64, p.memory a = q.memory a

/-- From `p` the instruction takes the processor to `q`, and branches to `branch` or
    goes on, where the next instruction is at `next`. -/
def Executes (next : ℕ) (p : Processor) (q : Processor) (branch : Option ℕ) : Instr → Prop
  | .binary op w dst src =>
    let outcome := op.outcome w (p.read next w dst) (p.value next w src) (p.flag .cf)
    SameStorage q (if op.writes then p.write next w outcome.1 dst else p) ∧
      (∀ f, (outcome.2 f).allows (p.flag f) (q.flag f)) ∧ branch = none
  | .unary op w dst =>
    let outcome := op.outcome w (p.read next w dst)
    SameStorage q (p.write next w outcome.1 dst) ∧ (∀ f, (outcome.2 f).allows (p.flag f) (q.flag f)) ∧ branch = none
  | .set c dst =>
    SameStorage q (p.write next .byte (c.holds p.flag).toNat dst) ∧ q.flag = p.flag ∧ branch = none
  | .cmov c w dst src =>
    let chosen := if c.holds p.flag then p.read next w src else p.read next w (.gpr dst)
    SameStorage q (p.write next w chosen (.gpr dst)) ∧ q.flag = p.flag ∧ branch = none
  | .jump c target =>
    SameStorage q p ∧ q.flag = p.flag ∧ branch = if c.holds p.flag then some target else none

theorem SameStorage.number {p q : Processor} (same : SameStorage p q) (n : Fin 16) (bytes : ℕ) :
    p.number n bytes = q.number n bytes := by
  unfold Processor.number
  rw [same.gpr]

theorem SameStorage.linear {p q : Processor} (same : SameStorage p q) (segments : p.segmentBase = q.segmentBase)
    (a : Address) (next : ℕ) : a.linear p next = a.linear q next := by
  unfold Address.linear Address.offset
  rw [segments]
  cases a.base <;> cases a.index <;> simp only [same.number]

theorem SameStorage.read {p q : Processor} (same : SameStorage p q) (segments : p.segmentBase = q.segmentBase)
    (next : ℕ) (w : OperandWidth) (place : Place) : p.read next w place = q.read next w place := by
  cases place with
  | gpr n => exact same.number n _
  | high n =>
    unfold Processor.read
    rw [same.gpr]
  | mem a =>
    simp only [Processor.read]
    rw [same.linear segments]
    exact LittleEndian.value_congr fun i _ => same.memory _ (Nat.mod_lt _ (by norm_num))

theorem SameStorage.value {p q : Processor} (same : SameStorage p q) (segments : p.segmentBase = q.segmentBase)
    {next : ℕ} {w : OperandWidth} {src : Source} : p.value next w src = q.value next w src := by
  cases src with
  | place place => exact same.read segments next w place
  | imm v => rfl

theorem SameStorage.trans {p q r : Processor} (first : SameStorage p q) (second : SameStorage q r) : SameStorage p r :=
  ⟨first.gpr.trans second.gpr, fun a inside => (first.memory a inside).trans (second.memory a inside)⟩

theorem write_mem_gpr (p : Processor) (next : ℕ) (w : OperandWidth) (v : ℕ) (a : Address) :
    (p.write next w v (.mem a)).gpr = p.gpr := by
  simp only [Processor.write]

theorem write_mem_memory (p : Processor) (next : ℕ) (w : OperandWidth) (v : ℕ) (a : Address) (at_ : ℕ) :
    (p.write next w v (.mem a)).memory at_ =
      if position (a.linear p next) at_ < w.bytes then LittleEndian.byte v (position (a.linear p next) at_)
      else p.memory at_ := by
  simp only [Processor.write]

theorem SameStorage.write {p q : Processor} (same : SameStorage p q) (segments : p.segmentBase = q.segmentBase)
    (next : ℕ) (w : OperandWidth) (v : ℕ) (place : Place) :
    SameStorage (p.write next w v place) (q.write next w v place) := by
  cases place with
  | gpr n =>
    refine ⟨?_, same.memory⟩
    simp only [Processor.write, same.gpr]
  | high n =>
    refine ⟨?_, same.memory⟩
    simp only [Processor.write, same.gpr]
  | mem a =>
    constructor
    · rw [write_mem_gpr, write_mem_gpr, same.gpr]
    · intro at_ inside
      rw [write_mem_memory, write_mem_memory, same.linear segments, same.memory at_ inside]

end E5r.X86Spec
