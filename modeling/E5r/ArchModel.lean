import E5r.CfgModel

/-!
The decoded instruction, shared by every decoder: registers, operands and what the
instruction does to control flow. The operands that only vector, system and printing
code looks at are left out.
-/
namespace E5r.ArchModel
open CfgModel (Flow)

inductive Width where
  | w8 | w16 | w32 | w64 | w128
  deriving DecidableEq

/-- What kind of register an operand names. `gprHigh` is the high byte of one of the
    first four x86 registers. -/
inductive RegClass where
  | gpr | gprHigh | seg | sp | zr | vec | sys | pc | flags
  deriving DecidableEq

/-- One register, and the width being used of it. -/
structure Reg where
  «class» : RegClass
  num : ℕ
  width : Width
  deriving DecidableEq

/-- Shift applied to a register operand. -/
inductive Shift where
  | lsl | lsr | asr | ror | msl
  deriving DecidableEq

/-- Extension applied to a register operand before use. -/
inductive Extend where
  | uxtb | uxth | uxtw | uxtx | sxtb | sxth | sxtw | sxtx | lsl | lslZero
  deriving DecidableEq

/-- How a memory operand computes its address. -/
inductive AddrMode where
  | offset | preIndex | postIndex
  deriving DecidableEq

/-- A memory reference. The index comes with its extension and shift amount. -/
structure Mem where
  seg : Option Reg
  base : Option Reg
  index : Option (Reg × Extend × ℕ)
  disp : ℤ
  mode : AddrMode
  size : ℕ
  deriving DecidableEq

/-- One operand. A shift or an extension rides inside its register operand. -/
inductive Operand where
  | reg (r : Reg)
  | shifted (r : Reg) (shift : Shift) (amount : ℕ)
  | extended (r : Reg) (extend : Extend) (amount : ℕ)
  | imm (value : ℤ)
  | uimm (value : ℕ)
  | count (value : ℤ)
  | shiftOp (shift : Shift) (amount : ℕ)
  | name (text : String)
  | addr (a : ℕ)
  | mem (m : Mem)
  | cond (code : ℕ)
  | sys (value : ℕ)
  deriving DecidableEq

/-- A decoded instruction. -/
structure Insn where
  addr : ℕ
  len : ℕ
  mnemonic : String
  flow : Flow
  leading : Option String
  operands : List Operand
  deriving DecidableEq

def Insn.next (i : Insn) : ℕ := (i.addr + i.len) % 2 ^ 64

end E5r.ArchModel
