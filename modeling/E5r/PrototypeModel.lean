import E5r.StructLayout

/-!
Where the parameters of a declared signature are placed on a calling convention's
registers and its stack, and the conventions.
-/
namespace E5r.PrototypeModel
open StructLayout (CType Types resolve)

/-- A calling convention with a name. -/
inductive Named where
  | sysV | aapcs64 | aapcs32 | win64 | cdecl | stdcall | fastcall | thiscall | vectorcall
deriving DecidableEq

/-- What the placing of parameters reads of a convention: registers are offsets
    into the register file. -/
structure Abi where
  name : Named
  integerArguments : List ℕ
  floatArguments : List ℕ
  stackArgumentBase : ℤ
  indirectResult : Option ℕ
deriving DecidableEq

namespace X86
def gprOffset (n : ℕ) : ℕ := n * 8
def vecOffset (n : ℕ) : ℕ := 18 * 8 + n * 16
end X86

namespace Arm
def gprOffset (n : ℕ) : ℕ := n % 16 * 8
def vecOffset (n : ℕ) : ℕ := 18 * 8 + n * 8
end Arm

namespace Aarch64
def gprOffset (n : ℕ) : ℕ := n * 8
def vecOffset (n : ℕ) : ℕ := 34 * 8 + n * 16
end Aarch64

def sysv64 : Abi where
  name := .sysV
  integerArguments := [7, 6, 2, 1, 8, 9].map X86.gprOffset
  floatArguments := (List.range 8).map X86.vecOffset
  stackArgumentBase := 8
  indirectResult := none

def win64 : Abi where
  name := .win64
  integerArguments := [1, 2, 8, 9].map X86.gprOffset
  floatArguments := (List.range 4).map X86.vecOffset
  stackArgumentBase := 40
  indirectResult := none

def aapcs32 : Abi where
  name := .aapcs32
  integerArguments := (List.range 4).map Arm.gprOffset
  floatArguments := (List.range 8).map Arm.vecOffset
  stackArgumentBase := 0
  indirectResult := some (Arm.gprOffset 0)

def x86_32 (name : Named) : Abi where
  name := name
  integerArguments :=
    match name with
    | .fastcall | .vectorcall => [X86.gprOffset 1, X86.gprOffset 2]
    | .thiscall => [X86.gprOffset 1]
    | _ => []
  floatArguments :=
    match name with
    | .vectorcall => (List.range 6).map X86.vecOffset
    | _ => []
  stackArgumentBase := 4
  indirectResult := none

def aapcs64 : Abi where
  name := .aapcs64
  integerArguments := (List.range 8).map Aarch64.gprOffset
  floatArguments := (List.range 8).map Aarch64.vecOffset
  stackArgumentBase := 0
  indirectResult := some (Aarch64.gprOffset 8)

structure Signature where
  returns : Option CType
  parameters : List (Option String × CType)
deriving DecidableEq

/-- Where a convention passes one argument. -/
inductive Storage where
  | integer (n : ℕ)
  | float (n : ℕ)
  | stack (offset : ℤ)
deriving DecidableEq

inductive Strength where
  | recovered | asserted
deriving DecidableEq

structure Parameter where
  name : Option String
  ty : CType
  size : ℕ
  storage : List Storage
  strength : Strength
deriving DecidableEq

/-- What a declaration needs that its convention does not have. -/
inductive Conflict where
  | offConvention (index : Option ℕ) (detail : String)
deriving DecidableEq

def Abi.slot (abi : Abi) : ℕ := (max abi.stackArgumentBase 8).toNat

def sizeOr0 (types : Types) (ty : CType) : ℕ := ((types.sizeOf CheckedWords.wrapping ty).getD none).getD 0

/-- How many integer registers a value of a type takes, or zero when it goes in
    none. -/
def registerCount (resolved : CType) (size : ℕ) (abi : Abi) : ℕ :=
  match resolved with
  | .composite _ | .array .. => if size = 0 ∨ 2 * abi.slot < size then 0 else (size + abi.slot - 1) / abi.slot
  | .float wide => if abi.slot < wide.toNat then 0 else 1
  | .void => 0
  | _ => 1

/-- A declared result is too large for the result registers. -/
def returnsInMemory (types : Types) (sig : Signature) : Bool :=
  match sig.returns with
  | none => false
  | some ty =>
    match resolve ty with
    | .composite _ | .array .. =>
      match (types.sizeOf CheckedWords.wrapping ty).getD none with
      | none => true
      | some size => decide (16 < size)
    | _ => false

/-- The registers that are taken, and where the next stack argument is: a signature
    is too short for the offset to leave its 64 bits. -/
structure Placing where
  integers : ℕ
  floats : ℕ
  stack : ℤ
deriving DecidableEq

def wantsFloat : CType → Bool
  | .float size => size = 4 ∨ size = 8
  | _ => false

def inRegisters (abi : Abi) (resolved : CType) (size : ℕ) (st : Placing) : List Storage × Placing :=
  if wantsFloat resolved then
    if st.floats < abi.floatArguments.length then ([.float st.floats], { st with floats := st.floats + 1 })
    else ([], st)
  else
    let registers := registerCount resolved size abi
    if st.integers + registers ≤ abi.integerArguments.length then
      ((List.range registers).map fun i => .integer (st.integers + i), { st with integers := st.integers + registers })
    else ([], st)

/-- The slots of a parameter that is in no register. -/
def onStack (abi : Abi) (size : ℕ) (st : Placing) : List Storage × Placing :=
  let width := (max size 1 + abi.slot - 1) / abi.slot * abi.slot
  ([.stack st.stack], { st with stack := st.stack + width })

def place (abi : Abi) (resolved : CType) (size : ℕ) (st : Placing) : List Storage × Placing :=
  match inRegisters abi resolved size st with
  | ([], st) => onStack abi size st
  | placed => placed

/-- The convention has no register for a parameter in floating point. -/
def conflictOf (abi : Abi) (resolved : CType) (index : ℕ) : List Conflict :=
  if wantsFloat resolved ∧ abi.floatArguments = [] then
    [.offConvention (some index)
      "is floating point and the convention passes no arguments in floating point registers"]
  else []

def placeFrom (types : Types) (abi : Abi) :
    ℕ → Placing → List (Option String × CType) → List Parameter × List Conflict
  | _, _, [] => ([], [])
  | index, st, (name, ty) :: rest =>
    let size := sizeOr0 types ty
    let (storage, after) := place abi (resolve ty) size st
    let (parameters, conflicts) := placeFrom types abi (index + 1) after rest
    (⟨name, ty, size, storage, .asserted⟩ :: parameters, conflictOf abi (resolve ty) index ++ conflicts)

/-- The integer registers that a result in memory takes, and what is said where
    there is none. -/
def reserve (types : Types) (sig : Signature) (abi : Abi) : ℕ × List Conflict :=
  if returnsInMemory types sig then
    if abi.integerArguments = [] then
      (0, [.offConvention none
        "the result is returned in memory and the convention has no register to pass the address in"])
    else (1, [])
  else (0, [])

/-- The parameters in their places, what the convention lacks, and the number of
    registers that the hidden result pointer takes. -/
def classify (types : Types) (sig : Signature) (abi : Abi) : List Parameter × List Conflict × ℕ :=
  let (reserved, hidden) := reserve types sig abi
  let (parameters, conflicts) := placeFrom types abi 0 ⟨reserved, 0, abi.stackArgumentBase⟩ sig.parameters
  (parameters, hidden ++ conflicts, reserved)

end E5r.PrototypeModel
