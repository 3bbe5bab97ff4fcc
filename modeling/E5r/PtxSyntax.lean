import Mathlib.Data.Int.Notation
import Mathlib.Data.Nat.Notation

/-!
The PTX subset as the parser builds it, one constructor for each supported form.
Where the source writes one thing in two ways (`.visible`, an address offset
left out), the tree remembers which was written.
-/
namespace E5r.PtxSyntax

/-- Scalar types. -/
inductive Ty where
  | u32 | s32 | b32 | u64 | s64 | b64 | pred | f32 | f64
deriving DecidableEq

namespace Ty
/-- The spelling without the dot. -/
def name : Ty → String
  | u32 => "u32"
  | s32 => "s32"
  | b32 => "b32"
  | u64 => "u64"
  | s64 => "s64"
  | b64 => "b64"
  | pred => "pred"
  | f32 => "f32"
  | f64 => "f64"

def fromName (s : String) : Option Ty :=
  match s with
  | "u32" => some u32
  | "s32" => some s32
  | "b32" => some b32
  | "u64" => some u64
  | "s64" => some s64
  | "b64" => some b64
  | "pred" => some pred
  | "f32" => some f32
  | "f64" => some f64
  | _ => none

def width : Ty → Option ℕ
  | u32 | s32 | b32 | f32 => some 32
  | u64 | s64 | b64 | f64 => some 64
  | pred => none

def isBits : Ty → Bool
  | b32 | b64 => true
  | _ => false

def isFloat : Ty → Bool
  | f32 | f64 => true
  | _ => false

def isInt : Ty → Bool
  | u32 | s32 | u64 | s64 => true
  | _ => false
end Ty

inductive Dim where
  | x | y | z
deriving DecidableEq

/-- Special registers. -/
inductive Sreg where
  | tid (d : Dim)
  | ntid (d : Dim)
  | ctaid (d : Dim)
  | nctaid (d : Dim)
deriving DecidableEq

/-- An instruction source operand. A float literal keeps its bits and its width. -/
inductive Operand where
  | reg (r : String)
  | imm (v : ℤ)
  | sreg (s : Sreg)
  | sym (n : String)
  | fimm (v : BitVec 64) (w : ℕ)
deriving DecidableEq

/-- A memory operand. The offset is none when the source wrote none. -/
inductive Address where
  | reg (r : String) (off : Option ℤ)
  | param (n : String) (off : Option ℤ)
deriving DecidableEq

inductive CmpOp where
  | eq | ne | lt | le | gt | ge | lo | ls | hi | hs
deriving DecidableEq

namespace CmpOp
def name : CmpOp → String
  | eq => "eq"
  | ne => "ne"
  | lt => "lt"
  | le => "le"
  | gt => "gt"
  | ge => "ge"
  | lo => "lo"
  | ls => "ls"
  | hi => "hi"
  | hs => "hs"

def fromName (s : String) : Option CmpOp :=
  match s with
  | "eq" => some eq
  | "ne" => some ne
  | "lt" => some lt
  | "le" => some le
  | "gt" => some gt
  | "ge" => some ge
  | "lo" => some lo
  | "ls" => some ls
  | "hi" => some hi
  | "hs" => some hs
  | _ => none

/-- Ordered comparisons, which `.b` types do not have. -/
def isOrdered : CmpOp → Bool
  | eq | ne => false
  | _ => true
end CmpOp

inductive Space where
  | global | param | shared
deriving DecidableEq

def Space.name : Space → String
  | global => "global"
  | param => "param"
  | shared => "shared"

inductive AtomOp where
  | add | min | max | exch | and | or | xor
deriving DecidableEq

namespace AtomOp
def name : AtomOp → String
  | add => "add"
  | min => "min"
  | max => "max"
  | exch => "exch"
  | and => "and"
  | or => "or"
  | xor => "xor"

def fromName (s : String) : Option AtomOp :=
  match s with
  | "add" => some add
  | "min" => some min
  | "max" => some max
  | "exch" => some exch
  | "and" => some and
  | "or" => some or
  | "xor" => some xor
  | _ => none
end AtomOp

/-- Binary operations of the shape `op.t d, a, b`. -/
inductive BinOp where
  | add | sub | mulLo | mulWide | and | or | xor | shl | shr
deriving DecidableEq

def BinOp.opcode : BinOp → String
  | add => "add"
  | sub => "sub"
  | mulLo => "mul.lo"
  | mulWide => "mul.wide"
  | and => "and"
  | or => "or"
  | xor => "xor"
  | shl => "shl"
  | shr => "shr"

inductive FBin where
  | add | sub | mul | div
deriving DecidableEq

def FBin.name : FBin → String
  | add => "add"
  | sub => "sub"
  | mul => "mul"
  | div => "div"

/-- Rounding to nearest with ties to even, toward zero, down and up. -/
inductive RMode where
  | rn | rz | rm | rp
deriving DecidableEq

namespace RMode
def name : RMode → String
  | rn => "rn"
  | rz => "rz"
  | rm => "rm"
  | rp => "rp"

def fromName (s : String) : Option RMode :=
  match s with
  | "rn" => some rn
  | "rz" => some rz
  | "rm" => some rm
  | "rp" => some rp
  | _ => none
end RMode

/-- Comparisons of `setp` on floats, ordered and unordered. -/
inductive FCmp where
  | eq | ne | lt | le | gt | ge | equ | neu | ltu | leu | gtu | geu | num | nan
deriving DecidableEq

namespace FCmp
def name : FCmp → String
  | eq => "eq"
  | ne => "ne"
  | lt => "lt"
  | le => "le"
  | gt => "gt"
  | ge => "ge"
  | equ => "equ"
  | neu => "neu"
  | ltu => "ltu"
  | leu => "leu"
  | gtu => "gtu"
  | geu => "geu"
  | num => "num"
  | nan => "nan"

def fromName (s : String) : Option FCmp :=
  match s with
  | "eq" => some eq
  | "ne" => some ne
  | "lt" => some lt
  | "le" => some le
  | "gt" => some gt
  | "ge" => some ge
  | "equ" => some equ
  | "neu" => some neu
  | "ltu" => some ltu
  | "leu" => some leu
  | "gtu" => some gtu
  | "geu" => some geu
  | "num" => some num
  | "nan" => some nan
  | _ => none
end FCmp

/-- The rounding of a `cvt` with a float side: none, to a float (`.rn`) or to an
    integral value (`.rni`). -/
inductive CvtRnd where
  | none
  | f (m : RMode)
  | i (m : RMode)
deriving DecidableEq

inductive Instr where
  | bin (op : BinOp) (t : Ty) (d : String) (a b : Operand)
  | madLo (t : Ty) (d : String) (a b c : Operand)
  | not (t : Ty) (d : String) (a : Operand)
  | mov (t : Ty) (d : String) (a : Operand)
  | setp (op : CmpOp) (t : Ty) (p : String) (a b : Operand)
  | selp (t : Ty) (d : String) (a b : Operand) (p : String)
  | cvt (dt st : Ty) (d : String) (a : Operand)
  | cvtaGlobal (d : String) (a : Operand)
  | ld (sp : Space) (t : Ty) (d : String) (a : Address)
  | st (sp : Space) (t : Ty) (a : Address) (v : Operand)
  | bra (uni : Bool) (l : String)
  | ret
  | exit
  | atom (sp : Space) (op : AtomOp) (t : Ty) (d : String) (a : Address) (b : Operand)
  | cas (sp : Space) (t : Ty) (d : String) (a : Address) (b c : Operand)
  | red (sp : Space) (op : AtomOp) (t : Ty) (a : Address) (b : Operand)
  | bar
  | fbin (op : FBin) (m : RMode) (ftz sat : Bool) (t : Ty) (d : String) (a b : Operand)
  | ffma (m : RMode) (ftz sat : Bool) (t : Ty) (d : String) (a b c : Operand)
  | fsqrt (m : RMode) (ftz : Bool) (t : Ty) (d : String) (a : Operand)
  | frcp (m : RMode) (ftz : Bool) (t : Ty) (d : String) (a : Operand)
  | fneg (ftz : Bool) (t : Ty) (d : String) (a : Operand)
  | fabs (ftz : Bool) (t : Ty) (d : String) (a : Operand)
  | fminmax (isMax ftz nan : Bool) (t : Ty) (d : String) (a b : Operand)
  | fsetp (op : FCmp) (ftz : Bool) (t : Ty) (p : String) (a b : Operand)
  | cvtF (dt st : Ty) (r : CvtRnd) (ftz sat : Bool) (d : String) (a : Operand)
deriving DecidableEq

/-- `@%p`, or `@!%p` when negated. -/
structure Guard where
  pred : String
  neg : Bool
deriving DecidableEq

structure Stmt where
  guard : Option Guard
  instr : Instr
deriving DecidableEq

/-- `.reg .t name<n>;` or `.reg .t name;`. -/
structure RegDecl where
  ty : Ty
  name : String
  count : Option ℕ
deriving DecidableEq

/-- `.shared {.align a} .t name{[n]};` with the element type as written. -/
structure SharedDecl where
  align : Option ℕ
  elem : String
  name : String
  count : Option ℕ
deriving DecidableEq

namespace SharedDecl
def elemBytes (elem : String) : Option ℕ :=
  match elem with
  | "b8" | "u8" | "s8" => some 1
  | "b16" | "u16" | "s16" => some 2
  | "b32" | "u32" | "s32" => some 4
  | "b64" | "u64" | "s64" => some 8
  | _ => none

def size (d : SharedDecl) : ℕ := (elemBytes d.elem).getD 1 * d.count.getD 1

def alignment (d : SharedDecl) : ℕ := d.align.getD ((elemBytes d.elem).getD 1)
end SharedDecl

/-- A declaration at the head of a body, by its index among its kind. -/
inductive Decl where
  | reg (i : ℕ)
  | shared (i : ℕ)
deriving DecidableEq

/-- One `.entry`. A label carries the index of the statement after it. -/
structure Kernel where
  visible : Bool
  name : String
  params : List (String × Ty)
  regs : List RegDecl
  shared : List SharedDecl
  decls : List Decl
  body : List Stmt
  labels : List (String × ℕ)
deriving DecidableEq

structure Module where
  version : String
  target : String
  addressSize : ℕ
  kernels : List Kernel
deriving DecidableEq

theorem Ty.name_of_fromName {s : String} {t : Ty} (known : Ty.fromName s = some t) : t.name = s := by
  unfold Ty.fromName at known
  split at known <;> cases known <;> rfl
theorem CmpOp.name_of_fromName {s : String} {c : CmpOp} (known : CmpOp.fromName s = some c) : c.name = s := by
  unfold CmpOp.fromName at known
  split at known <;> cases known <;> rfl
theorem AtomOp.name_of_fromName {s : String} {o : AtomOp} (known : AtomOp.fromName s = some o) :
    o.name = s := by
  unfold AtomOp.fromName at known
  split at known <;> cases known <;> rfl
theorem FCmp.name_of_fromName {s : String} {c : FCmp} (known : FCmp.fromName s = some c) : c.name = s := by
  unfold FCmp.fromName at known
  split at known <;> cases known <;> rfl

end E5r.PtxSyntax
