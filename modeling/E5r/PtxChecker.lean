import Mathlib.Algebra.Group.Int.Defs
import E5r.Fallible
import E5r.PtxPrinter

/-!
The type checker of a parsed kernel: the types of each instruction, the ranges
of its literals, the types its registers are used at, and the declarations of
its registers, parameters, variables and labels.
-/
namespace E5r.PtxChecker
open Fallible PtxSyntax
open PtxPrinter (instr sreg)

inductive CheckError where
  /-- `line {line}: {msg}` -/
  | at (line : ℕ) (msg : String)
  /-- `{kernel}: {msg}` -/
  | kernel (name msg : String)

def arith : Ty → Bool
  | .u32 | .s32 | .u64 | .s64 => true
  | _ => false

/-- The instruction types of each opcode. The types of float forms were checked
    with their modifiers. -/
def typesAllowed : Instr → Bool
  | .bin .add t .. | .bin .sub t .. | .bin .mulLo t .. | .madLo t .. => arith t
  | .bin .mulWide t .. => t = .u32 || t = .s32
  | .bin .and t .. | .bin .or t .. | .bin .xor t .. | .bin .shl t .. | .not t .. => t.isBits
  | .bin .shr t .. => arith t || t.isBits
  | .mov t .. | .selp t .. => t ≠ .pred
  | .setp c t .. =>
    if t.isFloat then false
    else
      match c with
      | .eq | .ne => true
      | .lt | .le | .gt | .ge => arith t
      | .lo | .ls | .hi | .hs => t = .u32 || t = .u64
  | .cvt dt st .. => arith dt && arith st
  | .cvtaGlobal .. | .ld .. | .st .. => true
  | .bra .. | .ret | .exit | .bar => true
  | .atom _ o t .. | .red _ o t .. =>
    match o with
    | .add => t = .u32 || t = .s32 || t = .u64
    | .min | .max => arith t
    | .exch | .and | .or | .xor => t.isBits
  | .cas _ t .. => t.isBits
  | .fbin .. | .ffma .. | .fsqrt .. | .frcp .. | .fneg .. | .fabs .. | .fminmax .. | .fsetp .. | .cvtF .. => true

def typesOk (i : Instr) : Except String Unit :=
  if typesAllowed i then .ok () else .error (instr i ++ " is not a PTX instruction type")

/-- An integer literal fits its width, signed or unsigned. -/
def imm (o : Operand) (w : ℕ) : Except String Unit :=
  match o with
  | .imm v =>
    if v < -(2 ^ (w - 1)) ∨ v > 2 ^ w - 1 then
      .error ("immediate " ++ toString v ++ " does not fit " ++ toString w ++ " bits")
    else .ok ()
  | .fimm .. => .error "floating-point literal in an integer instruction"
  | _ => .ok ()

/-- A source of a float type: a register or a float literal of its width. -/
def fsrc (o : Operand) (t : Ty) : Except String Unit :=
  match o with
  | .reg _ => .ok ()
  | .fimm _ w => if t.width = some w then .ok () else .error ("literal of the wrong width for ." ++ t.name)
  | .imm _ => .error ("integer literal for ." ++ t.name ++ ": write 0f/0d")
  | .sreg _ | .sym _ => .error "special register or variable in a float instruction"

def widthOr (t : Ty) : ℕ := t.width.getD 32

def srcAt (o : Operand) (t : Ty) : Except String Unit := if t.isFloat then fsrc o t else imm o (widthOr t)

def nosreg : Operand → Except String Unit
  | .sreg s => .error ("special register " ++ sreg s ++ " outside mov/cvt")
  | .sym n => .error ("variable " ++ n ++ " outside mov")
  | _ => .ok ()

def Address.offset : Address → Option ℤ
  | .reg _ off | .param _ off => off

def off (a : Address) : Except String Unit :=
  match Address.offset a with
  | some v =>
    if v < -(2 ^ 31) ∨ v ≥ 2 ^ 31 then .error ("address offset " ++ toString v ++ " does not fit 32 signed bits")
    else .ok ()
  | none => .ok ()

/-- Literals and offsets in the ranges whose meaning is not in doubt, and special
    registers only where the assembler takes them. -/
def operandsOk : Instr → Except String Unit
  | .bin b t _ x y => do
    let (wx, wy) :=
      match b with
      | .mulWide => (32, 32)
      | .shl | .shr => (widthOr t, 32)
      | _ => (widthOr t, widthOr t)
    nosreg x
    nosreg y
    imm x wx
    imm y wy
  | .madLo t _ a b c => do
    nosreg a
    imm a (widthOr t)
    nosreg b
    imm b (widthOr t)
    nosreg c
    imm c (widthOr t)
  | .not t _ a => do
    nosreg a
    imm a (widthOr t)
  | .mov t _ a =>
    match a with
    | .sym n =>
      if t = .u32 ∨ t = .b32 ∨ t = .u64 ∨ t = .b64 then .ok ()
      else .error ("mov." ++ t.name ++ " of the address of " ++ n)
    | .sreg _ => if t.isFloat then .error "mov of a special register to a float" else .ok ()
    | _ => srcAt a t
  | .setp _ t _ a b | .selp t _ a b _ => do
    nosreg a
    nosreg b
    srcAt a t
    srcAt b t
  | .cvt _ st _ a =>
    match a with
    | .sym n => .error ("variable " ++ n ++ " outside mov")
    | _ => imm a (widthOr st)
  | .cvtaGlobal _ a => do
    nosreg a
    imm a 64
  | .ld _ _ _ a => off a
  | .st _ t a v => do
    nosreg v
    srcAt v t
    off a
  | .atom _ _ t _ a b | .red _ _ t a b => do
    nosreg b
    imm b (widthOr t)
    off a
  | .cas _ t _ a b c => do
    nosreg b
    imm b (widthOr t)
    nosreg c
    imm c (widthOr t)
    off a
  | .bra .. | .ret | .exit | .bar => .ok ()
  | .fbin _ _ _ _ t _ a b | .fminmax _ _ _ t _ a b | .fsetp _ _ t _ a b => do
    fsrc a t
    fsrc b t
  | .ffma _ _ _ t _ a b c => do
    fsrc a t
    fsrc b t
    fsrc c t
  | .fsqrt _ _ t _ a | .frcp _ _ t _ a | .fneg _ t _ a | .fabs _ t _ a => fsrc a t
  | .cvtF _ st _ _ _ _ a => do
    nosreg a
    srcAt a st

private def opUse : Operand → Ty → List (String × Ty)
  | .reg r, t => [(r, t)]
  | _, _ => []

/-- A global address is used at 64 bits; a shared one at either width. -/
private def addrUse (sp : Space) : Address → List (String × Ty)
  | .reg r _ => if sp = .shared then [] else [(r, .b64)]
  | .param .. => []

/-- Each register an instruction reads or writes, with the type it is used at. -/
def typedUses : Instr → List (String × Ty)
  | .bin .mulWide t d a b => (d, .u64) :: opUse a t ++ opUse b t
  | .bin .shl t d a b | .bin .shr t d a b => (d, t) :: opUse a t ++ opUse b .u32
  | .bin _ t d a b => (d, t) :: opUse a t ++ opUse b t
  | .madLo t d a b c => (d, t) :: opUse a t ++ opUse b t ++ opUse c t
  | .not t d a | .mov t d a => (d, t) :: opUse a t
  | .setp _ t _ a b => opUse a t ++ opUse b t
  | .selp t d a b _ => (d, t) :: opUse a t ++ opUse b t
  | .cvt dt st d a | .cvtF dt st _ _ _ d a => (d, dt) :: opUse a st
  | .cvtaGlobal d a => (d, .u64) :: opUse a .u64
  | .ld sp t d a => (d, t) :: addrUse sp a
  | .st sp t a x => opUse x t ++ addrUse sp a
  | .atom sp _ t d a b => (d, t) :: opUse b t ++ addrUse sp a
  | .cas sp t d a b c => (d, t) :: opUse b t ++ opUse c t ++ addrUse sp a
  | .red sp _ t a b => opUse b t ++ addrUse sp a
  | .fbin _ _ _ _ t d a b | .fminmax _ _ _ t d a b => (d, t) :: opUse a t ++ opUse b t
  | .ffma _ _ _ t d a b c => (d, t) :: opUse a t ++ opUse b t ++ opUse c t
  | .fsqrt _ _ t d a | .frcp _ _ t d a | .fneg _ t d a | .fabs _ t d a => (d, t) :: opUse a t
  | .fsetp _ _ t _ a b => opUse a t ++ opUse b t
  | .bra .. | .ret | .exit | .bar => []

/-- A float register is used at its own type or a `.b` type of its width, another
    register never at a float type. -/
def compatible (declared used : Ty) : Bool :=
  if declared.isFloat then used = declared || (used.isBits && used.width = declared.width)
  else !used.isFloat

/-- The registers of a kernel with their declared types. -/
abbrev Regs := List (String × Ty)

/-- The registers that one declaration names. -/
def expand (d : RegDecl) : List String :=
  match d.count with
  | some n => (List.range n).map (fun i => d.name ++ toString i)
  | none => [d.name]

def declareReg (kernel : String) (t : Ty) (regs : Regs) (n : String) : Except CheckError Regs :=
  if (regs.lookup n).isSome then .error (.kernel kernel ("register " ++ n ++ " declared twice"))
  else .ok (regs ++ [(n, t)])

def declareRegs (kernel : String) (ds : List RegDecl) : Except CheckError Regs :=
  ds.foldlM (fun regs d => (expand d).foldlM (declareReg kernel d.ty) regs) []

/-- The type of a parameter; the last of two with one name counts. -/
def paramTy (params : List (String × Ty)) (n : String) : Option Ty := params.reverse.lookup n

def declareShared (kernel : String) (regs : Regs) (params : List (String × Ty)) (seen : List String)
    (d : SharedDecl) : Except CheckError (List String) :=
  if d.name ∈ seen ∨ (paramTy params d.name).isSome then
    .error (.kernel kernel ("name " ++ d.name ++ " declared twice"))
  else if (regs.lookup d.name).isSome then
    .error (.kernel kernel (d.name ++ " is both a register and a variable"))
  else if d.size % d.alignment ≠ 0 ∧ d.count = none then
    .error (.kernel kernel (".shared " ++ d.name ++ " smaller than its alignment"))
  else .ok (seen ++ [d.name])

def declareLabel (kernel : String) (seen : List String) (l : String × ℕ) : Except CheckError (List String) :=
  if l.1 ∈ seen then .error (.kernel kernel ("label " ++ l.1 ++ " defined twice")) else .ok (seen ++ [l.1])

section
variable (regs : Regs) (params : List (String × Ty)) (shared : List String) (labels : List (String × ℕ))

def widthOf (r : String) : Except String Ty :=
  match regs.lookup r with
  | some t => .ok t
  | none => .error ("undeclared register " ++ r)

def pred (r : String) : Except String Unit := do
  let t ← widthOf regs r
  if t = .pred then .ok () else .error (r ++ " is not a .pred register")

def data (r : String) (w : ℕ) : Except String Unit := do
  let t ← widthOf regs r
  if t.width = some w then .ok () else .error (r ++ " is not a " ++ toString w ++ "-bit register")

def src (o : Operand) (w : ℕ) : Except String Unit :=
  match o with
  | .reg r => data regs r w
  | .imm _ => .ok ()
  | .sreg _ => if w = 32 then .ok () else .error "special registers are 32-bit"
  | .sym n => if n ∈ shared then .ok () else .error (n ++ " is not a .shared variable")
  | .fimm _ fw => if fw = w then .ok () else .error "float literal of the wrong width"

/-- A data address: global takes a 64-bit register, shared a register of either
    width or a variable. -/
def addr (i : Instr) (sp : Space) (a : Address) : Except String Unit :=
  match sp, a with
  | .global, .reg r _ => data regs r 64
  | .shared, .reg r _ => do
    let t ← widthOf regs r
    if t.width = some 32 ∨ t.width = some 64 then .ok ()
    else .error (r ++ " is not a 32- or 64-bit register")
  | .shared, .param n _ => if n ∈ shared then .ok () else .error (n ++ " is not a .shared variable")
  | _, .param .. => .error (instr i ++ " needs a register address")
  | .param, _ => .error "not a data space"

/-- Registers, parameters, variables and labels are declared with the right
    types. A `.pred` instruction type does not come from the parser. -/
def usesOk (i : Instr) : Except String Unit :=
  match i with
  | .bin .mulWide t d a b =>
    if t = .u32 ∨ t = .s32 then do
      data regs d 64
      src regs shared a 32
      src regs shared b 32
    else .error "mul.wide is supported for .u32 and .s32"
  | .bin .shl t d a b | .bin .shr t d a b => do
    data regs d (widthOr t)
    src regs shared a (widthOr t)
    src regs shared b 32
  | .bin _ t d a b => do
    data regs d (widthOr t)
    src regs shared a (widthOr t)
    src regs shared b (widthOr t)
  | .madLo t d a b c => do
    data regs d (widthOr t)
    src regs shared a (widthOr t)
    src regs shared b (widthOr t)
    src regs shared c (widthOr t)
  | .not t d a | .mov t d a => do
    data regs d (widthOr t)
    src regs shared a (widthOr t)
  | .setp c t d a b =>
    if c.isOrdered && t.isBits then .error "ordered comparison on a .b type"
    else do
      pred regs d
      src regs shared a (widthOr t)
      src regs shared b (widthOr t)
  | .selp t d a b q => do
    data regs d (widthOr t)
    src regs shared a (widthOr t)
    src regs shared b (widthOr t)
    pred regs q
  | .cvt dt st d a => do
    data regs d (widthOr dt)
    src regs shared a (widthOr st)
  | .cvtaGlobal d a => do
    data regs d 64
    src regs shared a 64
  | .ld .param t d a => do
    data regs d (widthOr t)
    match a with
    | .param n off =>
      if off.getD 0 = 0 then
        if paramTy params n = some t then .ok () else .error ("ld.param." ++ t.name ++ " of parameter " ++ n)
      else .error "ld.param needs [parameter] without offset"
    | .reg .. => .error "ld.param needs [parameter] without offset"
  | .ld sp t d a => do
    data regs d (widthOr t)
    addr regs shared i sp a
  | .st .param .. => .error "st.param"
  | .st sp t a v => do
    src regs shared v (widthOr t)
    addr regs shared i sp a
  | .atom sp _ t d a b => do
    data regs d (widthOr t)
    src regs shared b (widthOr t)
    addr regs shared i sp a
  | .cas sp t d a b c => do
    data regs d (widthOr t)
    src regs shared b (widthOr t)
    src regs shared c (widthOr t)
    addr regs shared i sp a
  | .red sp _ t a b => do
    src regs shared b (widthOr t)
    addr regs shared i sp a
  | .bar => .ok ()
  | .bra _ l => if labels.any (fun m => m.1 = l) then .ok () else .error ("undefined label " ++ l)
  | .ret | .exit => .ok ()
  | .fbin _ _ _ _ t d a b | .fminmax _ _ _ t d a b => do
    data regs d (widthOr t)
    src regs shared a (widthOr t)
    src regs shared b (widthOr t)
  | .ffma _ _ _ t d a b c => do
    data regs d (widthOr t)
    src regs shared a (widthOr t)
    src regs shared b (widthOr t)
    src regs shared c (widthOr t)
  | .fsqrt _ _ t d a | .frcp _ _ t d a | .fneg _ t d a | .fabs _ t d a => do
    data regs d (widthOr t)
    src regs shared a (widthOr t)
  | .fsetp _ _ t d a b => do
    pred regs d
    src regs shared a (widthOr t)
    src regs shared b (widthOr t)
  | .cvtF dt st _ _ _ d a => do
    data regs d (widthOr dt)
    src regs shared a (widthOr st)

def usedAt (u : String × Ty) : Except String Unit :=
  match regs.lookup u.1 with
  | some dt =>
    if compatible dt u.2 then .ok ()
    else .error ("register " ++ u.1 ++ " (." ++ dt.name ++ ") used at ." ++ u.2.name)
  | none => .ok ()

/-- A barrier and a uniform branch are executed by every thread of the block. -/
def guardOk (s : Stmt) : Except String Unit :=
  match s.guard, s.instr with
  | some _, .bar => .error "predicated bar.sync"
  | some _, .bra true _ => .error "predicated bra.uni"
  | _, _ => .ok ()

def checkStmt (s : Stmt) : Except String Unit := do
  match s.guard with
  | some g => pred regs g.pred
  | none => .ok ()
  typesOk s.instr
  operandsOk s.instr
  (typedUses s.instr).forM (usedAt regs)
  guardOk s
  usesOk regs params shared labels s.instr
end

/-- Declared registers, parameters and labels used at the right types. The lines
    are those of the statements. -/
def check (k : Kernel) (lines : List ℕ) : Except CheckError Unit := do
  let regs ← declareRegs k.name k.regs
  let shared ← k.shared.foldlM (declareShared k.name regs k.params) []
  let _ ← k.labels.foldlM (declareLabel k.name) []
  (k.body.zip lines).forM fun (s, line) =>
    (checkStmt regs k.params shared k.labels s).mapError (CheckError.at line)

/-- The declarations agree with each other and every statement agrees with
    them. -/
def Checked (k : Kernel) (regs : Regs) (shared : List String) : Prop :=
  declareRegs k.name k.regs = .ok regs ∧
    k.shared.foldlM (declareShared k.name regs k.params) [] = .ok shared ∧
    (∃ seen, k.labels.foldlM (declareLabel k.name) [] = .ok seen) ∧
    ∀ s ∈ k.body, checkStmt regs k.params shared k.labels s = .ok ()

/-- The lines only tell where an error is. -/
theorem check_iff {k : Kernel} {lines : List ℕ} (length : lines.length = k.body.length) :
    check k lines = .ok () ↔ ∃ regs shared, Checked k regs shared := by
  have body {regs : Regs} {shared : List String} :
      ((k.body.zip lines).forM fun (s, line) =>
        (checkStmt regs k.params shared k.labels s).mapError (CheckError.at line)) = .ok () ↔
      ∀ s ∈ k.body, checkStmt regs k.params shared k.labels s = .ok () := by
    have mapped {x : Except String Unit} {line : ℕ} : x.mapError (CheckError.at line) = .ok () ↔ x = .ok () := by
      cases x <;> simp [Except.mapError]
    rw [forM_ok_iff]
    constructor
    · intro each s member
      obtain ⟨i, inside, rfl⟩ := List.getElem_of_mem member
      exact mapped.mp (each (k.body[i], lines[i]) (List.mem_iff_getElem.mpr
        ⟨i, by rw [List.length_zip, length, Nat.min_self]; exact inside, List.getElem_zip⟩))
    · rintro each ⟨s, line⟩ member
      exact mapped.mpr (each s (List.of_mem_zip member).1)
  simp only [check, bind_ok_iff, body, Checked]
  constructor
  · rintro ⟨regs, declared, shared, vars, seen, labels, statements⟩
    exact ⟨regs, shared, declared, vars, ⟨seen, labels⟩, statements⟩
  · rintro ⟨regs, shared, declared, vars, ⟨seen, labels⟩, statements⟩
    exact ⟨regs, declared, shared, vars, seen, labels, statements⟩

end E5r.PtxChecker
