import E5r.PtxSyntax

/-!
Canonical PTX text for a parsed module.
-/
namespace E5r.PtxPrinter
open PtxSyntax

def dim : Dim → String
  | .x => "x"
  | .y => "y"
  | .z => "z"

/-- `%tid.x` and so on. -/
def sreg : Sreg → String
  | .tid d => "%tid" ++ "." ++ dim d
  | .ntid d => "%ntid" ++ "." ++ dim d
  | .ctaid d => "%ctaid" ++ "." ++ dim d
  | .nctaid d => "%nctaid" ++ "." ++ dim d

/-- A number in upper-case hex, padded with zeros to `width` digits. -/
def hexUpper (width v : ℕ) : String :=
  String.ofList (((Nat.toDigits 16 v).map Char.toUpper).leftpad width '0')

def operand : Operand → String
  | .reg r => r
  | .imm v => toString v
  | .sreg s => sreg s
  | .sym n => n
  | .fimm v w => if w = 32 then "0f" ++ hexUpper 8 v.toNat else "0d" ++ hexUpper 16 v.toNat

def mods (ftz sat : Bool) : String := (if ftz then ".ftz" else "") ++ (if sat then ".sat" else "")

def cvtRnd : CvtRnd → String
  | .none => ""
  | .f m => "." ++ m.name
  | .i m => "." ++ m.name ++ "i"

def address (a : Address) : String :=
  let (n, off) :=
    match a with
    | .reg n off => (n, off)
    | .param n off => (n, off)
  match off with
  | none => "[" ++ n ++ "]"
  | some v => "[" ++ n ++ "+" ++ toString v ++ "]"

def instr : Instr → String
  | .bin b t d x y => b.opcode ++ "." ++ t.name ++ " \t" ++ d ++ ", " ++ operand x ++ ", " ++ operand y
  | .madLo t d a b c =>
    "mad.lo." ++ t.name ++ " \t" ++ d ++ ", " ++ operand a ++ ", " ++ operand b ++ ", " ++ operand c
  | .not t d a => "not." ++ t.name ++ " \t" ++ d ++ ", " ++ operand a
  | .mov t d a => "mov." ++ t.name ++ " \t" ++ d ++ ", " ++ operand a
  | .setp c t d a b =>
    "setp." ++ c.name ++ "." ++ t.name ++ " \t" ++ d ++ ", " ++ operand a ++ ", " ++ operand b
  | .selp t d a b p => "selp." ++ t.name ++ " \t" ++ d ++ ", " ++ operand a ++ ", " ++ operand b ++ ", " ++ p
  | .cvt dt st d a => "cvt." ++ dt.name ++ "." ++ st.name ++ " \t" ++ d ++ ", " ++ operand a
  | .cvtaGlobal d a => "cvta.to.global.u64 \t" ++ d ++ ", " ++ operand a
  | .ld sp t d a => "ld." ++ sp.name ++ "." ++ t.name ++ " \t" ++ d ++ ", " ++ address a
  | .st sp t a v => "st." ++ sp.name ++ "." ++ t.name ++ " \t" ++ address a ++ ", " ++ operand v
  | .bra false l => "bra \t" ++ l
  | .bra true l => "bra.uni \t" ++ l
  | .ret => "ret"
  | .exit => "exit"
  | .atom sp op t d a b =>
    "atom." ++ sp.name ++ "." ++ op.name ++ "." ++ t.name ++ " \t" ++ d ++ ", " ++ address a ++ ", " ++ operand b
  | .cas sp t d a b c =>
    "atom." ++ sp.name ++ ".cas." ++ t.name ++ " \t" ++ d ++ ", " ++ address a ++ ", " ++ operand b ++ ", " ++
      operand c
  | .red sp op t a b =>
    "red." ++ sp.name ++ "." ++ op.name ++ "." ++ t.name ++ " \t" ++ address a ++ ", " ++ operand b
  | .bar => "bar.sync \t0"
  | .fbin op m ftz sat t d a b =>
    op.name ++ "." ++ m.name ++ mods ftz sat ++ "." ++ t.name ++ " \t" ++ d ++ ", " ++ operand a ++ ", " ++ operand b
  | .ffma m ftz sat t d a b c =>
    "fma." ++ m.name ++ mods ftz sat ++ "." ++ t.name ++ " \t" ++ d ++ ", " ++ operand a ++ ", " ++ operand b ++
      ", " ++ operand c
  | .fsqrt m ftz t d a => "sqrt." ++ m.name ++ mods ftz false ++ "." ++ t.name ++ " \t" ++ d ++ ", " ++ operand a
  | .frcp m ftz t d a => "rcp." ++ m.name ++ mods ftz false ++ "." ++ t.name ++ " \t" ++ d ++ ", " ++ operand a
  | .fneg ftz t d a => "neg" ++ mods ftz false ++ "." ++ t.name ++ " \t" ++ d ++ ", " ++ operand a
  | .fabs ftz t d a => "abs" ++ mods ftz false ++ "." ++ t.name ++ " \t" ++ d ++ ", " ++ operand a
  | .fminmax mx ftz nan t d a b =>
    (if mx then "max" else "min") ++ mods ftz false ++ (if nan then ".NaN" else "") ++ "." ++ t.name ++ " \t" ++ d ++
      ", " ++ operand a ++ ", " ++ operand b
  | .fsetp c ftz t p a b =>
    "setp." ++ c.name ++ mods ftz false ++ "." ++ t.name ++ " \t" ++ p ++ ", " ++ operand a ++ ", " ++ operand b
  | .cvtF dt st r ftz sat d a =>
    "cvt" ++ cvtRnd r ++ mods ftz sat ++ "." ++ dt.name ++ "." ++ st.name ++ " \t" ++ d ++ ", " ++ operand a

/-- `.shared {.align a} .t name{[n]};` -/
def sharedDecl (d : SharedDecl) : String :=
  let al :=
    match d.align with
    | some a => ".align " ++ toString a ++ " "
    | none => ""
  let n :=
    match d.count with
    | some n => "[" ++ toString n ++ "]"
    | none => ""
  ".shared " ++ al ++ "." ++ d.elem ++ " " ++ d.name ++ n ++ ";"

def regDecl (r : RegDecl) : String :=
  match r.count with
  | some n => "\t.reg ." ++ r.ty.name ++ " \t" ++ r.name ++ "<" ++ toString n ++ ">;\n"
  | none => "\t.reg ." ++ r.ty.name ++ " \t" ++ r.name ++ ";\n"

/-- A declaration of a kernel; the index is in range in a parsed one. -/
def decl (k : Kernel) : Decl → String
  | .reg i =>
    match k.regs[i]? with
    | some r => regDecl r
    | none => ""
  | .shared i =>
    match k.shared[i]? with
    | some d => "\t" ++ sharedDecl d ++ "\n"
    | none => ""

def params : List (String × Ty) → String
  | [] => ""
  | [(n, t)] => "\t.param ." ++ t.name ++ " " ++ n ++ "\n"
  | (n, t) :: rest => "\t.param ." ++ t.name ++ " " ++ n ++ ",\n" ++ params rest

def labelsAt (labels : List (String × ℕ)) (i : ℕ) : String :=
  String.join ((labels.filter (fun l => l.2 = i)).map (fun l => l.1 ++ ":\n"))

def guard : Option Guard → String
  | none => ""
  | some ⟨pred, false⟩ => "@" ++ pred ++ " "
  | some ⟨pred, true⟩ => "@!" ++ pred ++ " "

/-- The statements from an index on, each after its labels. -/
def body (labels : List (String × ℕ)) (i : ℕ) : List Stmt → String
  | [] => labelsAt labels i
  | st :: rest =>
    labelsAt labels i ++ "\t" ++ guard st.guard ++ instr st.instr ++ ";\n" ++ body labels (i + 1) rest

def kernel (k : Kernel) : String :=
  "\n" ++ (if k.visible then ".visible " else "") ++ ".entry " ++ k.name ++ "(\n" ++ params k.params ++ ")\n\x7b\n" ++
    String.join (k.decls.map (decl k)) ++ "\n" ++ body k.labels 0 k.body ++ "\x7d\n"

def module (m : Module) : String :=
  ".version " ++ m.version ++ "\n" ++ ".target " ++ m.target ++ "\n" ++ ".address_size " ++ toString m.addressSize ++
    "\n" ++ String.join (m.kernels.map kernel)

end E5r.PtxPrinter
