import E5r.PtxLexer
import E5r.PtxPrinter

/-!
The tokens of a module. Every instruction is an opcode, a word of parts with
dots between them, and arguments with commas between them.
-/
namespace E5r.PtxForms
open PtxSyntax PtxLexer

/-- An integer with its sign. -/
def intToks (v : ℤ) : List Tok := if v < 0 then [.punct '-', .int (-v)] else [.int v]

def operandToks : Operand → List Tok
  | .reg r => [.word r]
  | .imm v => intToks v
  | .sreg s => [.word (PtxPrinter.sreg s)]
  | .sym n => [.word n]
  | .fimm v w => [.float v w]

def offsetToks : Option ℤ → List Tok
  | none => []
  | some v => .punct '+' :: intToks v

def addressToks : Address → List Tok
  | .reg n off | .param n off => [.punct '[', .word n] ++ offsetToks off ++ [.punct ']']

/-- A register or a label, an operand or an address. -/
inductive Arg where
  | name (n : String)
  | operand (o : Operand)
  | address (a : Address)

def Arg.toks : Arg → List Tok
  | .name n => [.word n]
  | .operand o => operandToks o
  | .address a => addressToks a

def Arg.text : Arg → String
  | .name n => n
  | .operand o => PtxPrinter.operand o
  | .address a => PtxPrinter.address a

def commaToks : List Arg → List Tok
  | [] => []
  | [a] => a.toks
  | a :: rest => a.toks ++ .punct ',' :: commaToks rest

/-- The arguments of an instruction as they are written. -/
def args : Instr → List Arg
  | .bin _ _ d a b | .fbin _ _ _ _ _ d a b | .fminmax _ _ _ _ d a b | .setp _ _ d a b | .fsetp _ _ _ d a b =>
    [.name d, .operand a, .operand b]
  | .madLo _ d a b c | .ffma _ _ _ _ d a b c => [.name d, .operand a, .operand b, .operand c]
  | .not _ d a | .mov _ d a | .cvt _ _ d a | .cvtaGlobal d a | .fsqrt _ _ _ d a | .frcp _ _ _ d a | .fneg _ _ d a
  | .fabs _ _ d a | .cvtF _ _ _ _ _ d a => [.name d, .operand a]
  | .selp _ d a b p => [.name d, .operand a, .operand b, .name p]
  | .ld _ _ d a => [.name d, .address a]
  | .st _ _ a v => [.address a, .operand v]
  | .bra _ l => [.name l]
  | .ret | .exit => []
  | .atom _ _ _ d a b => [.name d, .address a, .operand b]
  | .cas _ _ d a b c => [.name d, .address a, .operand b, .operand c]
  | .red _ _ _ a b => [.address a, .operand b]
  | .bar => [.operand (.imm 0)]

def binParts : BinOp → List String
  | .mulLo => ["mul", "lo"]
  | .mulWide => ["mul", "wide"]
  | b => [b.opcode]

/-- The modifiers of a float instruction in their order. -/
def modParts (ftz sat nan : Bool) : List String :=
  (if ftz then ["ftz"] else []) ++ (if sat then ["sat"] else []) ++ (if nan then ["NaN"] else [])

def cvtRndParts : CvtRnd → List String
  | .none => []
  | .f m => [m.name]
  | .i m => [m.name ++ "i"]

def opParts : Instr → List String
  | .bin b t .. => binParts b ++ [t.name]
  | .madLo t .. => ["mad", "lo", t.name]
  | .not t .. => ["not", t.name]
  | .mov t .. => ["mov", t.name]
  | .setp c t .. => ["setp", c.name, t.name]
  | .selp t .. => ["selp", t.name]
  | .cvt dt st .. => ["cvt", dt.name, st.name]
  | .cvtaGlobal .. => ["cvta", "to", "global", "u64"]
  | .ld sp t .. => ["ld", sp.name, t.name]
  | .st sp t .. => ["st", sp.name, t.name]
  | .bra false _ => ["bra"]
  | .bra true _ => ["bra", "uni"]
  | .ret => ["ret"]
  | .exit => ["exit"]
  | .atom sp o t .. => ["atom", sp.name, o.name, t.name]
  | .cas sp t .. => ["atom", sp.name, "cas", t.name]
  | .red sp o t .. => ["red", sp.name, o.name, t.name]
  | .bar => ["bar", "sync"]
  | .fbin op m ftz sat t .. => op.name :: m.name :: modParts ftz sat false ++ [t.name]
  | .ffma m ftz sat t .. => "fma" :: m.name :: modParts ftz sat false ++ [t.name]
  | .fsqrt m ftz t .. => "sqrt" :: m.name :: modParts ftz false false ++ [t.name]
  | .frcp m ftz t .. => "rcp" :: m.name :: modParts ftz false false ++ [t.name]
  | .fneg ftz t .. => "neg" :: modParts ftz false false ++ [t.name]
  | .fabs ftz t .. => "abs" :: modParts ftz false false ++ [t.name]
  | .fminmax mx ftz nan t .. => (if mx then "max" else "min") :: modParts ftz false nan ++ [t.name]
  | .fsetp c ftz t .. => "setp" :: c.name :: modParts ftz false false ++ [t.name]
  | .cvtF dt st r ftz sat .. => "cvt" :: cvtRndParts r ++ modParts ftz sat false ++ [dt.name, st.name]

def joinDot (parts : List String) : String := String.ofList (['.'].intercalate (parts.map String.toList))

def instrToks (i : Instr) : List Tok := .word (joinDot (opParts i)) :: commaToks (args i)

def guardToks : Option Guard → List Tok
  | none => []
  | some ⟨pred, false⟩ => [.punct '@', .word pred]
  | some ⟨pred, true⟩ => [.punct '@', .punct '!', .word pred]

def stmtToks (s : Stmt) : List Tok := guardToks s.guard ++ instrToks s.instr ++ [.punct ';']

def countToks (left right : Char) : Option ℕ → List Tok
  | none => []
  | some n => [.punct left, .int n, .punct right]

def alignToks : Option ℕ → List Tok
  | none => []
  | some a => [.word ".align", .int a]

def regDeclToks (r : RegDecl) : List Tok :=
  [.word ".reg", .word ("." ++ r.ty.name), .word r.name] ++ countToks '<' '>' r.count ++ [.punct ';']

def sharedDeclToks (d : SharedDecl) : List Tok :=
  .word ".shared" :: alignToks d.align ++ [.word ("." ++ d.elem), .word d.name] ++ countToks '[' ']' d.count ++
    [.punct ';']

def declToks (regs : List RegDecl) (shared : List SharedDecl) : Decl → List Tok
  | .reg i => (regs[i]?).elim [] regDeclToks
  | .shared i => (shared[i]?).elim [] sharedDeclToks

def paramToks (p : String × Ty) : List Tok := [.word ".param", .word ("." ++ p.2.name), .word p.1]

def paramsToks : List (String × Ty) → List Tok
  | [] => []
  | [p] => paramToks p
  | p :: rest => paramToks p ++ .punct ',' :: paramsToks rest

def labelsToks (labels : List (String × ℕ)) (i : ℕ) : List Tok :=
  (labels.filter (fun l => l.2 = i)).flatMap (fun l => [.word l.1, .punct ':'])

def bodyToks (labels : List (String × ℕ)) (i : ℕ) : List Stmt → List Tok
  | [] => labelsToks labels i
  | s :: rest => labelsToks labels i ++ stmtToks s ++ bodyToks labels (i + 1) rest

def kernelToks (k : Kernel) : List Tok :=
  (if k.visible then [.word ".visible"] else []) ++ [.word ".entry", .word k.name, .punct '('] ++
    paramsToks k.params ++ [.punct ')', .punct '{'] ++ k.decls.flatMap (declToks k.regs k.shared) ++
    bodyToks k.labels 0 k.body ++ [.punct '}']

def moduleToks (m : Module) : List Tok :=
  [.word ".version", .num m.version, .word ".target", .word m.target, .word ".address_size", .int m.addressSize] ++
    m.kernels.flatMap kernelToks

end E5r.PtxForms
