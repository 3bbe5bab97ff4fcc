import E5r.PtxLexer
import E5r.PtxChecker

/-!
The parser of the subset. A parser reads tokens at a position and fails with the
line of the token it refuses. A loop of the source takes as fuel one more than
the number of tokens, since each of its rounds reads at least one.
-/
namespace E5r.PtxParser
open PtxSyntax PtxLexer
open RustText (stripPrefix splitOnce)

/-- Tokens and the position of the next one. -/
structure P where
  toks : List Token
  pos : ℕ

inductive Error where
  | lex (e : LexError)
  /-- `line {line}: {msg}` -/
  | at (line : ℕ) (msg : String)
  | check (e : PtxChecker.CheckError)

abbrev Parser := StateT P (Except Error)

def debugTok : Tok → String
  | .word w => "Word(\"" ++ w ++ "\")"
  | .int v => "Int(" ++ toString v ++ ")"
  | .num s => "Num(\"" ++ s ++ "\")"
  | .float v w => "Float(" ++ toString v.toNat ++ ", " ++ toString w ++ ")"
  | .punct c => "Punct('" ++ c.toString ++ "')"

private def debugDim : Dim → String
  | .x => "X"
  | .y => "Y"
  | .z => "Z"

def debugOperand : Operand → String
  | .reg r => "Reg(\"" ++ r ++ "\")"
  | .imm v => "Imm(" ++ toString v ++ ")"
  | .sreg (.tid d) => "Sreg(Tid(" ++ debugDim d ++ "))"
  | .sreg (.ntid d) => "Sreg(Ntid(" ++ debugDim d ++ "))"
  | .sreg (.ctaid d) => "Sreg(Ctaid(" ++ debugDim d ++ "))"
  | .sreg (.nctaid d) => "Sreg(Nctaid(" ++ debugDim d ++ "))"
  | .sym n => "Sym(\"" ++ n ++ "\")"
  | .fimm v w => "FImm(" ++ toString v.toNat ++ ", " ++ toString w ++ ")"

/-- The line of the next token, or of the last. -/
def P.line (p : P) : ℕ := ((p.toks[p.pos]?).or p.toks.getLast?).elim 0 Token.line

def err {α : Type} (msg : String) : Parser α := fun p => .error (.at p.line msg)

/-- Fail at the token just read. -/
def errBack {α : Type} (msg : String) : Parser α := fun p => .error (.at { p with pos := p.pos - 1 }.line msg)

def peek : Parser (Option Tok) := fun p => .ok ((p.toks[p.pos]?).map Token.tok, p)

/-- The token after the next. -/
def peekSecond : Parser (Option Tok) := fun p => .ok ((p.toks[p.pos + 1]?).map Token.tok, p)

def next : Parser Tok := fun p =>
  match p.toks[p.pos]? with
  | some t => .ok (t.tok, { p with pos := p.pos + 1 })
  | none => err "unexpected end of input" p

/-- `self.pos += n` -/
def skip (n : ℕ) : Parser Unit := fun p => .ok ((), { p with pos := p.pos + n })

def line : Parser ℕ := fun p => .ok (p.line, p)

def isPunct (c : Char) : Parser Bool := return (← peek) = some (.punct c)

def punct (c : Char) : Parser Unit := do
  let t ← next
  if t = .punct c then return ()
  else errBack ("expected '" ++ c.toString ++ "', found " ++ debugTok t)

def word : Parser String := do
  match ← next with
  | .word w => return w
  | t => errBack ("expected a name, found " ++ debugTok t)

def keyword (k : String) : Parser Unit := do
  let w ← word
  if w = k then return ()
  else errBack ("expected " ++ k ++ ", found " ++ w)

/-- A negative zero would print as a zero. -/
def int : Parser ℤ := do
  let neg ← isPunct '-'
  if neg then skip 1
  match ← next with
  | .int v =>
    if v = 0 ∧ neg then errBack "negative zero"
    else return (if neg then -v else v)
  | t => errBack ("expected an integer, found " ++ debugTok t)

def stripDot (w : String) : Option String := (stripPrefix ['.'] w.toList).map String.ofList

def tyDirective : Parser Ty := do
  let w ← word
  match (stripDot w).bind Ty.fromName with
  | some t => return t
  | none => errBack ("unsupported type " ++ w)

/-- `str::rsplit_once` at a dot. -/
def rsplitDot (w : String) : Option (String × String) :=
  (splitOnce '.' w.toList.reverse).map (fun (d, base) => (String.ofList base.reverse, String.ofList d.reverse))

def dimOf (d : String) : Option Dim :=
  match d with
  | "x" => some .x
  | "y" => some .y
  | "z" => some .z
  | _ => none

def sreg (w : String) : Option Sreg := do
  let (base, d) ← rsplitDot w
  let d ← dimOf d
  match base with
  | "%tid" => some (.tid d)
  | "%ntid" => some (.ntid d)
  | "%ctaid" => some (.ctaid d)
  | "%nctaid" => some (.nctaid d)
  | _ => none

def startsWith (c : Char) (w : String) : Bool := w.toList.head? = some c
def contains (c : Char) (w : String) : Bool := w.toList.contains c

def operand : Parser Operand := do
  match ← peek with
  | some (.float v w) =>
    skip 1
    return .fimm v w
  | some (.int _) => return .imm (← int)
  | some (.punct '-') => return .imm (← int)
  | _ =>
    let w ← word
    match sreg w with
    | some s => return .sreg s
    | none =>
      if startsWith '%' w then
        -- any other register with a dot is a special register outside the subset
        if contains '.' w then errBack ("unsupported special register " ++ w)
        else return .reg w
      else if startsWith '.' w ∨ contains '.' w then errBack ("unsupported operand " ++ w)
      else return .sym w

def reg : Parser String := do
  match ← operand with
  | .reg r => return r
  | o => errBack ("expected a register, found " ++ debugOperand o)

def offset : Parser (Option ℤ) := do
  if ← isPunct '+' then
    skip 1
    return some (← int)
  else return none

def address : Parser Address := do
  punct '['
  let w ← word
  let off ← offset
  punct ']'
  if startsWith '%' w then
    if (sreg w).isSome ∨ contains '.' w then err "special register as an address"
    else return .reg w off
  else return .param w off

def comma : Parser Unit := punct ','

inductive ModKind where
  | rnd | ftz | sat | nan
deriving DecidableEq

/-- The place of a modifier in the order the ISA writes them. -/
def ModKind.order : ModKind → ℕ
  | rnd => 0
  | ftz => 1
  | sat => 2
  | nan => 3

/-- Which rounding modifiers an opcode takes. -/
inductive RoundSet where
  | f | fi
deriving DecidableEq

def modKind (round : RoundSet) (m : String) : Option ModKind :=
  match m with
  | "rn" | "rz" | "rm" | "rp" => some .rnd
  | "rni" | "rzi" | "rmi" | "rpi" => if round = .fi then some .rnd else none
  | "ftz" => some .ftz
  | "sat" => some .sat
  | "NaN" => some .nan
  | _ => none

/-- The modifiers of a float instruction. -/
structure Mods where
  rnd : Option String
  ftz : Bool
  sat : Bool
  nan : Bool

/-- The modifiers between opcode and type, each at most once and in order. -/
def floatModsFrom (round : RoundSet) (allow : List ModKind) : ℕ → Mods → List String → Except String Mods
  | _, acc, [] => .ok acc
  | least, acc, m :: rest =>
    match modKind round m with
    | none => .error ("modifier ." ++ m)
    | some kind =>
      if kind ∉ allow then .error ("modifier ." ++ m)
      else if kind.order < least then .error ("modifiers out of order or repeated at ." ++ m)
      else
        let acc :=
          match kind with
          | .rnd => { acc with rnd := some m }
          | .ftz => { acc with ftz := true }
          | .sat => { acc with sat := true }
          | .nan => { acc with nan := true }
        floatModsFrom round allow (kind.order + 1) acc rest

def floatMods (mods : List String) (round : RoundSet) (allow : List ModKind) : Except String Mods :=
  floatModsFrom round allow 0 ⟨none, false, false, false⟩ mods

/-- The rounding mode of a spelling with or without the final `i`. -/
def rmode (s : String) : RMode :=
  (RMode.fromName (String.ofList (s.toList.rdropWhile (· = 'i')))).getD .rn

def floatTy (s : String) : Ty := if s = "f32" then .f32 else .f64

def unsup (op m : String) : Parser Instr := err (op ++ ": " ++ m)

def rounded (opc : String) : Bool := ["add", "sub", "mul", "fma", "div", "sqrt", "rcp"].contains opc

/-- The modifiers that an opcode takes at a type. -/
def allowedMods (opc : String) (ty : Ty) : List ModKind :=
  if ["add", "sub", "mul", "fma"].contains opc && ty = .f32 then [.rnd, .ftz, .sat]
  else if ["div", "sqrt", "rcp"].contains opc && ty = .f32 then [.rnd, .ftz]
  else if rounded opc then [.rnd]
  else if ["neg", "abs"].contains opc && ty = .f32 then [.ftz]
  else if ["min", "max"].contains opc && ty = .f32 then [.ftz, .nan]
  else []

def fbinOf (opc : String) : FBin :=
  match opc with
  | "add" => .add
  | "sub" => .sub
  | "mul" => .mul
  | _ => .div

def floatOperands (opc : String) (m : RMode) (mods : Mods) (ty : Ty) : Parser Instr := do
  let d ← reg
  comma
  let a ← operand
  if opc = "sqrt" then return .fsqrt m mods.ftz ty d a
  else if opc = "rcp" then return .frcp m mods.ftz ty d a
  else if opc = "neg" then return .fneg mods.ftz ty d a
  else if opc = "abs" then return .fabs mods.ftz ty d a
  else
    comma
    let b ← operand
    if opc = "fma" then
      comma
      let c ← operand
      return .ffma m mods.ftz mods.sat ty d a b c
    else if opc = "min" ∨ opc = "max" then return .fminmax (opc = "max") mods.ftz mods.nan ty d a b
    else return .fbin (fbinOf opc) m mods.ftz mods.sat ty d a b

def floatArith (op opc last : String) (mods : List String) : Parser Instr :=
  let ty := floatTy last
  if mods.any (fun m => m = "approx" ∨ m = "full") then
    unsup op "approximate instructions are not modelled (no exact specification)"
  else
    match floatMods mods .f (allowedMods opc ty) with
    | .error e => unsup op e
    | .ok ms =>
      if rounded opc ∧ ms.rnd = none then
        unsup op
          (if ["add", "sub", "mul"].contains opc then
            "no rounding modifier: ptxas may fuse it with a mul into an fma (PTX ISA), so its result is not determined; write .rn"
          else "a rounding modifier is required")
      else floatOperands opc ((ms.rnd.map rmode).getD .rn) ms ty

def floatSetp (op last : String) (cmp : String) (mods : List String) : Parser Instr :=
  let ty := floatTy last
  match FCmp.fromName cmp with
  | none => unsup op ("comparison ." ++ cmp)
  | some c =>
    match floatMods mods .f (if ty = .f32 then [.ftz] else []) with
    | .error e => unsup op e
    | .ok ms => do
      let d ← reg
      comma
      let a ← operand
      comma
      let b ← operand
      return .fsetp c ms.ftz ty d a b

def cvtRndOf : Option String → CvtRnd
  | none => .none
  | some s => if s.toList.getLast? = some 'i' then .i (rmode s) else .f (rmode s)

/-- Which rounding each combination of types takes. -/
def cvtForm (dt st : Ty) (rnd : CvtRnd) : Bool :=
  match dt.isFloat, st.isFloat, rnd with
  | false, true, .i _ => dt.isInt
  | true, false, .f _ => st.isInt
  | true, true, .i _ => dt = st
  | true, true, .f _ => dt = .f32 && st = .f64
  | true, true, .none => dt = .f64 && st = .f32
  | _, _, _ => false

def floatCvt (op : String) (dt st : Ty) (mods : List String) : Parser Instr :=
  match floatMods mods .fi [.rnd, .ftz, .sat] with
  | .error e => unsup op e
  | .ok ms =>
    let rnd := cvtRndOf ms.rnd
    if !cvtForm dt st rnd then unsup op "rounding modifier or types outside the subset"
    else if ms.ftz && dt ≠ .f32 && st ≠ .f32 then unsup op ".ftz needs an .f32 side"
    else do
      let d ← reg
      comma
      let a ← operand
      return .cvtF dt st rnd ms.ftz ms.sat d a

def isFloatName (s : String) : Bool := s = "f32" || s = "f64"

def floatInstr (op : String) (parts : List String) : Option (Parser Instr) :=
  match parts with
  | [] => none
  | opc :: rest =>
    match rest.getLast? with
    | none => none
    | some last =>
      if ["add", "sub", "mul", "div", "fma", "sqrt", "rcp", "neg", "abs", "min", "max"].contains opc ∧
          isFloatName last then
        some (floatArith op opc last rest.dropLast)
      else if opc = "setp" ∧ isFloatName last ∧ 2 ≤ rest.length then
        some (floatSetp op last (rest.headD "") (rest.tail.dropLast))
      else if opc = "cvt" ∧ 2 ≤ rest.length then
        match Ty.fromName (rest.dropLast.getLastD ""), Ty.fromName last with
        | some dt, some st =>
          if !dt.isFloat && !st.isFloat then none else some (floatCvt op dt st rest.dropLast.dropLast)
        | _, _ => none
      else none

def ty (op s : String) : Parser Ty :=
  match Ty.fromName s with
  | some t => if t ≠ .pred then return t else err ("unsupported type ." ++ s ++ " in " ++ op)
  | none => err ("unsupported type ." ++ s ++ " in " ++ op)

def bin (op : String) (b : BinOp) (t : String) : Parser Instr := do
  let t ← ty op t
  let d ← reg
  comma
  let x ← operand
  comma
  let y ← operand
  return .bin b t d x y

def dataSpace (sp : String) : Option Space :=
  match sp with
  | "global" => some .global
  | "shared" => some .shared
  | _ => none

def unsupported (op : String) : Parser Instr := errBack ("unsupported instruction " ++ op)

def atom (op : String) (sp : Space) (o t : String) : Parser Instr := do
  let t ← ty op t
  let d ← reg
  comma
  let a ← address
  comma
  let b ← operand
  if o = "cas" then
    comma
    let c ← operand
    return .cas sp t d a b c
  else
    match AtomOp.fromName o with
    | some o => return .atom sp o t d a b
    | none => err ("unsupported instruction " ++ op)

def red (op : String) (sp : Space) (o t : String) : Parser Instr :=
  match AtomOp.fromName o with
  | some .exch | none => err ("unsupported instruction " ++ op)
  | some o => do
    let t ← ty op t
    let a ← address
    comma
    let b ← operand
    return .red sp o t a b

/-- The rest of an integer, memory or control instruction after its opcode. -/
def plainInstr (op : String) (parts : List String) : Parser Instr :=
  match parts with
  | ["add", t] => bin op .add t
  | ["sub", t] => bin op .sub t
  | ["mul", "lo", t] => bin op .mulLo t
  | ["mul", "wide", t] => bin op .mulWide t
  | ["and", t] => bin op .and t
  | ["or", t] => bin op .or t
  | ["xor", t] => bin op .xor t
  | ["shl", t] => bin op .shl t
  | ["shr", t] => bin op .shr t
  | ["mad", "lo", t] => do
    let t ← ty op t
    let d ← reg
    comma
    let a ← operand
    comma
    let b ← operand
    comma
    let c ← operand
    return .madLo t d a b c
  | ["not", t] => do
    let t ← ty op t
    let d ← reg
    comma
    let a ← operand
    return .not t d a
  | ["mov", t] => do
    let t ← ty op t
    let d ← reg
    comma
    let a ← operand
    return .mov t d a
  | ["setp", c, t] =>
    match CmpOp.fromName c with
    | none => err ("unsupported " ++ op)
    | some c => do
      let t ← ty op t
      let d ← reg
      comma
      let a ← operand
      comma
      let b ← operand
      return .setp c t d a b
  | ["selp", t] => do
    let t ← ty op t
    let d ← reg
    comma
    let a ← operand
    comma
    let b ← operand
    comma
    let p ← reg
    return .selp t d a b p
  | ["cvt", dt, st] => do
    let dt ← ty op dt
    let st ← ty op st
    let d ← reg
    comma
    let a ← operand
    return .cvt dt st d a
  | ["cvta", "to", "global", "u64"] => do
    let d ← reg
    comma
    let a ← operand
    return .cvtaGlobal d a
  | ["ld", sp, t] =>
    match (if sp = "param" then some .param else dataSpace sp) with
    | none => err ("unsupported " ++ op)
    | some sp => do
      let t ← ty op t
      let d ← reg
      comma
      let a ← address
      return .ld sp t d a
  | ["st", sp, t] =>
    match dataSpace sp with
    | none => unsupported op
    | some sp => do
      let t ← ty op t
      let a ← address
      comma
      let v ← operand
      return .st sp t a v
  | ["atom", sp, o, t] =>
    match dataSpace sp with
    | none => unsupported op
    | some sp => atom op sp o t
  | ["red", sp, o, t] =>
    match dataSpace sp with
    | none => unsupported op
    | some sp => red op sp o t
  | ["bar", "sync"] => do
    let o ← operand
    if o ≠ .imm 0 then err "only bar.sync 0 is supported"
    else if ← isPunct ',' then err "bar.sync with a thread count is not supported"
    else return .bar
  | ["bra"] => return .bra false (← word)
  | ["bra", "uni"] => return .bra true (← word)
  | ["ret"] => return .ret
  | ["exit"] => return .exit
  | _ => unsupported op

def splitDot (op : String) : List String := (op.toList.splitOn '.').map String.ofList

def guard : Parser (Option Guard) := do
  if ← isPunct '@' then
    skip 1
    let neg ← isPunct '!'
    if neg then skip 1
    let pred ← reg
    return some ⟨pred, neg⟩
  else return none

def stmt : Parser Stmt := do
  let guard ← guard
  let op ← word
  let instr ← (floatInstr op (splitDot op)).getD (plainInstr op (splitDot op))
  punct ';'
  return ⟨guard, instr⟩

/-- `u32::try_from` -/
def toU32 (n : ℤ) : Option ℕ := if 0 ≤ n ∧ n < 2 ^ 32 then some n.toNat else none

/-- The `<n>` of a register declaration. -/
def regCount : Parser (Option ℕ) := do
  if ← isPunct '<' then
    skip 1
    let n ← int
    punct '>'
    match toU32 n with
    | some n => return some n
    | none => err "bad register count"
  else return none

/-- A register declaration after `.reg`. -/
def regDecl : Parser RegDecl := do
  let ty ← tyDirective
  let name ← word
  let count ← regCount
  if ← isPunct ',' then err "one register declaration per .reg"
  else
    punct ';'
    return ⟨ty, name, count⟩

def alignments : List ℤ := [1, 2, 4, 8, 16, 32, 64, 128, 256]

def sharedAlign : Parser (Option ℕ) := do
  if (← peek) = some (.word ".align") then
    skip 1
    let a ← int
    if a ∈ alignments then return some a.toNat else err ("bad .align " ++ toString a)
  else return none

def sharedElem : Parser String := do
  let w ← word
  match stripDot w with
  | some e =>
    if (SharedDecl.elemBytes e).isSome then return e else errBack ("unsupported .shared element type " ++ w)
  | none => errBack ("unsupported .shared element type " ++ w)

def sharedCount : Parser (Option ℕ) := do
  if ← isPunct '[' then
    skip 1
    if ← isPunct ']' then err ".shared array without a size"
    else
      let n ← int
      punct ']'
      match toU32 n with
      | some k => if 0 < k then return some k else err ("bad .shared array size " ++ toString n)
      | none => err ("bad .shared array size " ++ toString n)
  else return none

/-- A shared variable after `.shared`, without initialiser. -/
def sharedDecl : Parser SharedDecl := do
  let align ← sharedAlign
  let elem ← sharedElem
  let name ← word
  if startsWith '%' name ∨ startsWith '.' name then errBack ("bad .shared name " ++ name)
  else
    let count ← sharedCount
    if ← isPunct '=' then err "one .shared variable per declaration, without initialiser"
    else if ← isPunct ',' then err "one .shared variable per declaration, without initialiser"
    else
      punct ';'
      let d : SharedDecl := ⟨align, elem, name, count⟩
      if d.size > 48 * 1024 then
        err ("static .shared " ++ d.name ++ " of " ++ toString d.size ++ " bytes exceeds 48 KB")
      else return d

/-- The declarations at the head of a body. -/
def declsLoop : ℕ → List RegDecl → List SharedDecl → List Decl →
    Parser (List RegDecl × List SharedDecl × List Decl)
  | 0, _, _, _ => err "unexpected end of input"
  | fuel + 1, regs, shared, decls => do
    let t ← peek
    if t = some (.word ".reg") then
      skip 1
      let r ← regDecl
      declsLoop fuel (regs ++ [r]) shared (decls ++ [.reg regs.length])
    else if t = some (.word ".shared") then
      skip 1
      let d ← sharedDecl
      declsLoop fuel regs (shared ++ [d]) (decls ++ [.shared shared.length])
    else return (regs, shared, decls)

def param : Parser (String × Ty) := do
  keyword ".param"
  let ty ← tyDirective
  if ty = .pred then err ".pred parameter"
  else
    let n ← word
    if startsWith '.' n then errBack ("unsupported parameter attribute " ++ n)
    else return (n, ty)

def paramsLoop : ℕ → List (String × Ty) → Parser (List (String × Ty))
  | 0, _ => err "unexpected end of input"
  | fuel + 1, params => do
    let p ← param
    if ← isPunct ',' then
      skip 1
      paramsLoop fuel (params ++ [p])
    else return params ++ [p]

/-- Statements and labels up to the closing brace, with the line of each
    statement. -/
def bodyLoop : ℕ → List Stmt → List (String × ℕ) → List ℕ →
    Parser (List Stmt × List (String × ℕ) × List ℕ)
  | 0, _, _, _ => err "unexpected end of input"
  | fuel + 1, body, labels, lines => do
    let t ← peek
    if t = some (.punct '}') then
      skip 1
      return (body, labels, lines)
    else
      let u ← peekSecond
      match t, u with
      | some (.word w), some (.punct ':') =>
        skip 2
        bodyLoop fuel body (labels ++ [(w, body.length)]) lines
      | _, _ =>
        let l ← line
        let s ← stmt
        bodyLoop fuel (body ++ [s]) labels (lines ++ [l])

def rounds : Parser ℕ := fun p => .ok (p.toks.length + 1, p)

def check (k : Kernel) (lines : List ℕ) : Parser Unit := fun p =>
  match PtxChecker.check k lines with
  | .ok () => .ok ((), p)
  | .error e => .error (.check e)

def params : Parser (List (String × Ty)) := do
  if ← isPunct ')' then return []
  else paramsLoop (← rounds) []

def entry (visible : Bool) : Parser Kernel := do
  keyword ".entry"
  let name ← word
  punct '('
  let ps ← params
  punct ')'
  punct '{'
  let (regs, shared, decls) ← declsLoop (← rounds) [] [] []
  let (body, labels, lines) ← bodyLoop (← rounds) [] [] []
  let k : Kernel := ⟨visible, name, ps, regs, shared, decls, body, labels⟩
  check k lines
  return k

def kernel : Parser Kernel := do
  if (← peek) = some (.word ".visible") then
    skip 1
    entry true
  else entry false

def kernelsLoop : ℕ → List Kernel → Parser (List Kernel)
  | 0, _ => err "unexpected end of input"
  | fuel + 1, kernels => do
    if (← peek).isSome then
      let k ← kernel
      kernelsLoop fuel (kernels ++ [k])
    else return kernels

def version : Parser String := do
  match ← next with
  | .num v => return v
  | t => err ("expected a version, found " ++ debugTok t)

def module : Parser Module := do
  keyword ".version"
  let version ← version
  keyword ".target"
  let target ← word
  if ← isPunct ',' then err "only a single .target is supported"
  else
    keyword ".address_size"
    let addressSize ← int
    if addressSize ≠ 64 then err "only .address_size 64 is supported"
    else
      let kernels ← kernelsLoop (← rounds) []
      if kernels.isEmpty then err "no .entry"
      else return ⟨version, target, 64, kernels⟩

def parseModule (src : String) : Except Error Module :=
  match lex src with
  | .error e => .error (.lex e)
  | .ok toks => (module ⟨toks, 0⟩).map Prod.fst

def readChars (cs : List Char) : Except Error Module :=
  match lexFrom cs.length 1 cs with
  | .error e => .error (.lex e)
  | .ok toks => (module ⟨toks, 0⟩).map Prod.fst

theorem parseModule_chars {src : String} {cs : List Char} (chars : src.toList = cs) :
    parseModule src = readChars cs := by
  rw [← chars]
  rfl

end E5r.PtxParser
