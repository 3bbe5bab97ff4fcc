import E5r.PtxLexer
import E5r.PtxSyntax

/-!
The element expression of a map specification and its recursive-descent parser,
`Parser` of `ptx/spec.rs`. A position is an index into the characters of the text.
-/
namespace E5r.ElementModel
open RustText PtxLexer PtxSyntax

/-- `op{.rnd}{.ftz}{.sat}{.NaN}` in a float element. -/
structure FOp where
  op : String
  rnd : Option RMode
  ftz : Bool
  sat : Bool
  nan : Bool
deriving DecidableEq

inductive Expr where
  | arr (name : String)
  | scal (name : String)
  | lit (v : ℕ)
  | not (e : Expr)
  | neg (e : Expr)
  | bin (op : Char) (l r : Expr)
  | shl (e : Expr) (k : ℕ)
  | shr (e : Expr) (k : ℕ)
  | fLit (bits : ℕ)
  | fOp (f : FOp) (args : List Expr)

inductive ParseError where
  | unexpected (c : Char) (i : ℕ)
  | expectedOperand (st : ℕ)
  | unknownFloatOperation (op : String)
  | modifier (m op : String)
  | needsRounding (op : String)
  | takesOperands (op : String) (arity : ℕ)
  | missingCloseAfter (op : String)
  | notFloatOperand (w : String)
  | shiftAmount
  | missingClose
  | badLiteral (w : String)
  | doesNotFit (w : String)
  | notOperand (w : String)
deriving DecidableEq

/-- `u128::checked_pow`. -/
def checkedPow (b e : ℕ) : Option ℕ := if b ^ e < 2 ^ 128 then some (b ^ e) else none

/-- `2^k`, decimal or `0x` hex. -/
def number (t : List Char) : Option ℕ :=
  let t := trim t
  match splitOnce '^' t with
  | some (b, e) => do
    let b ← fromStrRadix 10 (2 ^ 128) (trim b)
    let e ← fromStrRadix 10 (2 ^ 32) (trim e)
    checkedPow b e
  | none =>
    match stripPrefix ['0', 'x'] t with
    | some h => fromStrRadix 16 (2 ^ 128) h
    | none => fromStrRadix 10 (2 ^ 128) t

structure Parser where
  t : List Char
  arrays : List String
  scalars : List String
  float : Bool

/-- A parse gives an expression and the position after it, or an error. It is
    `none` when its bound on the recursion is too small. -/
abbrev Parse := ExceptT ParseError Option

/-- The characters of a name or a literal. -/
def wordChar (c : Char) : Bool := isAsciiAlphanumeric c || c = '_' || c = '$'

def floatChar (c : Char) : Bool := wordChar c || c = '.'

namespace Parser

/-- `Parser::new`. -/
def new (s : String) (arrays scalars : List String) : Parser := ⟨s.toList, arrays, scalars, false⟩

variable (p : Parser)

def rest (i : ℕ) : List Char := p.t.drop i

/-- The position after the characters of a class. -/
def skip (f : Char → Bool) (i : ℕ) : ℕ := i + ((p.rest i).takeWhile f).length

def ws (i : ℕ) : ℕ := p.skip isWhitespace i

def eat (s : String) (i : ℕ) : Bool × ℕ :=
  let i := p.ws i
  if s.toList <+: p.rest i then (true, i + s.toList.length) else (false, i)

def word (f : Char → Bool) (i : ℕ) : List Char := (p.rest i).takeWhile f

def modifier (rounded : Bool) (f : FOp) (m : String) : Except ParseError FOp :=
  if m ∈ ["rn", "rz", "rm", "rp"] ∧ rounded ∧ f.rnd.isNone then .ok { f with rnd := RMode.fromName m }
  else if m = "ftz" ∧ ¬f.ftz then .ok { f with ftz := true }
  else if m = "sat" ∧ f.op ∈ ["add", "sub", "mul", "fma"] ∧ ¬f.sat then .ok { f with sat := true }
  else if m = "NaN" ∧ f.op ∈ ["min", "max"] ∧ ¬f.nan then .ok { f with nan := true }
  else .error (.modifier m f.op)

def arity (op : String) : Option ℕ :=
  if op ∈ ["add", "sub", "mul", "div", "min", "max"] then some 2
  else if op = "fma" then some 3
  else if op ∈ ["sqrt", "rcp", "neg", "abs"] then some 1
  else none

/-- The operation that a word names, with its modifiers and its arity. -/
def floatOperation (w : List Char) : Except ParseError (FOp × ℕ) := do
  let parts := (w.splitOn '.').map String.ofList
  let op := parts.headD ""
  match arity op with
  | none => throw (.unknownFloatOperation op)
  | some arity =>
    let rounded := op ∈ ["add", "sub", "mul", "div", "fma", "sqrt", "rcp"]
    let f ← parts.tail.foldlM (modifier rounded) ⟨op, none, false, false, false⟩
    if rounded && f.rnd.isNone then throw (.needsRounding op) else pure (f, arity)

/-- A word that no call follows. -/
def floatOperand (w : List Char) : Except ParseError Expr :=
  let name := String.ofList w
  if name ∈ p.arrays then .ok (.arr name)
  else if name ∈ p.scalars then .ok (.scal name)
  else .error (.notFloatOperand name)

mutual
/-- A float element: a call `op.mods(args)`, an array or scalar, or a `0f`
    literal. -/
def fexpr : ℕ → ℕ → Parse (Expr × ℕ)
  | 0, _ => ExceptT.mk none
  | fuel + 1, i => do
    let st := p.ws i
    let w := p.word floatChar st
    let i := st + w.length
    if w = [] then throw (.expectedOperand st)
    match floatValue w with
    | some (v, 32) => pure (.fLit (v.toNat % 2 ^ 32), i)
    | _ =>
      match p.eat "(" i with
      | (false, i) =>
        match p.floatOperand w with
        | .ok e => pure (e, i)
        | .error e => throw e
      | (true, i) =>
        match floatOperation w with
        | .error e => throw e
        | .ok (f, arity) => do
          let (a, i) ← fexpr fuel i
          let (args, i) ← fargs fuel f.op arity [a] i
          match p.eat ")" i with
          | (true, i) => pure (.fOp f args, i)
          | (false, _) => throw (.missingCloseAfter f.op)

/-- The operands after the first one. -/
def fargs : ℕ → String → ℕ → List Expr → ℕ → Parse (List Expr × ℕ)
  | 0, _, _, _, _ => ExceptT.mk none
  | fuel + 1, op, arity, args, i => do
    if args.length < arity then
      match p.eat "," i with
      | (false, _) => throw (.takesOperands op arity)
      | (true, i) =>
        let (a, i) ← fexpr fuel i
        fargs fuel op arity (args ++ [a]) i
    else pure (args, i)
end

/-- precedence, loosest first: | ^ & (<< >>) (+ -) * -/
def OPS : List (List String) := [["|"], ["^"], ["&"], ["+", "-"], ["*"]]

/-- The first operator of a level that stands at a position. -/
def eatOp : List String → ℕ → Option String × ℕ
  | [], i => (none, i)
  | op :: ops, i =>
    match p.eat op i with
    | (true, i) => (some op, i)
    | (false, i) => eatOp ops i

def operand (w : List Char) : Except ParseError Expr :=
  let name := String.ofList w
  if w.head?.any isAsciiDigit then
    match number w with
    | none => .error (.badLiteral name)
    | some v => if v < 2 ^ 32 then .ok (.lit v) else .error (.doesNotFit name)
  else if name ∈ p.arrays then .ok (.arr name)
  else if name ∈ p.scalars then .ok (.scal name)
  else .error (.notOperand name)

mutual
def bin : ℕ → ℕ → ℕ → Parse (Expr × ℕ)
  | 0, _, _ => ExceptT.mk none
  | fuel + 1, lvl, i =>
    if lvl = 5 then shift fuel i
    else do
      let (l, i) ← bin fuel (lvl + 1) i
      binLoop fuel lvl l i

/-- The operators of a level and their right operands. -/
def binLoop : ℕ → ℕ → Expr → ℕ → Parse (Expr × ℕ)
  | 0, _, _, _ => ExceptT.mk none
  | fuel + 1, lvl, l, i =>
    match p.eatOp (OPS.getD lvl []) i with
    | (none, i) => pure (l, i)
    | (some op, i) => do
      let (r, i) ← bin fuel (lvl + 1) i
      binLoop fuel lvl (.bin (op.toList.headD ' ') l r) i

def shift : ℕ → ℕ → Parse (Expr × ℕ)
  | 0, _ => ExceptT.mk none
  | fuel + 1, i => do
    let (l, i) ← unary fuel i
    shiftLoop fuel l i

def shiftLoop : ℕ → Expr → ℕ → Parse (Expr × ℕ)
  | 0, _, _ => ExceptT.mk none
  | fuel + 1, l, i =>
    match p.eatOp ["<<", ">>"] i with
    | (none, i) => pure (l, i)
    | (some op, i) => do
      let (k, i) ← unary fuel (p.ws i)
      match k with
      | .lit k => if k < 32 then shiftLoop fuel (if op = "<<" then .shl l k else .shr l k) i else throw .shiftAmount
      | _ => throw .shiftAmount

def unary : ℕ → ℕ → Parse (Expr × ℕ)
  | 0, _ => ExceptT.mk none
  | fuel + 1, i =>
    match p.eat "~" i with
    | (true, i) => do
      let (e, i) ← unary fuel i
      pure (.not e, i)
    | (false, i) =>
      match p.eat "-" i with
      | (true, i) => do
        let (e, i) ← unary fuel i
        pure (.neg e, i)
      | (false, i) =>
        match p.eat "(" i with
        | (true, i) => do
          let (e, i) ← bin fuel 0 i
          match p.eat ")" i with
          | (true, i) => pure (e, i)
          | (false, _) => throw .missingClose
        | (false, i) =>
          let st := p.ws i
          let w := p.word wordChar st
          if w = [] then throw (.expectedOperand st)
          else
            match p.operand w with
            | .ok e => pure (e, st + w.length)
            | .error e => throw e
end

def bound : ℕ := 16 * (p.t.length + 1)

def parse : Parse Expr := do
  let (e, i) ← if p.float then p.fexpr p.bound 0 else p.bin p.bound 0 0
  let i := p.ws i
  match p.rest i with
  | [] => pure e
  | c :: _ => throw (.unexpected c i)

end Parser

end E5r.ElementModel
