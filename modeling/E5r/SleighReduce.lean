import E5r.SleighModel

/-!
The reduction of a constructor's pattern to masks (`reduce`): the expression is
walked bottom up, keeping a list of conjunctive alternatives.
-/
namespace E5r.SleighReduce
open BitTests SleighModel

/-- The two ceilings that bound a pattern. -/
structure Limits where
  patternAlternatives : Nat
  patternBytes : Nat
deriving DecidableEq

/-- What the reducer needs to know about the specification. Fields and tokens are
    referred to by index; the parser makes only indices that exist. -/
structure Context where
  tokens : List TokenDef
  fields : List Field
  contextFields : List ContextField
  contextBytes : Nat
  operands : List OperandSource
  tableMin : List Nat
  tableMax : List Nat
  tableFixed : List Bool
  limits : Limits

inductive Bound where
  | field (id : Nat)
  | context (id : Nat)
  | subtable (id : Nat)
  | nothing
deriving DecidableEq

namespace Context

def field (ctx : Context) (id : Nat) : Field := ctx.fields[id]?.getD ⟨⟨0⟩, 0, 0, false, .none, first_bit⟩

def token (ctx : Context) (id : Nat) : TokenDef := ctx.tokens[(ctx.field id).token.index]?.getD ⟨0, .little⟩

def contextField (ctx : Context) (id : Nat) : ContextField :=
  ctx.contextFields[id]?.getD ⟨0, 0, false, false, .none, first_bit⟩

def resolve (ctx : Context) : SymbolRef → Bound
  | .field id => .field id.index
  | .context id => .context id.index
  | .table id => .subtable id.index
  | .operand i =>
    match ctx.operands[i]? with
    | some (.field id) => .field id.index
    | some (.context id) => .context id.index
    | some (.table id) => .subtable id.index
    | _ => .nothing
  | _ => .nothing

end Context

/-- One conjunctive alternative, while it is being built. -/
structure Alt where
  instr : MaskValue
  context : MaskValue
  length : Nat
  max : Nat
  /-- False when `length` is a lower bound rather than the real length. -/
  exact : Bool
  /-- Where this part of the pattern ends. -/
  stop : Offset
  residual : List PatternExpr
  offsets : List (Nat × Offset)
deriving DecidableEq

namespace Alt

def empty : Alt := ⟨⟨[]⟩, ⟨[]⟩, 0, 0, true, .absolute 0, [], []⟩

/-- Whether the bytes this part covers sit at offsets known here. -/
def placeable (a : Alt) : Bool := a.stop.isAbsolute && a.exact

end Alt

def maskOf (bits : Nat) : BitVec 64 := if bits ≥ 64 then BitVec.allOnes 64 else ((1 : BitVec 64) <<< bits) - 1

def fits (value : Int64) (bits : Nat) (signed : Bool) : Bool :=
  if bits ≥ 64 then true
  else if value < 0 ∨ signed then
    let limit := (1 : Int64) <<< Int64.ofNat (bits - 1)
    decide (value ≥ -limit) && decide (value < limit)
  else decide (value.toBitVec.toNat ≤ (maskOf bits).toNat)

/-- The bit pattern a constraint value takes in a field, or `none` when it does
    not fit. -/
def encode (field : Field) (value : Int64) : Option (BitVec 64) :=
  if fits value field.bits field.signed then some (value.toBitVec &&& maskOf field.bits) else none

def bitTest (offset : Nat) (set : Bool) : BitTest 8 :=
  ⟨(1 : BitVec 8) <<< offset, if set then (1 : BitVec 8) <<< offset else 0, by split <;> simp⟩

/-- The bits at the given positions with their bytes; `none` when one has no
    position. -/
def bitTests (position : Nat → Option (Nat × Nat)) (bits : List Nat) (value : BitVec 64) :
    Option (List (Nat × BitTest 8)) :=
  bits.zipIdx.mapM fun (bit, i) => do
    let (byte, offset) ← position bit
    pure (byte, bitTest offset (value.getLsbD (i % 64)))

def constrainAll (mv : MaskValue) (tests : List (Nat × BitTest 8)) : Option MaskValue :=
  tests.foldlM (fun mv (byte, t) => mv.constrain byte t) mv

/-- Set a field's bits in an instruction mask; `none` when they contradict what is
    already there. -/
def placeField (mv : MaskValue) (field : Field) (token : TokenDef) (value : BitVec 64) : Option MaskValue := do
  let tests ← bitTests (Field.bitPosition token) field.range value
  constrainAll mv tests

/-- The same for a context field; a bit past the register has no position. -/
def placeContext (mv : MaskValue) (field : ContextField) (value : BitVec 64) (bytes : Nat) : Option MaskValue := do
  let position (bit : Nat) :=
    if bytes ≠ 0 ∧ (ContextField.bitPosition bit).1 ≥ bytes then none else some (ContextField.bitPosition bit)
  let tests ← bitTests position field.range value
  constrainAll mv tests

/-- The alternative for a symbol's own bits, before any constraint. -/
def bare (ctx : Context) (sym : SymbolRef) : Alt :=
  let offsets := match sym with
    | .operand i => [(i, Offset.absolute 0)]
    | _ => []
  match ctx.resolve sym with
  | .field id =>
    let length := (ctx.token id).size
    { Alt.empty with length, max := length, stop := .absolute length, offsets }
  | .subtable id =>
    let length := ctx.tableMin[id]?.getD 0
    let exact := ctx.tableFixed[id]?.getD false
    let stop := match exact, sym with
      | true, _ => Offset.absolute length
      | false, .operand i => ⟨some i, 0⟩
      | false, _ => Offset.absolute length
    { Alt.empty with length, max := ctx.tableMax[id]?.getD 0, exact, stop, offsets }
  | .context _ | .nothing => { Alt.empty with offsets }

/-- A bare symbol constrains nothing but does commit the bits it covers. -/
def symbol (ctx : Context) (sym : SymbolRef) : Alt :=
  let alt := bare ctx sym
  match ctx.resolve sym, sym with
  | .nothing, .operand _ => alt
  | .nothing, _ => { alt with residual := alt.residual ++ [.symbol sym] }
  | _, _ => alt

/-- A constraint: a mask when it is `field = constant` and the constant fits, a
    residual otherwise. -/
def constraint (ctx : Context) (lhs : SymbolRef) (op : ConstraintOp) (rhs : DisasmExpr) :
    List Alt × Option Approximation :=
  let alt := bare ctx lhs
  let kept := { alt with residual := alt.residual ++ [.constraint lhs op rhs] }
  match ctx.resolve lhs with
  | .field id =>
    if alt.length > ctx.limits.patternBytes then ([alt], some .unknownTokenOffset)
    else
      match op, rhs with
      | .equal, .num v =>
        match encode (ctx.field id) v with
        | some bits =>
          match placeField alt.instr (ctx.field id) (ctx.token id) bits with
          | some instr => ([{ alt with instr }], none)
          | none => ([], none)
        | none => ([kept], none)
      | _, _ => ([kept], none)
  | .context id =>
    match op, rhs with
    | .equal, .num v =>
      let field := ctx.contextField id
      if fits v field.bits field.signed then
        match placeContext alt.context field (maskOf field.bits &&& v.toBitVec) ctx.contextBytes with
        | some context => ([{ alt with context }], none)
        | none => ([], none)
      else ([kept], none)
    | _, _ => ([kept], none)
  | .subtable _ | .nothing => ([kept], none)

/-- Which of two ends a conjunction finishes at. -/
def laterOf (a b : Alt) (length : Nat) : Offset :=
  if a.stop.base = b.stop.base then ⟨a.stop.base, Max.max a.stop.delta b.stop.delta⟩
  else
    match a.stop.base, b.stop.base with
    | some _, none => if b.stop.delta ≥ a.max then b.stop else a.stop
    | none, some _ => if a.stop.delta ≥ b.max then a.stop else b.stop
    | _, _ => .absolute length

def conjoinOne (a b : Alt) : Option Alt := do
  let instr ← a.instr.merge b.instr
  let context ← a.context.merge b.context
  let length := Max.max a.length b.length
  pure ⟨instr, context, length, Max.max a.max b.max, a.exact && b.exact, laterOf a b length,
    a.residual ++ b.residual, a.offsets ++ b.offsets⟩

def conjoin (left right : List Alt) : List Alt := left.flatMap fun a => right.filterMap fun b => conjoinOne a b

def rebase (base at_ : Offset) : Offset :=
  match at_.base with
  | none => ⟨base.base, base.delta + at_.delta⟩
  | some _ => at_

def shiftOffsets (a b : Alt) : List (Nat × Offset) :=
  a.offsets ++ b.offsets.map fun (i, at_) => (i, rebase a.stop at_)

/-- Whether the right side's bits have a known place under the ceiling. -/
def placed (cap : Nat) (a : Alt) : Bool := a.placeable && decide (a.stop.delta ≤ cap)

/-- The right side's bits go to where the left one ends. When that is not known
    here, they are dropped from the mask. -/
def concatInstr (cap : Nat) (a b : Alt) : Option MaskValue :=
  if placed cap a then a.instr.merge (b.instr.shifted a.stop.delta) else some a.instr

def concatOne (cap : Nat) (a b : Alt) : Option Alt := do
  let instr ← concatInstr cap a b
  let context ← a.context.merge b.context
  let dropped := !placed cap a && !b.instr.isEmpty
  pure ⟨instr, context, min (a.length + b.length) cap, min (a.max + b.max) cap, !dropped && (a.exact && b.exact),
    rebase a.stop b.stop, a.residual ++ b.residual, shiftOffsets a b⟩

def concat (cap : Nat) (left right : List Alt) : List Alt :=
  left.flatMap fun a => right.filterMap fun b => concatOne cap a b

/-- The alternatives collapsed to what all of them agree on. -/
def mergeAlts (first : Alt) (rest : List Alt) : Alt :=
  rest.foldl (fun merged alt =>
    let length := min merged.length alt.length
    { merged with
      instr := merged.instr.intersect alt.instr
      context := merged.context.intersect alt.context
      length
      max := Max.max merged.max alt.max
      stop := if merged.stop ≠ alt.stop then .absolute length else merged.stop })
    { first with exact := false, residual := [] }

/-- Keep the list of alternatives under its ceiling. -/
def budget (ctx : Context) (alts : List Alt) : List Alt × Option Approximation :=
  if alts.length ≤ ctx.limits.patternAlternatives then (alts, none)
  else
    match alts with
    | [] => ([], some .tooManyAlternatives)
    | first :: rest => ([mergeAlts first rest], some .tooManyAlternatives)

/-- The alternatives of an expression, and the first reason to give up on an
    exact reduction. -/
def walk (ctx : Context) : PatternExpr → List Alt × Option Approximation
  | .and a b =>
    let (left, whyA) := walk ctx a
    let (right, whyB) := walk ctx b
    let (alts, why) := budget ctx (conjoin left right)
    (alts, whyA <|> whyB <|> why)
  | .or a b =>
    let (left, whyA) := walk ctx a
    let (right, whyB) := walk ctx b
    let (alts, why) := budget ctx (left ++ right)
    (alts, whyA <|> whyB <|> why)
  | .cat a b =>
    let (left, whyA) := walk ctx a
    let (right, whyB) := walk ctx b
    let unplaced := if left.any fun alt => !alt.placeable then some Approximation.unknownTokenOffset else none
    let (alts, why) := budget ctx (concat ctx.limits.patternBytes left right)
    (alts, whyA <|> whyB <|> unplaced <|> why)
  | .ellipsisRight a => walk ctx a
  | .ellipsisLeft a =>
    let (alts, _) := walk ctx a
    (alts.map fun alt => { alt with exact := false, instr := ⟨[]⟩, offsets := [], stop := .absolute alt.length },
      some .rightJustified)
  | .epsilon => ([.empty], none)
  | .symbol sym => ([symbol ctx sym], none)
  | .constraint lhs op rhs => constraint ctx lhs op rhs

/-- The result of reducing one constructor's pattern. -/
structure Reduction where
  resolved : ResolvedPattern
  offsets : List (Option Offset)
deriving DecidableEq

def Alt.toPatternAlt (a : Alt) (width : Nat) : PatternAlt :=
  ⟨a.instr, a.context, a.length, a.residual,
    a.offsets.foldl (fun slots (operand, at_) => slots.set operand at_) (List.replicate width default)⟩

/-- Reduce a pattern; the first offer for an operand wins its summary slot. -/
def reduce (expr : PatternExpr) (ctx : Context) : Reduction :=
  let (alts, approximation) := walk ctx expr
  let offer (slots : List (Option Offset)) (p : Nat × Offset) := slots.modify p.1 fun slot => some (slot.getD p.2)
  { resolved := ⟨alts.map (·.toPatternAlt ctx.operands.length), approximation⟩
    offsets := (alts.flatMap (·.offsets)).foldl offer (List.replicate ctx.operands.length none) }

end E5r.SleighReduce
