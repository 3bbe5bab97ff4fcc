import E5r.SleighIndex
import E5r.Fallible

/-!
The decode walk: bytes and a context at an address to a constructor tree
(`decodeAt`). The constructors that a table tries come from a `Chooser`, which
the index gives, or the whole specificity-ordered list.
-/
namespace E5r.SleighDecode
open SleighModel SleighIndex

def MAX_CONTEXT_BYTES : Nat := 32

/-- A context register image: a fixed array of which `len` bytes are in use. -/
structure Context where
  image : Vector Byte MAX_CONTEXT_BYTES
  len : Nat
  fits : len ≤ MAX_CONTEXT_BYTES
deriving DecidableEq

namespace Context

def zeroed (bytes : Nat) : Context := ⟨Vector.replicate MAX_CONTEXT_BYTES 0, min bytes MAX_CONTEXT_BYTES, by omega⟩

def bytes (c : Context) : List Byte := c.image.toList.take c.len

/-- The first eight bytes packed into one integer, byte zero most significant. -/
def word (c : Context) : BitVec 64 := eightBytes.pack fun i => c.image[i]?.getD 0

def get (c : Context) (field : ContextField) : Option (BitVec 64) := field.extract c.bytes

def setBits (value : BitVec 64) : List (Nat × Nat) → Context → Context × Bool
  | [], c => (c, true)
  | (bit, out) :: rest, c =>
    let (byte, offset) := ContextField.bitPosition bit
    if byte ≥ c.len then (c, false)
    else
      let slot := c.image[byte]?.getD 0
      let one := (1 : Byte) <<< offset
      let written := if value.getLsbD (out % 64) then slot ||| one else slot &&& ~~~one
      setBits value rest { c with image := c.image.setIfInBounds byte written }

/-- Write one field, keeping the bits around it; false when it does not fit. -/
def set (c : Context) (field : ContextField) (value : BitVec 64) : Context × Bool :=
  if field.high < field.low then (c, false) else setBits value field.range.zipIdx c

end Context

/-- One field's value, published at an address. -/
structure Commit where
  field : ContextFieldId
  value : BitVec 64
  noflow : Bool
deriving DecidableEq

inductive DecodeError where
  | noMatch
  | noRootTable
  | tooDeep
  | tooManySteps
  | tooManyNodes
  | tooLong
deriving DecidableEq

/-- Why a walk ends without a tree: a typed error, or an index past an arena. -/
inductive Stop where
  | error (e : DecodeError)
  | panic
deriving DecidableEq

structure DecodeLimits where
  maxDepth : Nat
  maxNodes : Nat
  maxSteps : Nat
  maxBytes : Nat
deriving DecidableEq

/-- What one operand of a matched constructor resolved to. -/
inductive Value where
  | int (v : Int64)
  | var (id : VarnodeId)
  | name (text : String)
  | sub (node : Nat)
  | unresolved
deriving DecidableEq

structure ResolvedOperand where
  start : Nat
  stop : Nat
  value : Value
  raw : Int64
deriving DecidableEq

/-- One matched constructor, from byte `start` to just before byte `stop`. -/
structure Node where
  constructor : ConstructorId
  start : Nat
  stop : Nat
  operands : List ResolvedOperand
deriving DecidableEq

instance : Inhabited Node := ⟨⟨⟨0⟩, 0, 0, []⟩⟩

structure Decoded where
  addr : BitVec 64
  len : Nat
  nodes : List Node
  context : Context
  commits : List (BitVec 64 × Commit)
deriving DecidableEq

inductive Resolved where
  | yes
  | deferred
  | no
deriving DecidableEq

/-- Which constructors of a table are tried: a list, and a test in front of it. -/
structure Chooser where
  candidates : TableId → List Byte → List ConstructorId
  mayStart : ConstructorId → List Byte → BitVec 64 → Bool

def viaIndex (spec : Spec) : Chooser := ⟨(Index.build spec).candidates, (Index.build spec).mayStart⟩

/-- Every constructor of the table, most specific first. -/
def viaTable (spec : Spec) : Chooser := ⟨fun id _ => (Index.build spec).table id, fun _ _ _ => true⟩

/-- What one instruction's walk reads. -/
structure Input where
  spec : Spec
  bytes : List Byte
  addr : BitVec 64
  limits : DecodeLimits

/-- The context image, the tree built so far and the published values. -/
structure Tree where
  ctx : Context
  nodes : List Node
  commits : List (BitVec 64 × Commit)

/-- What it changes: the tree, and how many constructors it has tried. -/
structure Walk extends Tree where
  steps : Nat

abbrev Step (α : Type) := Walk → Except Stop (α × Walk)

def Tree.node (t : Tree) (i : Nat) : Node := t.nodes[i]?.getD default

/-- Put an operand's result into its node, which ends no earlier than it does. -/
def Tree.record (t : Tree) (me oi : Nat) (op : ResolvedOperand) : Tree :=
  { t with nodes := t.nodes.modify me fun n => { n with operands := n.operands.set oi op, stop := max n.stop op.stop } }

/-- An arena entry; the source panics where there is none. -/
def entry {α : Type} (arena : List α) (i : Nat) : Except Stop α := (arena[i]?).elim (.error .panic) .ok

namespace Input

/-- The bytes from an offset on, or none past the end. -/
def stream (input : Input) (at_ : Nat) : List Byte := input.bytes.drop at_

def fieldAt (input : Input) (id : FieldId) (offset : Nat) : Option Int64 := do
  let field ← input.spec.fields[id.index]?
  let token ← input.spec.tokens[field.token.index]?
  if offset > input.bytes.length then none
  else
    let raw ← field.extract token (input.bytes.drop offset)
    pure (field.integer raw)

def contextValue (input : Input) (ctx : Context) (id : ContextFieldId) : Option Int64 := do
  let field ← input.spec.contextFields[id.index]?
  let raw ← ctx.get field
  pure (field.integer raw)

def binary (op : DisasmBinOp) (a b : Int64) : Option Int64 :=
  match op with
  | .add => some (a + b)
  | .sub => some (a - b)
  | .mul => some (a * b)
  | .div => if b = 0 then none else some (a / b)
  | .shl => some (if 0 ≤ b ∧ b < 64 then a <<< b else 0)
  | .shr => some (if 0 ≤ b ∧ b < 64 then a >>> b else if a < 0 then -1 else 0)
  | .and => some (a &&& b)
  | .or => some (a ||| b)
  | .xor => some (a ^^^ b)

def symbolInteger (input : Input) (t : Tree) (me : Nat) (next : Option (BitVec 64)) : SymbolRef → Option Int64
  | .builtin .instStart => some (Int64.ofBitVec input.addr)
  | .builtin .instNext => next.map Int64.ofBitVec
  | .builtin .instNext2 => none
  | .builtin .epsilon => some 0
  | .operand i => do
    let op ← (t.node me).operands[i]?
    if op.value = .unresolved then none else some op.raw
  | .field f => input.fieldAt f (t.node me).start
  | .context c => input.contextValue t.ctx c
  | .varnode v => (input.spec.varnodes[v.index]?).map fun n => Int64.ofBitVec n.offset
  | .bitRange _ | .table _ => none

/-- Evaluate a disassembly expression; `depth` counts down from the limit. -/
def evalDisasm (input : Input) (t : Tree) (me : Nat) (next : Option (BitVec 64)) : Nat → DisasmExpr → Option Int64
  | 0, _ => none
  | _ + 1, .num v => some v
  | _ + 1, .symbol s => input.symbolInteger t me next s
  | depth + 1, .unary op a => do
    let a ← evalDisasm input t me next depth a
    pure (match op with
      | .negate => -a
      | .not => ~~~a)
  | depth + 1, .binary op a b => do
    let a ← evalDisasm input t me next depth a
    let b ← evalDisasm input t me next depth b
    binary op a b

/-- With the depth that a walk allows. -/
def eval (input : Input) (t : Tree) (me : Nat) (next : Option (BitVec 64)) (e : DisasmExpr) : Option Int64 :=
  input.evalDisasm t me next (input.limits.maxDepth + 1) e

def widthOf (input : Input) (t : Tree) (me : Nat) (start : Nat) : SymbolRef → Except Stop Nat
  | .operand i =>
    match (t.node me).operands[i]? with
    | some op => .ok (op.stop - (t.node me).start)
    | none => .ok start
  | .field f =>
    match input.spec.fields[f.index]? with
    | some field => do
      let token ← entry input.spec.tokens field.token.index
      pure (start + token.size)
    | none => .ok start
  | _ => .ok start

def symbolValue (input : Input) (t : Tree) (me at_ start : Nat) : SymbolRef → Option Int64
  | .operand i => do
    let op ← (t.node me).operands[i]?
    match op.value with
    | .sub _ | .unresolved => none
    | _ => some op.raw
  | .field f => input.fieldAt f (at_ + start)
  | .context c => input.contextValue t.ctx c
  | _ => none

/-- Evaluate a constructor's pattern as written: whether it holds, and where it
    ends. What the model gives no value to is admitted. -/
def evalPattern (input : Input) (t : Tree) (me at_ : Nat) : Nat → PatternExpr → Nat → Except Stop (Bool × Nat)
  | 0, _, start => .ok (true, start)
  | _ + 1, .epsilon, start => .ok (true, start)
  | _ + 1, .symbol sym, start => do
    let stop ← input.widthOf t me start sym
    pure (true, stop)
  | depth + 1, .and a b, start => do
    let (okA, endA) ← evalPattern input t me at_ depth a start
    let (okB, endB) ← evalPattern input t me at_ depth b start
    pure (okA && okB, max endA endB)
  | depth + 1, .or a b, start => do
    let (okA, endA) ← evalPattern input t me at_ depth a start
    if okA then pure (true, endA) else evalPattern input t me at_ depth b start
  | depth + 1, .cat a b, start => do
    let (okA, endA) ← evalPattern input t me at_ depth a start
    let (okB, endB) ← evalPattern input t me at_ depth b endA
    pure (okA && okB, endB)
  | depth + 1, .ellipsisRight a, start => do
    let (ok, _) ← evalPattern input t me at_ depth a start
    pure (ok, start)
  | depth + 1, .ellipsisLeft a, start => do
    let (ok, _) ← evalPattern input t me at_ depth a start
    pure (ok, start)
  | _ + 1, .constraint lhs op rhs, start => do
    let stop ← input.widthOf t me start lhs
    match input.symbolValue t me at_ start lhs, input.eval t me none rhs with
    | some left, some right => pure (op.compare left right, stop)
    | _, _ => pure (true, stop)

/-- A raw value through its `attach`; a hole makes the encoding invalid. -/
def attached (attach : Attach) (raw : BitVec 64) (signed : Int64) : Option Value :=
  match attach with
  | .none => some (.int signed)
  | .variables v => (v[raw.toNat]?).join.map .var
  | .names v => (v[raw.toNat]?).join.map .name
  | .values v => (v[raw.toNat]?).join.map .int

/-- The value, integer and end of an operand that is not a subtable; `none` when
    the encoding is not this constructor's. -/
def readSource (input : Input) (ctx : Context) (start : Nat) :
    OperandSource → Except Stop (Option (Value × Int64 × Nat))
  | .field fid => do
    let field ← entry input.spec.fields fid.index
    let token ← entry input.spec.tokens field.token.index
    if start > input.bytes.length then pure none
    else
      match field.extract token (input.bytes.drop start) with
      | none => pure none
      | some raw =>
        pure ((attached field.attach raw (field.integer raw)).map fun v => (v, field.integer raw, start + token.size))
  | .context cid => do
    let field ← entry input.spec.contextFields cid.index
    match ctx.get field with
    | none => pure none
    | some raw => pure ((attached field.attach raw (field.integer raw)).map fun v => (v, field.integer raw, start))
  | .varnode vid => .ok (some (.var vid, 0, start))
  | .bitRange _ => .ok (some (.unresolved, 0, start))
  | .computed => .ok (some (.int 0, 0, start))
  | .unbound => .ok (some (.unresolved, 0, start))
  | .table _ => .ok none

/-- Where an operand that is known ends, measured from the constructor's start. -/
def known (ops : List ResolvedOperand) (at_ i : Nat) : Option Nat := do
  let op ← ops[i]?
  if op.value ≠ .unresolved ∨ op.stop ≠ op.start then some (op.stop - at_) else none

/-- Where an operand begins, measured from the constructor's start. -/
def placement (alt : PatternAlt) (specOp : Operand) (ops : List ResolvedOperand) (at_ oi : Nat) (firstPass : Bool) :
    Option Nat :=
  (alt.offsets[oi]?.getD specOp.offset).resolve fun i =>
    if firstPass then known ops at_ i else ops[i]?.map fun op => op.stop - at_

section
-- How a subtable is matched at a byte offset.
variable (input : Input) (sub : TableId → Nat → Step (Option Nat))

def operand (c : Constructor) (alt : PatternAlt) (me oi at_ : Nat) (firstPass : Bool) : Step Resolved := fun w =>
  match c.operands[oi]? with
  | none => .ok (.yes, w)
  | some specOp =>
    match placement alt specOp (w.node me).operands at_ oi firstPass with
    | none => .ok (if firstPass then .deferred else .no, w)
    | some rel =>
      let start := saturatingAdd at_ rel
      if start > input.limits.maxBytes then .error (.error .tooLong)
      else
        match specOp.source with
        | .table tid => do
          let (child, w) ← sub tid start w
          match child with
          | none => pure (.no, w)
          | some child => pure (.yes, { w with toTree := w.record me oi ⟨start, (w.node child).stop, .sub child, 0⟩ })
        | source => do
          match ← input.readSource w.ctx start source with
          | none => pure (.no, w)
          | some (value, raw, stop) => pure (.yes, { w with toTree := w.record me oi ⟨start, stop, value, raw⟩ })

def isTable (c : Constructor) (oi : Nat) : Bool :=
  match c.operands[oi]? with
  | some ⟨.table _, _⟩ => true
  | _ => false

/-- Every operand but the subtables; what is resolved is marked in `done`. -/
def firstPass (c : Constructor) (alt : PatternAlt) (me at_ : Nat) : List Nat → BitVec 64 → Step (Option (BitVec 64))
  | [], done => fun w => .ok (some done, w)
  | oi :: rest, done => fun w =>
    if isTable c oi then firstPass c alt me at_ rest done w
    else do
      let (resolved, w) ← operand input sub c alt me oi at_ true w
      match resolved with
      | .yes => firstPass c alt me at_ rest (if oi < 64 then done ||| (1 : BitVec 64) <<< oi else done) w
      | .deferred => firstPass c alt me at_ rest done w
      | .no => pure (none, w)

/-- The operands that are left; false when one of them does not resolve. -/
def secondPass (c : Constructor) (alt : PatternAlt) (me at_ : Nat) (done : BitVec 64) : List Nat → Step Bool
  | [] => fun w => .ok (true, w)
  | oi :: rest => fun w =>
    if oi < 64 ∧ done.getLsbD oi then secondPass c alt me at_ done rest w
    else do
      let (resolved, w) ← operand input sub c alt me oi at_ false w
      if resolved = .yes then secondPass c alt me at_ done rest w else pure (false, w)

/-- The operands in the order they are resolved: `order`, and then whatever it
    misses. -/
def sequence (c : Constructor) : List Nat :=
  if c.order.length = c.operands.length then c.order
  else
    (List.range (c.operands.length % 2 ^ 16)).foldl (fun extra oi => if oi ∈ extra then extra else extra ++ [oi]) c.order

/-- Execute the `[ ctx = ... ]` statements of a constructor. -/
def applyContextAssigns (c : Constructor) (me : Nat) (t : Tree) : Tree :=
  c.disasm.foldl (fun t stmt =>
    match stmt with
    | .assign (.context cid) value =>
      match input.eval t me none value, input.spec.contextFields[cid.index]? with
      | some v, some field => { t with ctx := (t.ctx.set field v.toBitVec).1 }
      | _, _ => t
    | _ => t) t

/-- A node for a constructor whose operands are not resolved yet. -/
def fresh (cid : ConstructorId) (c : Constructor) (alt : PatternAlt) (at_ : Nat) : Node :=
  ⟨cid, at_, saturatingAdd at_ alt.length, List.replicate c.operands.length ⟨at_, at_, .unresolved, 0⟩⟩

def tryAlt (cid : ConstructorId) (c : Constructor) (alt : PatternAlt) (at_ : Nat) : Step (Option Nat) := fun w =>
  if w.nodes.length ≥ input.limits.maxNodes then .error (.error .tooManyNodes)
  else
    let me := w.nodes.length
    do
      let (done, w) ← firstPass input sub c alt me at_ (sequence c) 0 { w with nodes := w.nodes ++ [fresh cid c alt at_] }
      match done with
      | none => pure (none, w)
      | some done =>
        let (ok, w) ← secondPass input sub c alt me at_ done (sequence c)
          { w with toTree := applyContextAssigns input c me w.toTree }
        if ok then
          if c.resolved.approximation.isSome || !alt.residual.isEmpty then
            let (holds, _) ← input.evalPattern w.toTree me at_ (input.limits.maxDepth + 1) c.pattern 0
            pure (if holds then some me else none, w)
          else pure (some me, w)
        else pure (none, w)

/-- The alternatives in order. A failed one leaves no trace in the tree or the
    context. -/
def alternatives (cid : ConstructorId) (c : Constructor) (at_ : Nat) : List PatternAlt → Step (Option Nat)
  | [] => fun w => .ok (none, w)
  | alt :: rest => fun w =>
    if alt.admits (input.stream at_) w.ctx.bytes then do
      let (found, tried) ← tryAlt input sub cid c alt at_ w
      match found with
      | some node => pure (some node, tried)
      | none => alternatives cid c at_ rest { tried with nodes := tried.nodes.take w.nodes.length, ctx := w.ctx }
    else alternatives cid c at_ rest w

def constructor (cid : ConstructorId) (at_ : Nat) : Step (Option Nat) := fun w =>
  if w.steps + 1 > input.limits.maxSteps then .error (.error .tooManySteps)
  else do
    let c ← entry input.spec.constructors cid.index
    alternatives input sub cid c at_ c.resolved.alternatives { w with steps := w.steps + 1 }

def firstOf (mayStart : ConstructorId → Bool) (at_ : Nat) : List ConstructorId → Step (Option Nat)
  | [] => fun w => .ok (none, w)
  | cid :: rest => fun w =>
    if mayStart cid then do
      let (found, w) ← constructor input sub cid at_ w
      match found with
      | some node => pure (some node, w)
      | none => firstOf mayStart at_ rest w
    else firstOf mayStart at_ rest w

end

/-- Try the constructors of a table that the chooser offers; `room` is how much
    deeper the tree may get. -/
def table (input : Input) (chooser : Chooser) : Nat → TableId → Nat → Step (Option Nat)
  | 0 => fun _ _ _ => .error (.error .tooDeep)
  | room + 1 => fun id at_ w =>
    firstOf input (table input chooser room) (fun cid => chooser.mayStart cid (input.stream at_) w.ctx.word) at_
      (chooser.candidates id (input.stream at_)) w

/-- One statement of a constructor's actions, the instruction's length known. -/
def action (input : Input) (node : Nat) (next : BitVec 64) (t : Tree) : DisasmStmt → Tree
  | .assign (.operand oi) value =>
    match input.eval t node (some next) value with
    | none => t
    | some v =>
      { t with nodes := t.nodes.modify node fun n =>
          { n with operands := n.operands.modify oi fun op => { op with value := .int v, raw := v } } }
  | .assign (.context _) _ => t
  | .globalSet address context =>
    match input.eval t node (some next) address, input.spec.contextFields[context.index]? with
    | some target, some field =>
      match t.ctx.get field with
      | none => t
      | some value =>
        if t.commits.length < 256 then
          { t with commits := t.commits ++ [(target.toBitVec, ⟨context, value, field.noflow⟩)] }
        else t
    | _, _ => t

/-- Operand values and `globalset`, children first. -/
def actions (input : Input) (len : Nat) : Nat → Nat → Tree → Except Stop Tree
  | 0, _, t => .ok t
  | room + 1, node, t => do
    let children := (t.node node).operands.filterMap fun op =>
      match op.value with
      | .sub c => some c
      | _ => none
    let t ← children.foldlM (fun t child => actions input len room child t) t
    let c ← entry input.spec.constructors (t.node node).constructor.index
    pure (c.disasm.foldl (input.action node (input.addr + BitVec.ofNat 64 len)) t)

end Input

/-- Fold everything published at an address into an image. -/
def applyPublished (spec : Spec) (published : List Commit) (image : Context) : Context :=
  published.foldl (fun image c =>
    match spec.contextFields[c.field.index]? with
    | some f => (image.set f c.value).1
    | none => image) image

/-- Decode one instruction at `addr` from the starting context `base` and what
    the context database published at each address. -/
def decodeAt (spec : Spec) (chooser : Chooser) (limits : DecodeLimits) (base : Context)
    (published : BitVec 64 → List Commit) (bytes : List Byte) (addr : BitVec 64) : Except Stop Decoded :=
  if spec.tables = [] then .error (.error .noRootTable)
  else do
    let input : Input := ⟨spec, bytes.take limits.maxBytes, addr, limits⟩
    let (root, w) ← input.table chooser (limits.maxDepth + 1) spec.root 0
      ⟨⟨applyPublished spec (published addr) base, [], []⟩, 0⟩
    match root with
    | none => .error (.error .noMatch)
    | some _ =>
      let len := (w.node 0).stop
      if len > limits.maxBytes then .error (.error .tooLong)
      else
        let t ← input.actions len (limits.maxDepth + 1) 0 w.toTree
        pure ⟨addr, len, t.nodes, t.ctx, t.commits⟩

end E5r.SleighDecode
