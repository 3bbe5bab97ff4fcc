import E5r.BitTests

/-!
A processor specification as a decoder reads it: tokens and their fields, the
context register, and tables of constructors whose patterns are reduced to
masks (`Spec`).
-/
namespace E5r.SleighModel
open BitTests

abbrev Byte := BitVec 8

/-- A mask and the value the masked bits must take, byte by byte. The mask and
    the value have one length. -/
structure MaskValue where
  tests : List (BitTest 8)
deriving DecidableEq, Inhabited

namespace MaskValue

/-- The test on one byte; past the end nothing is constrained. -/
def test (mv : MaskValue) (i : Nat) : BitTest 8 := mv.tests[i]?.getD (BitTest.free 8)

def isEmpty (mv : MaskValue) : Bool := mv.tests.all fun t => t.mask == 0

def matchesFrom : List (BitTest 8) → List Byte → Bool
  | [], _ => true
  | t :: rest, [] => t.mask == 0 && matchesFrom rest []
  | t :: rest, b :: bytes => (t.mask == 0 || decide (t.Holds b)) && matchesFrom rest bytes

/-- Whether `bytes` satisfies it. A slice too short for the mask fails. -/
def matchesBytes (mv : MaskValue) (bytes : List Byte) : Bool := matchesFrom mv.tests bytes

/-- Add one byte's worth of constraint; `none` when it contradicts what is
    already there. -/
def constrain (mv : MaskValue) (byte : Nat) (t : BitTest 8) : Option MaskValue :=
  let grown := mv.tests ++ List.replicate (byte + 1 - mv.tests.length) (BitTest.free 8)
  ((grown[byte]?.getD (BitTest.free 8)).both t).map fun joined => ⟨grown.set byte joined⟩

/-- Fold `other` in; `none` when the two contradict. -/
def merge (mv other : MaskValue) : Option MaskValue :=
  other.tests.zipIdx.foldlM (fun mv (t, i) => if t.mask = 0 then some mv else mv.constrain i t) mv

/-- The same test moved `bytes` later in the stream. -/
def shifted (mv : MaskValue) (bytes : Nat) : MaskValue :=
  if bytes = 0 ∨ mv.tests = [] then mv else ⟨List.replicate bytes (BitTest.free 8) ++ mv.tests⟩

/-- The weakest test that both imply. -/
def intersect (mv other : MaskValue) : MaskValue := ⟨List.zipWith BitTest.agree mv.tests other.tests⟩

theorem matchesFrom_iff (tests : List (BitTest 8)) : ∀ bytes : List Byte,
    matchesFrom tests bytes = true ↔
      ∀ i : Nat, (tests[i]?.getD (BitTest.free 8)).mask ≠ 0 →
        ∃ b, bytes[i]? = some b ∧ (tests[i]?.getD (BitTest.free 8)).Holds b := by
  induction tests with
  | nil => simp [matchesFrom, BitTest.free]
  | cons t rest ih =>
    intro bytes
    cases bytes with
    | nil =>
      simp only [matchesFrom, Bool.and_eq_true, beq_iff_eq, ih]
      constructor
      · rintro ⟨unmasked, later⟩ i
        cases i with
        | zero => simp [unmasked]
        | succ i => simpa using later i
      · intro all
        refine ⟨?_, fun i => by simpa using all (i + 1)⟩
        have first := all 0
        simpa using first
    | cons b bytes =>
      simp only [matchesFrom, Bool.and_eq_true, Bool.or_eq_true, beq_iff_eq, decide_eq_true_eq, ih]
      constructor
      · rintro ⟨first, later⟩ i
        cases i with
        | zero =>
          intro masked
          rcases first with unmasked | holds
          · exact absurd unmasked (by simpa using masked)
          · exact ⟨b, rfl, by simpa using holds⟩
        | succ i => simpa using later i
      · intro all
        refine ⟨?_, fun i => by simpa using all (i + 1)⟩
        by_cases unmasked : t.mask = 0
        · exact .inl unmasked
        · obtain ⟨c, same, holds⟩ := all 0 (by simpa using unmasked)
          obtain rfl : b = c := by simpa using same
          exact .inr (by simpa using holds)

/-- A mask is satisfied when every byte that it constrains is there and passes. -/
theorem matchesBytes_iff {mv : MaskValue} {bytes : List Byte} :
    mv.matchesBytes bytes = true ↔ ∀ i, (mv.test i).mask ≠ 0 → ∃ b, bytes[i]? = some b ∧ (mv.test i).Holds b :=
  matchesFrom_iff mv.tests bytes

theorem test_holds {mv : MaskValue} {bytes : List Byte} (holds : mv.matchesBytes bytes = true) (i : Nat) :
    (mv.test i).Holds (bytes[i]?.getD 0) := by
  by_cases unmasked : (mv.test i).mask = 0
  · exact BitTest.holds_of_free unmasked _
  · obtain ⟨b, there, passes⟩ := matchesBytes_iff.mp holds i unmasked
    rwa [there]

end MaskValue

inductive Endian where
  | big
  | little
deriving DecidableEq

structure VarnodeId where
  index : Nat
deriving DecidableEq

structure TokenId where
  index : Nat
deriving DecidableEq

structure FieldId where
  index : Nat
deriving DecidableEq

structure ContextFieldId where
  index : Nat
deriving DecidableEq

structure BitRangeId where
  index : Nat
deriving DecidableEq

structure TableId where
  index : Nat
deriving DecidableEq

structure ConstructorId where
  index : Nat
deriving DecidableEq

/-- A named piece of an address space; only its offset is read while decoding. -/
structure Varnode where
  offset : BitVec 64
deriving DecidableEq

/-- A slice of the instruction stream of `size` bytes that fields are cut from. -/
structure TokenDef where
  size : Nat
  endian : Endian
deriving DecidableEq

/-- What an `attach` statement did to a field. -/
inductive Attach where
  | none
  | variables (registers : List (Option VarnodeId))
  | names (texts : List (Option String))
  | values (numbers : List (Option Int64))
deriving DecidableEq

/-- Bits `low` to `high` of a token, counted from its least significant bit. -/
structure Field where
  token : TokenId
  low : Nat
  high : Nat
  signed : Bool
  attach : Attach
  ordered : low ≤ high
deriving DecidableEq

/-- Bits `low` to `high` of the context register, counted from the most
    significant bit of its first byte. -/
structure ContextField where
  low : Nat
  high : Nat
  signed : Bool
  noflow : Bool
  attach : Attach
  ordered : low ≤ high
deriving DecidableEq

theorem first_bit : 0 ≤ 0 := le_rfl

/-- The value with bit `out` set; a shift count wraps at 64. -/
def setBit (value : BitVec 64) (out : Nat) : BitVec 64 := value ||| (1 : BitVec 64) <<< (out % 64)

/-- The value whose bits are found at the given positions, least significant
    first; `none` when a position or its byte is missing. -/
def readBits (position : Nat → Option (Nat × Nat)) (bytes : List Byte) (bits : List Nat) : Option (BitVec 64) :=
  bits.zipIdx.foldlM (fun value (bit, out) => do
    let (byte, offset) ← position bit
    let b ← bytes[byte]?
    pure (if b.getLsbD offset then setBit value out else value)) 0

/-- Interpret `value`, `bits` wide, as twos complement. -/
def signExtend (value : BitVec 64) (bits : Nat) : Int64 :=
  if bits = 0 ∨ bits ≥ 64 then Int64.ofBitVec value
  else Int64.ofBitVec ((value <<< (64 - bits)).sshiftRight (64 - bits))

namespace Field

def bits (f : Field) : Nat := f.high - f.low + 1

/-- Which byte of the token, and which bit of that byte, hold bit `bit`. -/
def bitPosition (token : TokenDef) (bit : Nat) : Option (Nat × Nat) :=
  if bit ≥ token.size * 8 then none
  else
    match token.endian with
    | .big => some (token.size - 1 - bit / 8, bit % 8)
    | .little => some (bit / 8, bit % 8)

/-- The field's bits, least significant first. -/
def range (f : Field) : List Nat := List.range' f.low (f.high + 1 - f.low)

/-- The field's raw value in bytes that start at the token's first byte. -/
def extract (f : Field) (token : TokenDef) (bytes : List Byte) : Option (BitVec 64) :=
  if bytes.length < token.size then none else readBits (bitPosition token) bytes f.range

/-- A raw value as the integer that constraints and actions see. -/
def integer (f : Field) (raw : BitVec 64) : Int64 := if f.signed then signExtend raw f.bits else Int64.ofBitVec raw

end Field

namespace ContextField

def bits (f : ContextField) : Nat := f.high - f.low + 1

/-- Which byte of the context register, and which bit of that byte, hold context
    bit `bit`. -/
def bitPosition (bit : Nat) : Nat × Nat := (bit / 8, 7 - bit % 8)

/-- The bits of the range, least significant first. -/
def range (f : ContextField) : List Nat := (List.range' f.low (f.high + 1 - f.low)).reverse

def extract (f : ContextField) (context : List Byte) : Option (BitVec 64) :=
  readBits (fun bit => some (bitPosition bit)) context f.range

def integer (f : ContextField) (raw : BitVec 64) : Int64 := if f.signed then signExtend raw f.bits else Int64.ofBitVec raw

end ContextField

inductive Builtin where
  | instStart
  | instNext
  | instNext2
  | epsilon
deriving DecidableEq

/-- A reference to a symbol from inside a constructor. -/
inductive SymbolRef where
  | operand (i : Nat)
  | varnode (id : VarnodeId)
  | field (id : FieldId)
  | context (id : ContextFieldId)
  | bitRange (id : BitRangeId)
  | table (id : TableId)
  | builtin (b : Builtin)
deriving DecidableEq

/-- Where an operand's bits begin: `delta` bytes past the end of the operand
    `base`, or past the first byte of the instruction. -/
structure Offset where
  base : Option Nat
  delta : Nat
deriving DecidableEq, Inhabited

def saturatingAdd (a b : Nat) : Nat := min (a + b) (2 ^ 64 - 1)

namespace Offset

def absolute (delta : Nat) : Offset := ⟨none, delta⟩

def isAbsolute (o : Offset) : Bool := o.base.isNone

/-- Resolve against the ends of the operands already matched. -/
def resolve (o : Offset) (endOf : Nat → Option Nat) : Option Nat :=
  match o.base with
  | none => some o.delta
  | some i => (endOf i).map fun stop => saturatingAdd stop o.delta

end Offset

inductive OperandSource where
  | field (id : FieldId)
  | context (id : ContextFieldId)
  | table (id : TableId)
  | varnode (id : VarnodeId)
  | bitRange (id : BitRangeId)
  | computed
  | unbound
deriving DecidableEq

structure Operand where
  source : OperandSource
  offset : Offset
deriving DecidableEq

inductive ConstraintOp where
  | equal
  | notEqual
  | less
  | lessEqual
  | greater
  | greaterEqual
deriving DecidableEq

def ConstraintOp.compare (op : ConstraintOp) (left right : Int64) : Bool :=
  match op with
  | .equal => left == right
  | .notEqual => left != right
  | .less => left < right
  | .lessEqual => left ≤ right
  | .greater => left > right
  | .greaterEqual => left ≥ right

inductive DisasmUnOp where
  | negate
  | not
deriving DecidableEq

inductive DisasmBinOp where
  | add
  | sub
  | mul
  | div
  | shl
  | shr
  | and
  | or
  | xor
deriving DecidableEq

/-- An expression in a disassembly action or on the right of a constraint. -/
inductive DisasmExpr where
  | num (v : Int64)
  | symbol (s : SymbolRef)
  | unary (op : DisasmUnOp) (a : DisasmExpr)
  | binary (op : DisasmBinOp) (a b : DisasmExpr)
deriving DecidableEq

/-- A constructor's bit pattern, exactly as written. -/
inductive PatternExpr where
  | and (a b : PatternExpr)
  | or (a b : PatternExpr)
  | cat (a b : PatternExpr)
  | ellipsisRight (a : PatternExpr)
  | ellipsisLeft (a : PatternExpr)
  | constraint (lhs : SymbolRef) (op : ConstraintOp) (rhs : DisasmExpr)
  | symbol (s : SymbolRef)
  | epsilon
deriving DecidableEq

inductive DisasmTarget where
  | operand (i : Nat)
  | context (id : ContextFieldId)
deriving DecidableEq

inductive DisasmStmt where
  | assign (target : DisasmTarget) (value : DisasmExpr)
  | globalSet (address : DisasmExpr) (context : ContextFieldId)
deriving DecidableEq

/-- What stopped a pattern reducing exactly. -/
inductive Approximation where
  | rightJustified
  | unknownTokenOffset
  | tooManyAlternatives
deriving DecidableEq

/-- One conjunctive alternative of a resolved pattern. -/
structure PatternAlt where
  instr : MaskValue
  context : MaskValue
  length : Nat
  residual : List PatternExpr
  offsets : List Offset
deriving DecidableEq

/-- Whether both of its masks are satisfied. -/
def PatternAlt.admits (a : PatternAlt) (stream context : List Byte) : Bool :=
  a.instr.matchesBytes stream && a.context.matchesBytes context

structure ResolvedPattern where
  alternatives : List PatternAlt
  approximation : Option Approximation
deriving DecidableEq

/-- Whether any alternative's mask test passes. -/
def ResolvedPattern.mayMatch (r : ResolvedPattern) (instr context : List Byte) : Bool :=
  r.alternatives.any fun a => a.admits instr context

structure Constructor where
  operands : List Operand
  order : List Nat
  pattern : PatternExpr
  resolved : ResolvedPattern
  disasm : List DisasmStmt
deriving DecidableEq

/-- A table's constructors, in the order the specification gave them. -/
structure Table where
  constructors : List ConstructorId
deriving DecidableEq

/-- A whole processor specification, with every arena referred to by index. -/
structure Spec where
  varnodes : List Varnode
  tokens : List TokenDef
  fields : List Field
  contextFields : List ContextField
  tables : List Table
  constructors : List Constructor

namespace Spec

def root (_ : Spec) : TableId := ⟨0⟩

/-- Some alternative of the constructor has both of its masks satisfied. -/
def Admits (spec : Spec) (id : ConstructorId) (stream context : List Byte) : Prop :=
  ∃ c, spec.constructors[id.index]? = some c ∧ c.resolved.mayMatch stream context = true

instance (spec : Spec) (id : ConstructorId) (stream context : List Byte) :
    Decidable (spec.Admits id stream context) :=
  decidable_of_iff (spec.constructors[id.index]?.any (fun c => c.resolved.mayMatch stream context) = true)
    (by cases found : spec.constructors[id.index]? <;> simp [Admits, found])

end Spec

end E5r.SleighModel
