import E5r.Outcomes
import E5r.ByteCodec

/-!
# The tagged tree of a `.sla` payload

A byte stream of element-start, element-end and attribute tags. The top three bits of a tag byte
say its kind and whether the id is in the low five bits or in seven-bit chunks behind it; each
attribute is followed by one self-describing value.
-/

namespace E5r.SlaTree

open Outcomes CheckedWords

/-- An attribute value. The four integer codes are kept apart. -/
inductive Value where
  | bool (b : Bool)
  /-- Value type 2 or 3, an `i128`. -/
  | signed (v : ℤ)
  /-- Value type 4, a `u128`. -/
  | unsigned (v : ℕ)
  | space (v : UInt32)
  | text (s : String)
  /-- A type no observed file uses. -/
  | other (kind : UInt8) (v : ℕ)
  deriving DecidableEq

/-- One element of the tree, with the byte range it occupies in the payload. -/
structure Node where
  id : UInt32
  attrs : List (UInt32 × Value)
  children : List Node
  start : ℕ
  stop : ℕ

def MAX_DEPTH : ℕ := 128

def Node.len (n : Node) : ℕ := n.stop - n.start

/-- Bytes an element occupies that its children do not. -/
def Node.ownLen (n : Node) : ℕ := n.len - (n.children.map Node.len).sum

inductive EncodeError where
  | stringTooLong (len : ℕ)
  | valueTooWide
  | tooDeep
  deriving DecidableEq

def T_ELEMENT_START : UInt8 := 0x40
def T_ELEMENT_END : UInt8 := 0x80
def T_ATTRIBUTE : UInt8 := 0xc0
def T_ELEMENT_START_EXT : UInt8 := 0x60
def T_ELEMENT_END_EXT : UInt8 := 0xa0
def T_ATTRIBUTE_EXT : UInt8 := 0xe0

def V_BOOL : UInt8 := 1
def V_SIGNED_POS : UInt8 := 2
def V_SIGNED_NEG : UInt8 := 3
def V_UNSIGNED : UInt8 := 4
def V_SPACE : UInt8 := 5
def V_STRING : UInt8 := 7

/-- How many seven-bit chunks a magnitude needs. Zero needs none. -/
def chunkCount (v : ℕ) : ℕ := if v = 0 then 0 else chunkCount (v >>> 7) + 1
termination_by v
decreasing_by
  rw [Nat.shiftRight_eq_div_pow]
  omega

/-- `v` as `n` seven-bit chunks, most significant first, each with the top bit set. -/
def pushChunks (v n : ℕ) : List UInt8 :=
  (List.range n).reverse.map fun i => (0x80 : UInt8) ||| (UInt8.ofNat (v >>> (i * 7)) &&& 0x7f)

/-- The short form when the id fits in five bits, the extended form otherwise. -/
def pushTag (short ext : UInt8) (id : UInt32) : List UInt8 :=
  if id < 32 then [short ||| id.toUInt8]
  else
    let n := max (chunkCount id.toNat) 1
    (ext ||| (UInt8.ofNat (n - 1) &&& 0x0f)) :: pushChunks id.toNat n

def pushTyped (kind : UInt8) (magnitude : ℕ) : Except EncodeError (List UInt8) :=
  let n := chunkCount magnitude
  if n > 15 then .error .valueTooWide
  else .ok (((kind <<< 4) ||| UInt8.ofNat n) :: pushChunks magnitude n)

def pushValue : Value → Except EncodeError (List UInt8)
  | .bool b => .ok [(V_BOOL <<< 4) ||| (if b then 1 else 0)]
  | .signed i => if i < 0 then pushTyped V_SIGNED_NEG i.natAbs else pushTyped V_SIGNED_POS i.toNat
  | .unsigned u => pushTyped V_UNSIGNED u
  | .space s => pushTyped V_SPACE s.toNat
  | .text s =>
    let len := (ByteCodec.bytesOf s).length
    let n := chunkCount len
    if n > 15 then .error (.stringTooLong len)
    else .ok (((V_STRING <<< 4) ||| UInt8.ofNat n) :: pushChunks len n ++ ByteCodec.bytesOf s)
  | .other kind v => pushTyped kind v

def pushAttrs : List (UInt32 × Value) → Except EncodeError (List UInt8)
  | [] => .ok []
  | (id, v) :: rest => do
    let value ← pushValue v
    let rest ← pushAttrs rest
    return pushTag T_ATTRIBUTE T_ATTRIBUTE_EXT id ++ value ++ rest

inductive Step where
  | opens (n : Node)
  | closes (id : UInt32)

mutual
def Node.steps : Node → ℕ
  | ⟨_, _, children, _, _⟩ => stepsAll children + 2

def stepsAll : List Node → ℕ
  | [] => 0
  | n :: ns => n.steps + stepsAll ns
end

def Step.steps : Step → ℕ
  | .opens n => n.steps
  | .closes _ => 1

def opened (ns : List Node) : List Step := ns.map .opens

theorem sum_opened (ns : List Node) : ((opened ns).map Step.steps).sum = stepsAll ns := by
  induction ns with
  | nil => rfl
  | cons n ns ih =>
    rw [opened] at ih ⊢
    simp only [List.map_cons, List.sum_cons, ih, stepsAll, Step.steps]

/-- The walk over a tree, with the steps still to do and how deep it is. -/
def encodeInto (out : List UInt8) (depth : ℕ) : List Step → Except EncodeError (List UInt8)
  | [] => .ok out
  | .opens n :: stack =>
    if depth + 1 > MAX_DEPTH then .error .tooDeep
    else match pushAttrs n.attrs with
      | .error e => .error e
      | .ok attrs =>
        encodeInto (out ++ (pushTag T_ELEMENT_START T_ELEMENT_START_EXT n.id ++ attrs)) (depth + 1)
          (opened n.children ++ .closes n.id :: stack)
  | .closes id :: stack =>
    encodeInto (out ++ pushTag T_ELEMENT_END T_ELEMENT_END_EXT id) (depth - 1) stack
termination_by stack => (stack.map Step.steps).sum
decreasing_by
  · obtain ⟨id, attrs, children, start, stop⟩ := n
    simp only [List.map_append, List.sum_append, List.map_cons, List.sum_cons, sum_opened, Step.steps,
      Node.steps]
    omega
  · simp only [List.map_cons, List.sum_cons, Step.steps]
    omega

def encode (root : Node) : Except EncodeError (List UInt8) := encodeInto [] 0 [.opens root]

inductive DecodeError where
  | truncated (pos : ℕ)
  | badTag (pos : ℕ) (byte : UInt8)
  | mismatched (pos : ℕ) (opened closed : UInt32)
  | unbalanced (pos : ℕ)
  | unclosed (opened : UInt32)
  | strayAttribute (pos : ℕ)
  | tooDeep (pos : ℕ)
  | stringOverruns (pos len : ℕ)
  | notUtf8 (pos : ℕ)
  | empty
  deriving DecidableEq

section

variable (arith : Arith) (data : List UInt8)

abbrev Reads := Outcome DecodeError

def byte (pos : ℕ) : Reads (UInt8 × ℕ) := do
  let b ← Outcome.orErr (.truncated pos) data[pos]?
  let pos ← sum arith pos 1
  return (b, pos)

def chunksFrom : ℕ → ℕ → ℕ → Reads (ℕ × ℕ)
  | 0, pos, v => .ok (v, pos)
  | n + 1, pos, v => do
    let b ← at_ data pos
    let pos ← sum arith pos 1
    chunksFrom n pos ((v <<< 7) ||| (b &&& 0x7f).toNat)

/-- `n` seven-bit chunks, most significant first: at most 16 of them, which is 112 bits. -/
def chunks (n pos : ℕ) : Reads (ℕ × ℕ) := do
  let last ← sum arith pos n
  if last > data.length then .err (.truncated pos)
  else chunksFrom arith data n pos 0

/-- A string of the given length. -/
def text (at_ pos raw : ℕ) : Reads (Value × ℕ) := do
  let len ← if raw < 2 ^ 64 then .ok raw else .err (.stringOverruns at_ raw)
  let last ← sum arith pos len
  if last > data.length then .err (.stringOverruns at_ raw)
  else do
    let bytes ← slice data pos last
    let s ← Outcome.orErr (.notUtf8 at_) (String.fromUTF8? ⟨bytes.toArray⟩)
    return (.text s, last)

/-- The value of a kind other than a string for what its chunks hold. -/
def typed (kind : UInt8) (raw : ℕ) : Value :=
  if kind = V_SIGNED_POS then .signed (if raw < 2 ^ 127 then raw else 2 ^ 127 - 1)
  else if kind = V_SIGNED_NEG then .signed (if raw < 2 ^ 127 then -raw else -2 ^ 127)
  else if kind = V_UNSIGNED then .unsigned raw
  else if kind = V_SPACE then .space (UInt32.ofNat (min raw (2 ^ 32 - 1)))
  else .other kind raw

def value (pos : ℕ) : Reads (Value × ℕ) := do
  let (head, next) ← byte arith data pos
  let kind := head >>> 4
  let count := (head &&& 0x0f).toNat
  if kind = V_BOOL then return (.bool (count ≠ 0), next)
  else do
    let (raw, next) ← chunks arith data count next
    if kind = V_STRING then text arith data pos next raw
    else return (typed kind raw, next)

/-- Where the decoder is: the elements that are open, innermost first, and the root once it is
closed. -/
structure State where
  pos : ℕ
  stack : List Node
  root : Option Node

def tag (pos : ℕ) : Reads (UInt8 × UInt32 × ℕ) := do
  let (head, next) ← byte arith data pos
  let kind := head >>> 5
  let (id, next) ←
    if kind = 2 ∨ kind = 4 ∨ kind = 6 then .ok ((head &&& 0x1f).toNat, next)
    else if kind = 3 ∨ kind = 5 ∨ kind = 7 then
      chunks arith data ((head &&& 0x0f).toNat + 1) next
    else .err (.badTag pos head)
  return (kind, UInt32.ofNat (min id (2 ^ 32 - 1)), next)

def turn (s : State) : Reads State :=
  if s.root.isSome then .err (.unbalanced s.pos)
  else do
    let (kind, id, next) ← tag arith data s.pos
    if kind = 2 ∨ kind = 3 then
      if s.stack.length ≥ MAX_DEPTH then .err (.tooDeep s.pos)
      else .ok { s with pos := next, stack := ⟨id, [], [], s.pos, s.pos⟩ :: s.stack }
    else if kind = 4 ∨ kind = 5 then
      match s.stack with
      | [] => .err (.unbalanced s.pos)
      | done :: stack =>
        if done.id ≠ id then .err (.mismatched s.pos done.id id)
        else
          let done := { done with stop := next }
          match stack with
          | [] => .ok ⟨next, [], some done⟩
          | parent :: stack =>
            .ok ⟨next, { parent with children := parent.children ++ [done] } :: stack, none⟩
    else do
      let (v, next) ← value arith data next
      match s.stack with
      | [] => .err (.strayAttribute s.pos)
      | parent :: stack =>
        .ok ⟨next, { parent with attrs := parent.attrs ++ [(id, v)] } :: stack, none⟩

/-- What is left when the payload ends. -/
def finish (s : State) : Reads Node :=
  match s.root with
  | some root => .ok root
  | none => .err (.unclosed (s.stack.head?.elim 0 Node.id))

/-- Turns until the payload ends. Each one takes a byte, so there are never more than bytes. -/
def turns : ℕ → State → Reads Node
  | 0, s => if s.pos < data.length then .crash else finish s
  | more + 1, s =>
    if s.pos < data.length then do
      let s ← turn arith data s
      turns more s
    else finish s

/-- Decode the tagged tree. The payload is exactly one root element. -/
def decode : Reads Node :=
  if data.isEmpty then .err .empty else turns arith data data.length ⟨0, [], none⟩

end

end E5r.SlaTree
