import E5r.LebNumbers

/-!
DWARF location expressions: the operations that their bytes are, what each does
to the stack of a machine, and what a whole expression means.
-/
namespace E5r.LocationExpressions
open Cursor (Endian toNat Uleb Sleb)
open LebNumbers (uleb_unique sleb_unique)

/-- The byte order of a target, and the bytes of its addresses and of an offset. -/
structure Layout where
  endian : Endian
  addressSize : ℕ
  offsetSize : ℕ
deriving DecidableEq

/-- How an operand is written. -/
inductive Shape where
  | address
  | offset
  | unsigned
  | signed
  | fixed (n : ℕ)
  | fixedSigned (n : ℕ)
  | block
  | shortBlock
deriving DecidableEq

inductive Operand where
  | number (v : ℤ)
  | bytes (bs : List UInt8)
deriving DecidableEq

/-- The operands of an operation, or nothing where there is no such operation. -/
def shapes (op : ℕ) : Option (List Shape) :=
  if op = 0x03 then some [.address]
  else if op = 0x08 ∨ op = 0x15 ∨ op = 0x94 ∨ op = 0x95 then some [.fixed 1]
  else if op = 0x09 then some [.fixedSigned 1]
  else if op = 0x0a ∨ op = 0x98 then some [.fixed 2]
  else if op = 0x0b ∨ op = 0x28 ∨ op = 0x2f then some [.fixedSigned 2]
  else if op = 0x0c ∨ op = 0x99 then some [.fixed 4]
  else if op = 0x0d then some [.fixedSigned 4]
  else if op = 0x0e then some [.fixed 8]
  else if op = 0x0f then some [.fixedSigned 8]
  else if op = 0x10 ∨ op = 0x23 ∨ op = 0x90 ∨ op = 0x93 ∨ op = 0xa1 ∨ op = 0xa2 ∨ op = 0xa8 ∨ op = 0xa9 then
    some [.unsigned]
  else if op = 0x11 ∨ 0x70 ≤ op ∧ op ≤ 0x8f ∨ op = 0x91 then some [.signed]
  else if op = 0x92 then some [.unsigned, .signed]
  else if op = 0x9a then some [.offset]
  else if op = 0x9d ∨ op = 0xa5 then some [.unsigned, .unsigned]
  else if op = 0x9e ∨ op = 0xa3 then some [.block]
  else if op = 0xa0 then some [.offset, .signed]
  else if op = 0xa4 then some [.unsigned, .shortBlock]
  else if op = 0xa6 ∨ op = 0xa7 then some [.fixed 1, .unsigned]
  else if op = 0x06 ∨ 0x12 ≤ op ∧ op ≤ 0x14 ∨ 0x16 ≤ op ∧ op ≤ 0x22 ∨ 0x24 ≤ op ∧ op ≤ 0x27 ∨ 0x29 ≤ op ∧ op ≤ 0x2e ∨
    0x30 ≤ op ∧ op ≤ 0x6f ∨ op = 0x96 ∨ op = 0x97 ∨ op = 0x9b ∨ op = 0x9c ∨ op = 0x9f ∨ op = 0xe0 then some []
  else none

/-- The number that two's complement bytes are. -/
def toSigned (n v : ℕ) : ℤ := Int.bmod v (256 ^ n)

/-- The bytes of an operand. -/
inductive Writes (l : Layout) : Shape → List UInt8 → Operand → Prop where
  | address {bs : List UInt8} (width : bs.length = l.addressSize) : Writes l .address bs (.number (toNat l.endian bs))
  | offset {bs : List UInt8} (width : bs.length = l.offsetSize) : Writes l .offset bs (.number (toNat l.endian bs))
  | unsigned {bs : List UInt8} {v : ℕ} (groups : Uleb bs v) : Writes l .unsigned bs (.number v)
  | signed {bs : List UInt8} {v : ℤ} (groups : Sleb bs v) : Writes l .signed bs (.number v)
  | fixed {n : ℕ} {bs : List UInt8} (width : bs.length = n) : Writes l (.fixed n) bs (.number (toNat l.endian bs))
  | fixedSigned {n : ℕ} {bs : List UInt8} (width : bs.length = n) :
    Writes l (.fixedSigned n) bs (.number (toSigned n (toNat l.endian bs)))
  | block {size bs : List UInt8} (length : Uleb size bs.length) : Writes l .block (size ++ bs) (.bytes bs)
  | shortBlock {b : UInt8} {bs : List UInt8} (length : b.toNat = bs.length) : Writes l .shortBlock (b :: bs) (.bytes bs)

inductive WritesAll (l : Layout) : List Shape → List UInt8 → List Operand → Prop where
  | nil : WritesAll l [] [] []
  | cons {shape : Shape} {rest : List Shape} {bs cs : List UInt8} {x : Operand} {xs : List Operand}
    (first : Writes l shape bs x) (later : WritesAll l rest cs xs) : WritesAll l (shape :: rest) (bs ++ cs) (x :: xs)

/-- An operation with its operands at a position of an expression, and the position
    after it. -/
inductive OperationAt (l : Layout) (code : List UInt8) (pos : ℕ) : ℕ → List Operand → ℕ → Prop where
  | mk {b : UInt8} {bs tail : List UInt8} {ss : List Shape} {xs : List Operand} (here : code.drop pos = b :: bs ++ tail)
    (known : shapes b.toNat = some ss) (operands : WritesAll l ss bs xs) :
    OperationAt l code pos b.toNat xs (pos + 1 + bs.length)

section
variable {l : Layout} {code : List UInt8} {pos op op' next next' : ℕ} {xs xs' : List Operand}

theorem writes_unique {shape : Shape} {bs cs t u : List UInt8} {x y : Operand} (first : Writes l shape bs x)
    (second : Writes l shape cs y) (same : bs ++ t = cs ++ u) : bs = cs ∧ x = y := by
  cases first with
  | address width =>
    cases second with
    | address width' =>
      obtain ⟨rfl, -⟩ := List.append_inj same (width.trans width'.symm)
      exact ⟨rfl, rfl⟩
  | offset width =>
    cases second with
    | offset width' =>
      obtain ⟨rfl, -⟩ := List.append_inj same (width.trans width'.symm)
      exact ⟨rfl, rfl⟩
  | fixed width =>
    cases second with
    | fixed width' =>
      obtain ⟨rfl, -⟩ := List.append_inj same (width.trans width'.symm)
      exact ⟨rfl, rfl⟩
  | fixedSigned width =>
    cases second with
    | fixedSigned width' =>
      obtain ⟨rfl, -⟩ := List.append_inj same (width.trans width'.symm)
      exact ⟨rfl, rfl⟩
  | unsigned groups =>
    cases second with
    | unsigned groups' =>
      obtain ⟨rfl, rfl⟩ := uleb_unique groups groups' same
      exact ⟨rfl, rfl⟩
  | signed groups =>
    cases second with
    | signed groups' =>
      obtain ⟨rfl, rfl⟩ := sleb_unique groups groups' same
      exact ⟨rfl, rfl⟩
  | block length =>
    cases second with
    | block length' =>
      rw [List.append_assoc, List.append_assoc] at same
      obtain ⟨rfl, long⟩ := uleb_unique length length' same
      obtain ⟨rfl, -⟩ := List.append_inj (List.append_cancel_left same) long
      exact ⟨rfl, rfl⟩
  | shortBlock length =>
    cases second with
    | shortBlock length' =>
      obtain ⟨rfl, rest⟩ := List.cons.inj same
      obtain ⟨rfl, -⟩ := List.append_inj rest (length.symm.trans length')
      exact ⟨rfl, rfl⟩

theorem writesAll_unique {shapes : List Shape} {bs cs t u : List UInt8} (first : WritesAll l shapes bs xs)
    (second : WritesAll l shapes cs xs') (same : bs ++ t = cs ++ u) : bs = cs ∧ xs = xs' := by
  induction first generalizing cs xs' with
  | nil =>
    cases second
    exact ⟨rfl, rfl⟩
  | cons writes _ ih =>
    cases second with
    | cons writes' later' =>
      rw [List.append_assoc, List.append_assoc] at same
      obtain ⟨rfl, rfl⟩ := writes_unique writes writes' same
      obtain ⟨rfl, rfl⟩ := ih later' (List.append_cancel_left same)
      exact ⟨rfl, rfl⟩

theorem operationAt_unique (first : OperationAt l code pos op xs next) (second : OperationAt l code pos op' xs' next') :
    op = op' ∧ xs = xs' ∧ next = next' := by
  obtain ⟨here, known, operands⟩ := first
  obtain ⟨here', known', operands'⟩ := second
  rw [here, List.cons_append, List.cons_append] at here'
  obtain ⟨rfl, rest⟩ := List.cons.inj here'
  obtain rfl := Option.some.inj (known.symm.trans known')
  obtain ⟨rfl, rfl⟩ := writesAll_unique operands operands' rest
  exact ⟨rfl, rfl, rfl⟩

theorem no_operation (last : code.drop pos = []) : ¬OperationAt l code pos op xs next := by
  rintro ⟨is, -, -⟩
  rw [last] at is
  cases is
end

/-- What expressions are evaluated in. What is not about the stack alone (calls of
    other expressions, typed values, address spaces, values at entry) is a
    parameter. -/
structure Machine where
  layout : Layout
  register : ℕ → ℕ
  frameBase : ℕ
  frameAddress : ℕ
  object : ℕ
  load : ℕ → ℕ → ℕ
  threadLocal : ℕ → ℕ
  table : ℕ → Option ℕ
  other : ℕ → List Operand → List ℕ → Option (List ℕ)

variable (m : Machine)

def Machine.bits : ℕ := 8 * min 8 (max 1 m.layout.addressSize)

/-- A number as an address. -/
def Machine.cut (v : ℤ) : ℕ := (v % 2 ^ m.bits).toNat

def Machine.signed (v : ℕ) : ℤ := Int.bmod v (2 ^ m.bits)

def truth (c : Prop) [Decidable c] : ℕ := if c then 1 else 0

/-- The operations on the numbers on top of the stack. -/
def Machine.calculate (op : ℕ) : List ℕ → Option (List ℕ)
  | a :: b :: s =>
    if op = 0x12 then some (a :: a :: b :: s)
    else if op = 0x13 then some (b :: s)
    else if op = 0x14 then some (b :: a :: b :: s)
    else if op = 0x16 then some (b :: a :: s)
    else if op = 0x17 then
      match s with
      | c :: s => some (b :: c :: a :: s)
      | [] => none
    else if op = 0x19 then some ((m.signed a).natAbs :: b :: s)
    else if op = 0x1a then some ((b &&& a) :: s)
    else if op = 0x1b then if a = 0 then none else some (m.cut ((m.signed b).tdiv (m.signed a)) :: s)
    else if op = 0x1c then some (m.cut ((b : ℤ) - a) :: s)
    else if op = 0x1d then if a = 0 then none else some (b % a :: s)
    else if op = 0x1e then some (m.cut ((b : ℤ) * a) :: s)
    else if op = 0x1f then some (m.cut (-(a : ℤ)) :: b :: s)
    else if op = 0x20 then some (m.cut (-(a : ℤ) - 1) :: b :: s)
    else if op = 0x21 then some ((b ||| a) :: s)
    else if op = 0x22 then some (m.cut ((b : ℤ) + a) :: s)
    else if op = 0x24 then some (m.cut ((b : ℤ) * 2 ^ a) :: s)
    else if op = 0x25 then some (b / 2 ^ a :: s)
    else if op = 0x26 then some (m.cut (m.signed b / 2 ^ a) :: s)
    else if op = 0x27 then some ((b ^^^ a) :: s)
    else if op = 0x29 then some (truth (m.signed b = m.signed a) :: s)
    else if op = 0x2a then some (truth (m.signed b ≥ m.signed a) :: s)
    else if op = 0x2b then some (truth (m.signed b > m.signed a) :: s)
    else if op = 0x2c then some (truth (m.signed b ≤ m.signed a) :: s)
    else if op = 0x2d then some (truth (m.signed b < m.signed a) :: s)
    else if op = 0x2e then some (truth (m.signed b ≠ m.signed a) :: s)
    else none
  | [a] =>
    if op = 0x12 then some [a, a]
    else if op = 0x13 then some []
    else if op = 0x19 then some [(m.signed a).natAbs]
    else if op = 0x1f then some [m.cut (-(a : ℤ))]
    else if op = 0x20 then some [m.cut (-(a : ℤ) - 1)]
    else none
  | [] => none

/-- What an operation does to the stack, if that is all it does. -/
def Machine.effect (op : ℕ) (xs : List Operand) (s : List ℕ) : Option (List ℕ) :=
  match xs with
  | [.number v] =>
    if op = 0x03 then some (v.toNat :: s)
    else if 0x08 ≤ op ∧ op ≤ 0x11 then some (m.cut v :: s)
    else if op = 0x15 then s[v.toNat]?.map (· :: s)
    else if op = 0x23 then
      match s with
      | a :: s => some (m.cut (a + v) :: s)
      | [] => none
    else if 0x70 ≤ op ∧ op ≤ 0x8f then some (m.cut (m.register (op - 0x70) + v) :: s)
    else if op = 0x91 then some (m.cut (m.frameBase + v) :: s)
    else if op = 0x94 then
      match s with
      | a :: s => some (m.load v.toNat a :: s)
      | [] => none
    else if op = 0xa1 ∨ op = 0xa2 then (m.table v.toNat).map (· :: s)
    else if op = 0x95 ∨ 0x98 ≤ op ∧ op ≤ 0x9a ∨ op = 0xa8 ∨ op = 0xa9 then m.other op xs s
    else none
  | [.number r, .number v] =>
    if op = 0x92 then some (m.cut (m.register r.toNat + v) :: s)
    else if op = 0xa5 ∨ op = 0xa6 ∨ op = 0xa7 then m.other op xs s
    else none
  | [] =>
    if op = 0x06 then
      match s with
      | a :: s => some (m.load m.layout.addressSize a :: s)
      | [] => none
    else if 0x30 ≤ op ∧ op ≤ 0x4f then some ((op - 0x30) :: s)
    else if op = 0x18 then m.other op xs s
    else if op = 0x96 then some s
    else if op = 0x97 then some (m.object :: s)
    else if op = 0x9b ∨ op = 0xe0 then
      match s with
      | a :: s => some (m.threadLocal a :: s)
      | [] => none
    else if op = 0x9c then some (m.frameAddress :: s)
    else m.calculate op s
  | _ => if op = 0xa3 ∨ op = 0xa4 then m.other op xs s else none

/-- What an expression says of an object: that there is none, where it is, or what
    its value is. Of an object in parts nothing more is said. -/
inductive Meaning where
  | absent
  | register (r : ℕ)
  | memory (a : ℕ)
  | value (v : ℕ)
  | bytes (bs : List UInt8)
  | pointer (xs : List Operand)
  | parts
deriving DecidableEq

/-- An operation that ends a part of an object. -/
def IsPiece (op : ℕ) : Prop := op = 0x93 ∨ op = 0x9d

/-- The operations from a position on, run on a stack. -/
inductive Runs (code : List UInt8) : ℕ → List ℕ → Meaning → Prop where
  | address {a : ℕ} {s : List ℕ} : Runs code code.length (a :: s) (.memory a)
  | value {pos v : ℕ} {s : List ℕ} (marker : OperationAt m.layout code pos 0x9f [] code.length) :
    Runs code pos (v :: s) (.value v)
  | part {pos op next : ℕ} {xs : List Operand} {s : List ℕ} (piece : OperationAt m.layout code pos op xs next)
    (is : IsPiece op) : Runs code pos s .parts
  | valuePart {pos op next next' : ℕ} {xs : List Operand} {s : List ℕ}
    (marker : OperationAt m.layout code pos 0x9f [] next) (piece : OperationAt m.layout code next op xs next')
    (is : IsPiece op) : Runs code pos s .parts
  | plain {pos op next : ℕ} {xs : List Operand} {s s' : List ℕ} {what : Meaning}
    (here : OperationAt m.layout code pos op xs next) (does : m.effect op xs s = some s')
    (later : Runs code next s' what) : Runs code pos s what
  | skip {pos next target : ℕ} {o : ℤ} {s : List ℕ} {what : Meaning}
    (here : OperationAt m.layout code pos 0x2f [.number o] next) (goes : (target : ℤ) = next + o)
    (later : Runs code target s what) : Runs code pos s what
  | branch {pos next target a : ℕ} {o : ℤ} {s : List ℕ} {what : Meaning}
    (here : OperationAt m.layout code pos 0x28 [.number o] next)
    (goes : (target : ℤ) = if a = 0 then (next : ℤ) else next + o) (later : Runs code target s what) :
    Runs code pos (a :: s) what

/-- The meaning of an operation that is a whole location description. -/
inductive Describes : ℕ → List Operand → Meaning → Prop where
  | register {r : ℕ} (few : r < 32) : Describes (0x50 + r) [] (.register r)
  | registerX {r : ℕ} : Describes 0x90 [.number r] (.register r)
  | bytes {bs : List UInt8} : Describes 0x9e [.bytes bs] (.bytes bs)
  | pointer {xs : List Operand} : Describes 0xa0 xs (.pointer xs)

/-- What a whole expression means. -/
inductive Evaluates (code : List UInt8) : Meaning → Prop where
  | absent (empty : code = []) : Evaluates code .absent
  | description {op : ℕ} {xs : List Operand} {what : Meaning} (here : OperationAt m.layout code 0 op xs code.length)
    (is : Describes op xs what) : Evaluates code what
  | parts {op op' next next' : ℕ} {xs xs' : List Operand} {what : Meaning}
    (here : OperationAt m.layout code 0 op xs next) (is : Describes op xs what)
    (piece : OperationAt m.layout code next op' xs' next') (isPiece : IsPiece op') : Evaluates code .parts
  | runs {what : Meaning} (run : Runs m code 0 [] what) : Evaluates code what

end E5r.LocationExpressions
