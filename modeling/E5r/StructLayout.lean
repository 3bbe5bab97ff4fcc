import E5r.CheckedWords

/-!
How a structure or union body is laid out. The code carries its cursor in bits in one
machine word, where its sums and products wrap.
-/
namespace E5r.StructLayout
open CheckedWords

def divCeil (v to_ : ℕ) : ℕ := if v % to_ > 0 then v / to_ + 1 else v / to_

def roundUp (ar : Arith) (v to_ : ℕ) : Option ℕ :=
  if to_ ≤ 1 then some v else ar.mul (divCeil v to_) to_

/-- The sizes of a target that the layout reads. -/
structure Model where
  pointer : UInt8
  maxAlign : UInt8
deriving DecidableEq

def lp64 : Model := ⟨8, 16⟩
def ilp32 : Model := ⟨4, 4⟩
def llp64 : Model := ⟨8, 8⟩

/-- A type, down to what its size and its alignment rest on. A composite is
    named by its place in the store, where it may contain itself. -/
inductive CType where
  | void | bool
  | int (size : UInt8) (signed : Bool)
  | float (size : UInt8)
  | pointer
  | array (inner : CType) (length : Option UInt64)
  | composite (id : ℕ)
  | enum (size : UInt8)
  | function
  | typedef (name : String) (inner : CType)
  | qualified (inner : CType)
  | opaque_ (name : String)
deriving DecidableEq

/-- A structure or a union of the store: its size, and the types of its fields. -/
structure Composite where
  size : Option UInt64
  fields : List CType
deriving DecidableEq

structure Types where
  model : Model
  composites : ℕ → Option Composite

def Types.sizeOf (ts : Types) (ar : Arith) : CType → Option (Option ℕ)
  | .void => some none
  | .bool => some (some 1)
  | .int size _ | .float size => some (some size.toNat)
  | .pointer => some (some ts.model.pointer.toNat)
  | .array inner (some n) => do
    match ← ts.sizeOf ar inner with
    | none => return none
    | some size => return some (← ar.mul size n.toNat)
  | .array _ none => some none
  | .composite id => some ((ts.composites id).bind fun c => c.size.map UInt64.toNat)
  | .enum size => some (some size.toNat)
  | .function => some none
  | .typedef _ inner | .qualified inner => ts.sizeOf ar inner
  | .opaque_ _ => some none

def clamp (v low high : ℕ) : ℕ := if v < low then low else if v > high then high else v

/-- The alignment of a type whose parts are seen down to some depth. -/
def Types.alignAt (ts : Types) : ℕ → CType → Option ℕ
  | 0, _ => none
  | depth + 1, ty =>
    let cap := max ts.model.maxAlign.toNat 1
    match ty with
    | .void | .function | .opaque_ _ => none
    | .bool => some 1
    | .int size _ | .float size => some (clamp size.toNat 1 cap)
    | .pointer => some (clamp ts.model.pointer.toNat 1 cap)
    | .array inner _ => ts.alignAt depth inner
    | .composite id => (ts.composites id).map fun c => ((c.fields.filterMap (ts.alignAt depth)).max?).getD 1
    | .enum size => some (clamp size.toNat 1 cap)
    | .typedef _ inner | .qualified inner => ts.alignAt depth inner

/-- The code looks at no part of a type more than 32 levels deep. -/
def Types.alignOf (ts : Types) (ty : CType) : Option ℕ := ts.alignAt 33 ty

def resolveFrom : ℕ → CType → CType
  | 0, ty => ty
  | fuel + 1, ty =>
    match ty with
    | .typedef _ inner | .qualified inner => resolveFrom fuel inner
    | ty => ty

def resolve (ty : CType) : CType := resolveFrom 64 ty

structure Declared where
  name : Option String
  ty : CType
  width : Option ℤ
  at_ : ℕ
deriving DecidableEq

structure Member where
  name : Option String
  ty : CType
  bits : Option UInt8
  at_ : ℕ
deriving DecidableEq

structure Field where
  name : String
  ty : CType
  offset : ℕ
  bits : Option UInt8
deriving DecidableEq

inductive Refusal where
  | bitWidth (width : ℤ) (at_ : ℕ)
  | unknownSize (name : String) (ty : CType) (at_ : ℕ)
  | tooLarge (at_ : ℕ)
deriving DecidableEq

def bitWidth (width : ℤ) (at_ : ℕ) : Except Refusal UInt8 :=
  if 0 ≤ width ∧ width ≤ 64 then .ok (.ofNat width.toNat) else .error (.bitWidth width at_)

def member (d : Declared) : Except Refusal Member := do
  match d.width with
  | none => return ⟨d.name, d.ty, none, d.at_⟩
  | some width => return ⟨d.name, d.ty, some (← bitWidth width d.at_), d.at_⟩

def align (ts : Types) (ty : CType) : ℕ := max ((ts.alignOf ty).getD 1) 1

def isFlexible (ty : CType) : Bool :=
  match resolve ty with
  | .array _ none => true
  | _ => false

/-- The size of a member: a flexible array is the one incomplete type that a body
    may end with. -/
def memberSize (ar : Arith) (ts : Types) (last : Bool) (m : Member) : Option (Except Refusal ℕ) := do
  match ← ts.sizeOf ar m.ty with
  | some size => return .ok size
  | none =>
    if last && isFlexible m.ty then return .ok 0
    else return .error (.unknownSize (m.name.getD "a member") m.ty m.at_)

/-- The byte offset that a member is recorded at, and the cursor behind it. -/
def place (ar : Arith) (align size : ℕ) (bits : Option UInt8) (cursor : ℕ) : Option (Option ℕ × ℕ) := do
  match bits with
  | none =>
    let cursor ← roundUp ar cursor (← ar.mul align 8)
    return (some (cursor / 8), ← ar.add cursor (← ar.mul size 8))
  | some width =>
    -- a zero-width bitfield closes the current unit
    if width = 0 then return (none, ← roundUp ar cursor (← ar.mul align 8))
    else
      let unit ← ar.mul (max size 1) 8
      -- the division by a unit that wrapped to nothing panics
      if unit = 0 then none
      else
        let start ← ar.mul (cursor / unit) unit
        let stop ← ar.add cursor width.toNat
        let limit ← ar.add start unit
        let cursor ← (if stop > limit then do roundUp ar cursor (← ar.mul align 8) else some cursor)
        let offset ← ar.mul (cursor / unit) unit
        return (some (offset / 8), ← ar.add cursor width.toNat)

/-- What the loop over the members carries. -/
structure State where
  fields : List Field
  bits : ℕ
  maxAlign : ℕ
  widest : ℕ
deriving DecidableEq

def Member.field (m : Member) (offset : ℕ) : Field := ⟨m.name.getD "", m.ty, offset, m.bits⟩

def layoutMember (ar : Arith) (ts : Types) (union last : Bool) (m : Member) (s : State) :
    Option (Except Refusal State) := do
  let align := align ts m.ty
  let s := { s with maxAlign := max s.maxAlign align }
  match ← memberSize ar ts last m with
  | .error refusal => return .error refusal
  | .ok size =>
    if union then
      if m.bits = some 0 then return .ok s
      else return .ok { s with widest := max s.widest size, fields := s.fields ++ [m.field 0] }
    else
      let (offset, bits) ← place ar align size m.bits s.bits
      return .ok { s with bits, fields := s.fields ++ (offset.map m.field).toList }

def layoutFrom (ar : Arith) (ts : Types) (union : Bool) : List Member → State → Option (Except Refusal State)
  | [], s => some (.ok s)
  | m :: ms, s => do
    match ← layoutMember ar ts union ms.isEmpty m s with
    | .error refusal => return .error refusal
    | .ok s => layoutFrom ar ts union ms s

/-- Places the members and gives the whole a size. There is no answer where the
    program stops. -/
def layout (ar : Arith) (ts : Types) (union : Bool) (members : List Member) (at_ : ℕ) :
    Option (Except Refusal (List Field × ℕ)) := do
  match ← layoutFrom ar ts union members ⟨[], 0, 1, 0⟩ with
  | .error refusal => return .error refusal
  | .ok s =>
    let size ← (if union then roundUp ar s.widest s.maxAlign
      else do roundUp ar ((← roundUp ar s.bits 8) / 8) s.maxAlign)
    if size > 2 ^ 32 - 1 then return .error (.tooLarge at_) else return .ok (s.fields, size)

def body (ar : Arith) (ts : Types) (union : Bool) (declared : List Declared) (at_ : ℕ) :
    Option (Except Refusal (List Field × ℕ)) :=
  match declared.mapM member with
  | .error refusal => some (.error refusal)
  | .ok members => layout ar ts union members at_

end E5r.StructLayout
