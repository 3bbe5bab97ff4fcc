import E5r.Cursor
import E5r.RustText

/-!
The attribute values of debug information and the forms they are written in,
`read_form` of `dwarf.rs`, with the strings and addresses that a form finds by an
offset or an index in another section.
-/
namespace E5r.DwarfModel
open Cursor RustText

structure Sections where
  info : List UInt8
  abbrev_ : List UInt8
  str : List UInt8
  lineStr : List UInt8
  strOffsets : List UInt8
  addr : List UInt8
  line : List UInt8
deriving DecidableEq

inductive Value where
  | unsigned (v : ℕ)
  | signed (v : ℤ)
  | address (a : ℕ)
  | string (s : String)
  | reference (r : ℕ)
  | block (bytes : List UInt8)
  | flag (b : Bool)
  | listIndex (i : ℕ)
deriving DecidableEq

structure Unit where
  addressSize : ℕ
  sixtyFour : Bool
  version : ℕ
  base : ℕ
  strOffsetsBase : ℕ
  addrBase : ℕ
  endian : Endian
  sections : Sections
deriving DecidableEq

/-- Addition and multiplication of `usize`. -/
def wrap (n : ℕ) : ℕ := n % 2 ^ 64

/-- `slice::get` of a range. -/
def slice (bs : List UInt8) (start end_ : ℕ) : Option (List UInt8) :=
  if start ≤ end_ ∧ end_ ≤ bs.length then some ((bs.take end_).drop start) else none

def offset (sixtyFour : Bool) : Read ℕ := if sixtyFour then u64 else u32

def stringAt (section_ : List UInt8) (at_ : ℕ) : String :=
  match slice section_ at_ section_.length with
  | none => ""
  | some rest => fromUtf8Lossy (rest.takeWhile (· ≠ 0))

def indexedString (unit : Unit) (index : ℕ) : String :=
  let size := if unit.sixtyFour then 8 else 4
  let at_ := wrap (unit.strOffsetsBase + wrap (index * size))
  match slice unit.sections.strOffsets at_ (wrap (at_ + size)) with
  | none => ""
  | some bytes => stringAt unit.sections.str (toNat unit.endian bytes)

def addressFromTable (unit : Unit) (index : ℕ) : Option ℕ := do
  let size := max unit.addressSize 1
  let off ← if index * size < 2 ^ 64 then some (index * size) else none
  let at_ ← if unit.addrBase + off < 2 ^ 64 then some (unit.addrBase + off) else none
  let end_ ← if at_ + size < 2 ^ 64 then some (at_ + size) else none
  let bytes ← slice unit.sections.addr at_ end_
  let c := Cur.new bytes unit.endian
  let (v, _) ← (if size = 4 then u32 else u64) c
  some v

def DW_FORM_ADDR := 0x01
def DW_FORM_BLOCK2 := 0x03
def DW_FORM_BLOCK4 := 0x04
def DW_FORM_DATA2 := 0x05
def DW_FORM_DATA4 := 0x06
def DW_FORM_DATA8 := 0x07
def DW_FORM_STRING := 0x08
def DW_FORM_BLOCK := 0x09
def DW_FORM_BLOCK1 := 0x0a
def DW_FORM_DATA1 := 0x0b
def DW_FORM_FLAG := 0x0c
def DW_FORM_SDATA := 0x0d
def DW_FORM_STRP := 0x0e
def DW_FORM_UDATA := 0x0f
def DW_FORM_REF_ADDR := 0x10
def DW_FORM_REF1 := 0x11
def DW_FORM_REF2 := 0x12
def DW_FORM_REF4 := 0x13
def DW_FORM_REF8 := 0x14
def DW_FORM_REF_UDATA := 0x15
def DW_FORM_INDIRECT := 0x16
def DW_FORM_SEC_OFFSET := 0x17
def DW_FORM_EXPRLOC := 0x18
def DW_FORM_FLAG_PRESENT := 0x19
def DW_FORM_STRX := 0x1a
def DW_FORM_ADDRX := 0x1b
def DW_FORM_REF_SUP4 := 0x1c
def DW_FORM_STRP_SUP := 0x1d
def DW_FORM_DATA16 := 0x1e
def DW_FORM_LINE_STRP := 0x1f
def DW_FORM_IMPLICIT_CONST := 0x21
def DW_FORM_LOCLISTX := 0x22
def DW_FORM_RNGLISTX := 0x23
def DW_FORM_STRX1 := 0x25
def DW_FORM_STRX2 := 0x26
def DW_FORM_STRX3 := 0x27
def DW_FORM_STRX4 := 0x28
def DW_FORM_ADDRX1 := 0x29
def DW_FORM_ADDRX2 := 0x2a
def DW_FORM_ADDRX3 := 0x2b
def DW_FORM_ADDRX4 := 0x2c

def readAddress (unit : Unit) : Read ℕ := if unit.addressSize = 4 then u32 else u64

def readBlock (length : Read ℕ) : Read Value := do
  let n ← length
  let bs ← bytes n
  pure (.block bs)

/-- The three bytes of an index, the lowest first in either order. -/
def u24 : Read ℕ := leNat <$> bytes 3

/-- How a form that holds an index into the string offsets writes it. -/
def strxIndex (form : ℕ) : Option (Read ℕ) :=
  if form = DW_FORM_STRX1 then some u8
  else if form = DW_FORM_STRX2 then some u16
  else if form = DW_FORM_STRX3 then some u24
  else if form = DW_FORM_STRX4 then some u32
  else if form = DW_FORM_STRX then some uleb128
  else none

/-- How a form that holds an index into the addresses writes it. -/
def addrxIndex (form : ℕ) : Option (Read ℕ) :=
  if form = DW_FORM_ADDRX1 then some u8
  else if form = DW_FORM_ADDRX2 then some u16
  else if form = DW_FORM_ADDRX3 then some u24
  else if form = DW_FORM_ADDRX4 then some u32
  else if form = DW_FORM_ADDRX then some uleb128
  else none

def readDirect (form : ℕ) (implicit : ℤ) (unit : Unit) : Read Value :=
  match strxIndex form, addrxIndex form with
  | some index, _ => do pure (.string (indexedString unit (← index)))
  | _, some index => do pure (.address ((addressFromTable unit (← index)).getD 0))
  | none, none =>
    if form = DW_FORM_ADDR then do pure (.address (← readAddress unit))
    else if form = DW_FORM_BLOCK1 then readBlock u8
    else if form = DW_FORM_BLOCK2 then readBlock u16
    else if form = DW_FORM_BLOCK4 then readBlock u32
    else if form = DW_FORM_BLOCK ∨ form = DW_FORM_EXPRLOC then readBlock uleb128
    else if form = DW_FORM_DATA1 then do pure (.unsigned (← u8))
    else if form = DW_FORM_DATA2 then do pure (.unsigned (← u16))
    else if form = DW_FORM_DATA4 then do pure (.unsigned (← u32))
    else if form = DW_FORM_DATA8 then do pure (.unsigned (← u64))
    else if form = DW_FORM_DATA16 then do pure (.block (← bytes 16))
    else if form = DW_FORM_SDATA then do pure (.signed (← sleb128))
    else if form = DW_FORM_UDATA then do pure (.unsigned (← uleb128))
    else if form = DW_FORM_STRING then do pure (.string (fromUtf8Lossy (← cstr)))
    else if form = DW_FORM_STRP then do pure (.string (stringAt unit.sections.str (← offset unit.sixtyFour)))
    else if form = DW_FORM_LINE_STRP then do pure (.string (stringAt unit.sections.lineStr (← offset unit.sixtyFour)))
    else if form = DW_FORM_REF1 then do pure (.reference (wrap (unit.base + (← u8))))
    else if form = DW_FORM_REF2 then do pure (.reference (wrap (unit.base + (← u16))))
    else if form = DW_FORM_REF4 then do pure (.reference (wrap (unit.base + (← u32))))
    else if form = DW_FORM_REF8 then do pure (.reference (wrap (unit.base + (← u64))))
    else if form = DW_FORM_REF_UDATA then do pure (.reference (wrap (unit.base + (← uleb128))))
    else if form = DW_FORM_REF_ADDR then do pure (.reference (← offset unit.sixtyFour))
    else if form = DW_FORM_SEC_OFFSET then do pure (.unsigned (← offset unit.sixtyFour))
    else if form = DW_FORM_FLAG then do pure (.flag ((← u8) ≠ 0))
    else if form = DW_FORM_FLAG_PRESENT then pure (.flag true)
    else if form = DW_FORM_IMPLICIT_CONST then pure (.signed implicit)
    else if form = DW_FORM_LOCLISTX ∨ form = DW_FORM_RNGLISTX then do pure (.listIndex (← uleb128))
    else if form = DW_FORM_REF_SUP4 ∨ form = DW_FORM_STRP_SUP then do pure (.unsigned (← offset unit.sixtyFour))
    -- a form that is not known cannot be skipped by length
    else fun _ => none

/-- Read one attribute value in its form. An indirect form names the form, which takes
    a byte at least. -/
def readFormFrom (unit : Unit) : ℕ → ℕ → ℤ → Read Value
  | 0, _, _ => fun _ => none
  | fuel + 1, form, implicit =>
    if form = DW_FORM_INDIRECT then do readFormFrom unit fuel (← uleb128) 0 else readDirect form implicit unit

def readForm (form : ℕ) (implicit : ℤ) (unit : Unit) : Read Value := fun c =>
  readFormFrom unit (c.rest.length + 1) form implicit c

end E5r.DwarfModel
