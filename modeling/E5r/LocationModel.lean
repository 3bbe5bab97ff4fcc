import E5r.DwarfModel

/-!
What `dwarf.rs` takes a location expression for: `decode_location`, and the two
functions that ask for a frame offset and for a fixed address alone.
-/
namespace E5r.LocationModel
open Cursor DwarfModel

/-- Where a value lives, as far as a location expression says. -/
inductive Location where
  | register (r : ℕ)
  | frameOffset (o : ℤ)
  | registerOffset (r : ℕ) (o : ℤ)
  | address (a : ℕ)
  | constant (v : ℤ)
  | expression (bytes : List UInt8)
deriving DecidableEq

def DW_OP_ADDR := 0x03
def DW_OP_LIT0 := 0x30
def DW_OP_LIT31 := 0x4f
def DW_OP_REG0 := 0x50
def DW_OP_REG31 := 0x6f
def DW_OP_BREG0 := 0x70
def DW_OP_BREG31 := 0x8f
def DW_OP_REGX := 0x90
def DW_OP_FBREG := 0x91
def DW_OP_BREGX := 0x92
def DW_OP_STACK_VALUE := 0x9f
def DW_OP_ADDRX := 0xa1

/-- `u16::try_from`. -/
def toU16 (v : ℕ) : Option ℕ := if v < 2 ^ 16 then some v else none

def operand (op : ℕ) (unit : DwarfModel.Unit) : Option (Read Location) :=
  if op = DW_OP_ADDR then some (Location.address <$> readAddress unit)
  else if op = DW_OP_ADDRX then
    some do
      let index ← uleb128
      Location.address <$> StateT.lift (addressFromTable unit index)
  else if op = DW_OP_FBREG then some (Location.frameOffset <$> sleb128)
  else if op = DW_OP_REGX then
    some do
      let register ← uleb128
      Location.register <$> StateT.lift (toU16 register)
  else if op = DW_OP_BREGX then
    some do
      let register ← uleb128
      let register ← StateT.lift (toU16 register)
      Location.registerOffset register <$> sleb128
  else if DW_OP_LIT0 ≤ op ∧ op ≤ DW_OP_LIT31 then some (pure (.constant (op - DW_OP_LIT0 : ℕ)))
  else if DW_OP_REG0 ≤ op ∧ op ≤ DW_OP_REG31 then some (pure (.register (op - DW_OP_REG0)))
  else if DW_OP_BREG0 ≤ op ∧ op ≤ DW_OP_BREG31 then some (Location.registerOffset (op - DW_OP_BREG0) <$> sleb128)
  else none

/-- The loop over what is left: nothing, or markers. -/
def onlyMarkers : List UInt8 → Bool
  | [] => true
  | b :: rest => if b.toNat = DW_OP_STACK_VALUE then onlyMarkers rest else false

def decodeKnown (code : List UInt8) (unit : DwarfModel.Unit) : Option Location := do
  let (op, reader) ← u8 (Cur.new code unit.endian)
  match operand op unit with
  | none => some (.expression code)
  | some read => do
    let (decoded, reader) ← read reader
    if onlyMarkers reader.rest then some decoded else some (.expression code)

def decodeLocation (code : List UInt8) (unit : DwarfModel.Unit) : Option Location :=
  if code = [] then none else some ((decodeKnown code unit).getD (.expression code))

def frameOffset : Option Value → Option ℤ
  | some (.block (b :: code)) => do
    if b.toNat = DW_OP_FBREG then
      let (o, reader) ← sleb128 (Cur.new code .little)
      if reader.isEmpty then some o else none
    else none
  | _ => none

def staticAddress (value : Option Value) (unit : DwarfModel.Unit) : Option ℕ :=
  match value with
  | some (.block (b :: code)) =>
    if b.toNat = DW_OP_ADDR then (readAddress unit (Cur.new code unit.endian)).map Prod.fst
    else if b.toNat = DW_OP_ADDRX then do
      let (index, _) ← uleb128 (Cur.new code unit.endian)
      addressFromTable unit index
    else none
  | _ => none

end E5r.LocationModel
