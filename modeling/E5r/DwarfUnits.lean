import E5r.LineProgram

/-!
The units of `.debug_info`, `unit` and `abbreviations` of `dwarf.rs`: the entries of a
unit with the values of their attributes, and from them the functions and the global
variables, by address. Types, locations and line positions are left out.
-/
namespace E5r.DwarfUnits
open Cursor DwarfModel LineProgram RustText

/-- What an entry's tag and attributes are: an attribute, its form and the value that an
    implicit constant carries. -/
structure Abbreviation where
  tag : ℕ
  children : Bool
  attributes : List (ℕ × ℕ × ℤ)
deriving DecidableEq

/-- `implicit_const` carries its value in the abbreviation itself. -/
def implicitConst (form : ℕ) : Read ℤ := if form = DW_FORM_IMPLICIT_CONST then sleb128 else pure 0

def abbreviationAttributes (limit : ℕ) : ℕ → List (ℕ × ℕ × ℤ) → Read (List (ℕ × ℕ × ℤ))
  | 0, _ => fun _ => none
  | fuel + 1, attributes =>
    if limit < attributes.length then fun _ => none
    else do
      let attribute_ ← uleb128
      let form ← uleb128
      let implicit ← implicitConst form
      if attribute_ = 0 ∧ form = 0 then pure attributes
      else abbreviationAttributes limit fuel (attributes ++ [(attribute_, form, implicit)])

/-- `BTreeMap::insert`. -/
def insertKey {α : Type} (key : ℕ) (a : α) (l : List (ℕ × α)) : List (ℕ × α) := (key, a) :: l.filter (fun p => p.1 ≠ key)

/-- `BTreeMap::get`. -/
def getKey {α : Type} (l : List (ℕ × α)) (key : ℕ) : Option α := (l.find? (fun p => p.1 = key)).map (·.2)

/-- The declarations, up to the code zero. -/
def abbreviationsFrom (limit : ℕ) : ℕ → List (ℕ × Abbreviation) → Read (List (ℕ × Abbreviation))
  | 0, _ => fun _ => none
  | fuel + 1, out =>
    if limit < out.length then fun _ => none
    else do
      let code ← uleb128
      if code = 0 then pure out
      else do
        let tag ← uleb128
        let children ← u8
        let attributes ← abbreviationAttributes limit (limit + 2) []
        abbreviationsFrom limit fuel (insertKey code ⟨tag, children ≠ 0, attributes⟩ out)

def abbreviations (data : List UInt8) (at_ : ℕ) : Option (List (ℕ × Abbreviation)) := do
  let rest ← slice data at_ data.length
  let (out, _) ← abbreviationsFrom rest.length (rest.length + 2) [] (.new rest .little)
  some out

structure Entry where
  tag : ℕ
  parent : Option ℕ
  attributes : List (ℕ × Value)
deriving DecidableEq

def DW_TAG_COMPILE_UNIT := 0x11
def DW_TAG_SUBPROGRAM := 0x2e
def DW_TAG_VARIABLE := 0x34
def DW_AT_LOCATION := 0x02
def DW_AT_NAME := 0x03
def DW_AT_LOW_PC := 0x11
def DW_AT_ENTRY_PC := 0x52
def DW_AT_RANGES := 0x55
def DW_AT_STR_OFFSETS_BASE := 0x72
def DW_AT_ADDR_BASE := 0x73
def DW_AT_RNGLISTS_BASE := 0x74

def Entry.get (entry : Entry) (attribute_ : ℕ) : Option Value := getKey entry.attributes attribute_

def Entry.string (entry : Entry) : Option String :=
  match entry.get DW_AT_NAME with
  | some (.string s) => some s
  | _ => none

/-- An attribute that names an address, in either of the two forms a producer writes
    one. -/
def Entry.addrOf (entry : Entry) (attribute_ : ℕ) : Option ℕ :=
  match entry.get attribute_ with
  | some (.address a) => some a
  | some (.unsigned v) => some v
  | _ => none

def readAttributes (unit : DwarfModel.Unit) : List (ℕ × ℕ × ℤ) → Read (List (ℕ × Value))
  | [] => pure []
  | (attribute_, form, implicit) :: rest => do
    let value ← readForm form implicit unit
    let values ← readAttributes unit rest
    pure ((attribute_, value) :: values)

/-- Walk the tree of a unit: the entries by their offsets, or nothing at an abbreviation
    that the unit did not declare. -/
def walk (unit : DwarfModel.Unit) (abbrevs : List (ℕ × Abbreviation)) (length end_ : ℕ) :
    ℕ → List (ℕ × Entry) → List ℕ → Read (Option (List (ℕ × Entry)))
  | 0, _, _ => fun _ => none
  | fuel + 1, entries, stack => fun c =>
    if c.pos < end_ then
      if length < entries.length then none
      else
        match uleb128 c with
        | none => none
        | some (code, next) =>
          if code = 0 then walk unit abbrevs length end_ fuel entries stack.tail next
          else
            match getKey abbrevs code with
            | none => some (none, next)
            | some abbrev_ =>
              match readAttributes unit abbrev_.attributes next with
              | none => none
              | some (attributes, next) =>
                walk unit abbrevs length end_ fuel (entries ++ [(c.pos, ⟨abbrev_.tag, stack.head?, attributes⟩)])
                  (if abbrev_.children then c.pos :: stack else stack) next
    else some (some entries, c)

/-- What a unit's header says. -/
structure UnitHead where
  sixtyFour : Bool
  length : ℕ
  end_ : ℕ
  version : ℕ
  addressSize : ℕ
  abbrevOffset : ℕ
deriving DecidableEq

/-- DWARF 5 moved the address size and put a unit type first. -/
def unitSizes (version : ℕ) (sixtyFour : Bool) : Read (ℕ × ℕ) :=
  if 5 ≤ version then do
    let _ ← u8
    let addressSize ← u8
    let abbrevOffset ← offset sixtyFour
    pure (addressSize, abbrevOffset)
  else do
    let abbrevOffset ← offset sixtyFour
    let addressSize ← u8
    pure (addressSize, abbrevOffset)

def unitHead (sections : Sections) : Read UnitHead := do
  let (sixtyFour, length) ← initialLength
  let at_ ← position
  if ¬(at_ + length < 2 ^ 64 ∧ at_ + length ≤ sections.info.length ∧ at_ < at_ + length) then fun _ => none
  else do
    let version ← u16
    if ¬(2 ≤ version ∧ version ≤ 5) then fun _ => none
    else do
      let (addressSize, abbrevOffset) ← unitSizes version sixtyFour
      pure ⟨sixtyFour, length, at_ + length, version, addressSize, abbrevOffset⟩

/-- A unit after its entries are read, with the bases that its own entry declares. -/
structure ReadUnit where
  unit : DwarfModel.Unit
  rnglistsBase : ℕ
  lowPc : ℕ
  entries : List (ℕ × Entry)
deriving DecidableEq

def Entry.base (entry : Entry) (attribute_ default_ : ℕ) : ℕ :=
  match entry.get attribute_ with
  | some (.unsigned v) => v
  | _ => default_

/-- The bases DWARF 5 indirects through live on the unit's own entry. -/
def ownBases (unit : DwarfModel.Unit) (entries : List (ℕ × Entry)) : ReadUnit :=
  let lists := if unit.sixtyFour then 20 else 12
  match entries with
  | [] => ⟨unit, lists, 0, []⟩
  | (_, root) :: _ =>
    ⟨{ unit with
        strOffsetsBase := root.base DW_AT_STR_OFFSETS_BASE unit.strOffsetsBase,
        addrBase := root.base DW_AT_ADDR_BASE unit.addrBase },
      root.base DW_AT_RNGLISTS_BASE lists, (root.addrOf DW_AT_LOW_PC).getD 0, entries⟩

/-- One compilation unit: nothing when it uses an abbreviation it did not declare. The
    whole tree is read before the bases of its own entry are known. -/
def unitAt (sections : Sections) : Read (Option ReadUnit) := fun c => do
  let (head, next) ← unitHead sections c
  let abbrevs ← abbreviations sections.abbrev_ head.abbrevOffset
  let unit : DwarfModel.Unit := ⟨head.addressSize, head.sixtyFour, head.version, c.pos, 8, 8, c.endian, sections⟩
  let (found, next) ← walk unit abbrevs head.length head.end_ (next.data.length + 1) [] [] next
  match found with
  | none => some (none, next)
  | some entries => some (some (ownBases unit entries), next.seek head.end_)

/-- The units of a section, until one cannot be read. -/
def unitsFrom (sections : Sections) : ℕ → Cur → List (Option ReadUnit) → List (Option ReadUnit)
  | 0, _, units => units
  | fuel + 1, c, units =>
    if c.isEmpty then units
    else
      match unitAt sections c with
      | none => units
      | some (unit, next) => if next.pos ≤ c.pos then units ++ [unit] else unitsFrom sections fuel next (units ++ [unit])

def parseUnits (sections : Sections) (endian : Endian) : List (Option ReadUnit) :=
  unitsFrom sections (sections.info.length + 1) (.new sections.info endian) []

structure Lists where
  rnglists : List UInt8
  ranges : List UInt8
deriving DecidableEq

def checked (n : ℕ) : Option ℕ := if n < 2 ^ 64 then some n else none

inductive RangeEntry where
  | base (a : ℕ)
  | pair (start end_ : ℕ)
deriving DecidableEq

/-- A read whose value may be refused. -/
def refine_ {α β : Type} (m : Read α) (f : α → Option β) : Read β := do
  let a ← m
  fun c => (f a).map (fun b => (b, c))

def twoNumbers (first second : Read ℕ) : Read (ℕ × ℕ) := do pure (← first, ← second)

/-- An entry of `.debug_rnglists`; none at its end or at one that cannot be read. -/
def rangeEntry (unit : DwarfModel.Unit) (base : ℕ) : Read RangeEntry := do
  let kind ← u8
  if kind = 0x01 then refine_ uleb128 fun i => (addressFromTable unit i).map .base
  else if kind = 0x02 then refine_ (twoNumbers uleb128 uleb128) fun (s, e) => do
    some (.pair (← addressFromTable unit s) (← addressFromTable unit e))
  else if kind = 0x03 then refine_ (twoNumbers uleb128 uleb128) fun (s, n) => do
    let s ← addressFromTable unit s
    some (.pair s (← checked (s + n)))
  else if kind = 0x04 then refine_ (twoNumbers uleb128 uleb128) fun (s, e) => do
    some (.pair (← checked (base + s)) (← checked (base + e)))
  else if kind = 0x05 then do pure (.base (← readAddress unit))
  else if kind = 0x06 then refine_ (twoNumbers (readAddress unit) (readAddress unit)) fun (s, e) => some (.pair s e)
  else if kind = 0x07 then refine_ (twoNumbers (readAddress unit) uleb128) fun (s, n) => do some (.pair s (← checked (s + n)))
  else fun _ => none

/-- An entry of `.debug_ranges`: the all-ones first word announces a new base. -/
def addressPair (unit : DwarfModel.Unit) (base : ℕ) : Read RangeEntry :=
  let allOnes := if unit.addressSize = 4 then 2 ^ 32 - 1 else 2 ^ 64 - 1
  refine_ (twoNumbers (readAddress unit) (readAddress unit)) fun (start, end_) =>
    if start = 0 ∧ end_ = 0 then none
    else if start = allOnes then some (.base end_)
    else do some (.pair (← checked (base + start)) (← checked (base + end_)))

def rangeStarts (entry : ℕ → Read RangeEntry) : ℕ → ℕ → Cur → List ℕ
  | 0, _, _ => []
  | fuel + 1, base, c =>
    match entry base c with
    | none => []
    | some (.base a, c) => rangeStarts entry fuel a c
    | some (.pair start end_, c) => (if start < end_ then [start] else []) ++ rangeStarts entry fuel base c

/-- The ranges at an offset, in the section of the unit's version. -/
def rangeList (lists : Lists) (read : ReadUnit) (at_ : ℕ) : List ℕ :=
  if 5 ≤ read.unit.version then
    match slice lists.rnglists at_ lists.rnglists.length with
    | none => []
    | some rest => rangeStarts (rangeEntry read.unit) rest.length read.lowPc (.new rest read.unit.endian)
  else
    match slice lists.ranges at_ lists.ranges.length with
    | none => []
    | some rest => rangeStarts (addressPair read.unit) (rest.length / 2) read.lowPc (.new rest read.unit.endian)

def listOffset (lists : Lists) (read : ReadUnit) (index : ℕ) : Option ℕ := do
  let size := if read.unit.sixtyFour then 8 else 4
  let at_ ← checked (read.rnglistsBase + (← checked (index * size)))
  let bytes ← slice lists.rnglists at_ (← checked (at_ + size))
  checked (read.rnglistsBase + toNat read.unit.endian bytes)

/-- The starts of the ranges that an entry's `DW_AT_ranges` names. -/
def rangesOf (lists : Lists) (read : ReadUnit) (entry : Entry) : List ℕ :=
  match entry.get DW_AT_RANGES with
  | some (.unsigned at_) => rangeList lists read at_
  | some (.listIndex i) =>
    match listOffset lists read i with
    | some at_ => rangeList lists read at_
    | none => []
  | _ => []

/-- The address and the name of a function: its declared start, its entry point or the
    start of its lowest range. -/
def function (lists : Lists) (read : ReadUnit) (entry : Entry) : Option (ℕ × String) := do
  let low ← ((entry.addrOf DW_AT_LOW_PC).or (entry.addrOf DW_AT_ENTRY_PC)).or (rangesOf lists read entry).min?
  some (low, entry.string.getD "")

def DW_OP_ADDR : UInt8 := 0x03
def DW_OP_ADDRX : UInt8 := 0xa1

def staticAddress (value : Option Value) (unit : DwarfModel.Unit) : Option ℕ :=
  match value with
  | some (.block (op :: bytes)) =>
    let c := Cur.new bytes unit.endian
    if op = DW_OP_ADDR then (readAddress unit c).map (·.1)
    else if op = DW_OP_ADDRX then (uleb128 c).bind fun r => addressFromTable unit r.1
    else none
  | _ => none

def variable_ (unit : DwarfModel.Unit) (entry : Entry) : Option (ℕ × String) := do
  let name ← entry.string
  let addr ← staticAddress (entry.get DW_AT_LOCATION) unit
  some (addr, name)

def isUnit (entries : List (ℕ × Entry)) (at_ : ℕ) : Bool := (getKey entries at_).map Entry.tag = some DW_TAG_COMPILE_UNIT

/-- The names of the functions of a unit, by address, in the order of its entries. -/
def ReadUnit.functions (lists : Lists) (read : ReadUnit) : List (ℕ × String) :=
  (read.entries.filter fun p => p.2.tag = DW_TAG_SUBPROGRAM).filterMap fun p => function lists read p.2

/-- The names of the variables of a unit, by address: those directly in the unit. -/
def ReadUnit.variables (read : ReadUnit) : List (ℕ × String) :=
  (read.entries.filter fun p => p.2.tag = DW_TAG_VARIABLE && p.2.parent.all (isUnit read.entries)).filterMap
    fun p => variable_ read.unit p.2

def named (found : List (ℕ × String)) : List (ℕ × String) := found.foldl (fun out p => insertKey p.1 p.2 out) []

def parseFunctions (sections : Sections) (lists : Lists) (endian : Endian) : List (ℕ × String) :=
  named ((parseUnits sections endian).flatMap fun u => (u.map (ReadUnit.functions lists)).getD [])

def parseVariables (sections : Sections) (endian : Endian) : List (ℕ × String) :=
  named ((parseUnits sections endian).flatMap fun u => (u.map ReadUnit.variables).getD [])

end E5r.DwarfUnits
