import E5r.DwarfUnits
import E5r.LineMachine

/-!
What the units of DWARF 5 are: the bytes of a unit and of its abbreviations, the tree of
its entries, and what an attribute written as an index means: the string or the address
found at that index from the base that the unit declares.
-/
namespace E5r.DwarfTrees
open Cursor DwarfModel DwarfUnits LineMachine RustText

/-- An attribute as it is written: a value of its own, or an index, and whether that is in
    three bytes. -/
inductive Written where
  | value (v : Value)
  | strx (three : Bool) (index : ℕ)
  | addrx (three : Bool) (index : ℕ)
deriving DecidableEq

/-- What the forms of a unit depend on. -/
structure Format where
  endian : Endian
  sixtyFour : Bool
  addressSize : ℕ
deriving DecidableEq

def Format.offsetSize (f : Format) : ℕ := if f.sixtyFour then 8 else 4

def BytesIn (section_ : List UInt8) (at_ : ℕ) (bs : List UInt8) : Prop :=
  ∃ before after, section_ = before ++ bs ++ after ∧ before.length = at_

def IndexedString (f : Format) (sections : Sections) (base index : ℕ) (s : List UInt8) : Prop :=
  ∃ bs at_, BytesIn sections.strOffsets (base + index * f.offsetSize) bs ∧ Offset f.endian f.sixtyFour bs at_ ∧
    StringIn sections.str at_ s

def IndexedAddress (f : Format) (sections : Sections) (base index a : ℕ) : Prop :=
  ∃ bs, BytesIn sections.addr (base + index * f.addressSize) bs ∧ bs.length = f.addressSize ∧ toNat f.endian bs = a

/-- What an attribute means in a unit with its own bases. -/
inductive Means (f : Format) (sections : Sections) (strBase addrBase : ℕ) : Written → Value → Prop where
  | value (v : Value) : Means f sections strBase addrBase (.value v) v
  | strx {three : Bool} {index : ℕ} {s : List UInt8} (found : IndexedString f sections strBase index s) :
    Means f sections strBase addrBase (.strx three index) (.string (fromUtf8Lossy s))
  | addrx {three : Bool} {index a : ℕ} (found : IndexedAddress f sections addrBase index a) :
    Means f sections strBase addrBase (.addrx three index) (.address a)

/-- How an index is written in its forms, and whether that is in three bytes. -/
inductive Index (e : Endian) (leb one two three four : ℕ) : ℕ → List UInt8 → Bool → ℕ → Prop where
  | leb {bs : List UInt8} {i : ℕ} (number : Number bs i) : Index e leb one two three four leb bs false i
  | one {bs : List UInt8} (width : bs.length = 1) : Index e leb one two three four one bs false (toNat e bs)
  | two {bs : List UInt8} (width : bs.length = 2) : Index e leb one two three four two bs false (toNat e bs)
  | three {bs : List UInt8} (width : bs.length = 3) : Index e leb one two three four three bs true (toNat e bs)
  | four {bs : List UInt8} (width : bs.length = 4) : Index e leb one two three four four bs false (toNat e bs)

def StrIndex (e : Endian) := Index e DW_FORM_STRX DW_FORM_STRX1 DW_FORM_STRX2 DW_FORM_STRX3 DW_FORM_STRX4

def AddrIndex (e : Endian) := Index e DW_FORM_ADDRX DW_FORM_ADDRX1 DW_FORM_ADDRX2 DW_FORM_ADDRX3 DW_FORM_ADDRX4

/-- How an attribute is written in a form, with the value that an implicit constant
    carries, in the unit that starts at an offset of the section: every form but the
    signature of a type and the references into a supplementary file. -/
inductive Spelled (f : Format) (sections : Sections) (start : ℕ) : ℕ → ℤ → List UInt8 → Written → Prop where
  | strx {form index : ℕ} {i : ℤ} {three : Bool} {bs : List UInt8} (is : StrIndex f.endian form bs three index) :
    Spelled f sections start form i bs (.strx three index)
  | addrx {form index : ℕ} {i : ℤ} {three : Bool} {bs : List UInt8} (is : AddrIndex f.endian form bs three index) :
    Spelled f sections start form i bs (.addrx three index)
  | addr {i : ℤ} {bs : List UInt8} (width : bs.length = f.addressSize) :
    Spelled f sections start DW_FORM_ADDR i bs (.value (.address (toNat f.endian bs)))
  | block1 {i : ℤ} {size bs : List UInt8} (width : size.length = 1) (length : toNat f.endian size = bs.length) :
    Spelled f sections start DW_FORM_BLOCK1 i (size ++ bs) (.value (.block bs))
  | block2 {i : ℤ} {size bs : List UInt8} (width : size.length = 2) (length : toNat f.endian size = bs.length) :
    Spelled f sections start DW_FORM_BLOCK2 i (size ++ bs) (.value (.block bs))
  | block4 {i : ℤ} {size bs : List UInt8} (width : size.length = 4) (length : toNat f.endian size = bs.length) :
    Spelled f sections start DW_FORM_BLOCK4 i (size ++ bs) (.value (.block bs))
  | block {i : ℤ} {size bs : List UInt8} (length : Number size bs.length) :
    Spelled f sections start DW_FORM_BLOCK i (size ++ bs) (.value (.block bs))
  | exprloc {i : ℤ} {size bs : List UInt8} (length : Number size bs.length) :
    Spelled f sections start DW_FORM_EXPRLOC i (size ++ bs) (.value (.block bs))
  | data1 {i : ℤ} {bs : List UInt8} (width : bs.length = 1) :
    Spelled f sections start DW_FORM_DATA1 i bs (.value (.unsigned (toNat f.endian bs)))
  | data2 {i : ℤ} {bs : List UInt8} (width : bs.length = 2) :
    Spelled f sections start DW_FORM_DATA2 i bs (.value (.unsigned (toNat f.endian bs)))
  | data4 {i : ℤ} {bs : List UInt8} (width : bs.length = 4) :
    Spelled f sections start DW_FORM_DATA4 i bs (.value (.unsigned (toNat f.endian bs)))
  | data8 {i : ℤ} {bs : List UInt8} (width : bs.length = 8) :
    Spelled f sections start DW_FORM_DATA8 i bs (.value (.unsigned (toNat f.endian bs)))
  | data16 {i : ℤ} {bs : List UInt8} (width : bs.length = 16) : Spelled f sections start DW_FORM_DATA16 i bs (.value (.block bs))
  | sdata {i v : ℤ} {bs : List UInt8} (number : SignedNumber bs v) :
    Spelled f sections start DW_FORM_SDATA i bs (.value (.signed v))
  | udata {i : ℤ} {v : ℕ} {bs : List UInt8} (number : Number bs v) :
    Spelled f sections start DW_FORM_UDATA i bs (.value (.unsigned v))
  | string {i : ℤ} {s : List UInt8} (plain : 0 ∉ s) :
    Spelled f sections start DW_FORM_STRING i (s ++ [0]) (.value (.string (fromUtf8Lossy s)))
  | strp {i : ℤ} {at_ : ℕ} {bs s : List UInt8} (offset : Offset f.endian f.sixtyFour bs at_)
    (text : StringIn sections.str at_ s) : Spelled f sections start DW_FORM_STRP i bs (.value (.string (fromUtf8Lossy s)))
  | lineStrp {i : ℤ} {at_ : ℕ} {bs s : List UInt8} (offset : Offset f.endian f.sixtyFour bs at_)
    (text : StringIn sections.lineStr at_ s) :
    Spelled f sections start DW_FORM_LINE_STRP i bs (.value (.string (fromUtf8Lossy s)))
  -- a reference stays within the section
  | ref1 {i : ℤ} {bs : List UInt8} (width : bs.length = 1) (inside : start + toNat f.endian bs < sections.info.length) :
    Spelled f sections start DW_FORM_REF1 i bs (.value (.reference (start + toNat f.endian bs)))
  | ref2 {i : ℤ} {bs : List UInt8} (width : bs.length = 2) (inside : start + toNat f.endian bs < sections.info.length) :
    Spelled f sections start DW_FORM_REF2 i bs (.value (.reference (start + toNat f.endian bs)))
  | ref4 {i : ℤ} {bs : List UInt8} (width : bs.length = 4) (inside : start + toNat f.endian bs < sections.info.length) :
    Spelled f sections start DW_FORM_REF4 i bs (.value (.reference (start + toNat f.endian bs)))
  | ref8 {i : ℤ} {bs : List UInt8} (width : bs.length = 8) (inside : start + toNat f.endian bs < sections.info.length) :
    Spelled f sections start DW_FORM_REF8 i bs (.value (.reference (start + toNat f.endian bs)))
  | refUdata {i : ℤ} {v : ℕ} {bs : List UInt8} (number : Number bs v) (inside : start + v < sections.info.length) :
    Spelled f sections start DW_FORM_REF_UDATA i bs (.value (.reference (start + v)))
  | refAddr {i : ℤ} {at_ : ℕ} {bs : List UInt8} (offset : Offset f.endian f.sixtyFour bs at_) :
    Spelled f sections start DW_FORM_REF_ADDR i bs (.value (.reference at_))
  | secOffset {i : ℤ} {at_ : ℕ} {bs : List UInt8} (offset : Offset f.endian f.sixtyFour bs at_) :
    Spelled f sections start DW_FORM_SEC_OFFSET i bs (.value (.unsigned at_))
  | flag {i : ℤ} {b : UInt8} : Spelled f sections start DW_FORM_FLAG i [b] (.value (.flag (b ≠ 0)))
  | flagPresent {i : ℤ} : Spelled f sections start DW_FORM_FLAG_PRESENT i [] (.value (.flag true))
  | implicitConst {i : ℤ} : Spelled f sections start DW_FORM_IMPLICIT_CONST i [] (.value (.signed i))
  | loclistx {i : ℤ} {v : ℕ} {bs : List UInt8} (number : Number bs v) :
    Spelled f sections start DW_FORM_LOCLISTX i bs (.value (.listIndex v))
  | rnglistx {i : ℤ} {v : ℕ} {bs : List UInt8} (number : Number bs v) :
    Spelled f sections start DW_FORM_RNGLISTX i bs (.value (.listIndex v))
  | strpSup {i : ℤ} {at_ : ℕ} {bs : List UInt8} (offset : Offset f.endian f.sixtyFour bs at_) :
    Spelled f sections start DW_FORM_STRP_SUP i bs (.value (.unsigned at_))
  | indirect {i : ℤ} {form : ℕ} {number bs : List UInt8} {w : Written} (is : Number number form)
    (explicit : form ≠ DW_FORM_IMPLICIT_CONST) (actual : Spelled f sections start form 0 bs w) :
    Spelled f sections start DW_FORM_INDIRECT i (number ++ bs) w

/-- The attributes of an entry, as its abbreviation lists them. -/
inductive Attributes (f : Format) (sections : Sections) (start : ℕ) :
    List (ℕ × ℕ × ℤ) → List UInt8 → List (ℕ × Written) → Prop where
  | nil : Attributes f sections start [] [] []
  | cons {attribute_ form : ℕ} {implicit : ℤ} {rest : List (ℕ × ℕ × ℤ)} {bs cs : List UInt8} {w : Written}
    {ws : List (ℕ × Written)} (first : Spelled f sections start form implicit bs w)
    (later : Attributes f sections start rest cs ws) :
    Attributes f sections start ((attribute_, form, implicit) :: rest) (bs ++ cs) ((attribute_, w) :: ws)

/-- The value that an abbreviation carries for an implicit constant. -/
inductive Implicit : ℕ → ℤ → List UInt8 → Prop where
  | const {i : ℤ} {bs : List UInt8} (number : SignedNumber bs i) : Implicit DW_FORM_IMPLICIT_CONST i bs
  | none {form : ℕ} (other : form ≠ DW_FORM_IMPLICIT_CONST) : Implicit form 0 []

inductive AttributeSpecs : List (ℕ × ℕ × ℤ) → List UInt8 → Prop where
  | nil {bs cs : List UInt8} (first : Number bs 0) (second : Number cs 0) : AttributeSpecs [] (bs ++ cs)
  | cons {attribute_ form : ℕ} {implicit : ℤ} {rest : List (ℕ × ℕ × ℤ)} {bs cs ds es : List UInt8}
    (first : Number bs attribute_) (second : Number cs form) (carried : Implicit form implicit ds)
    (some : ¬(attribute_ = 0 ∧ form = 0)) (later : AttributeSpecs rest es) :
    AttributeSpecs ((attribute_, form, implicit) :: rest) (bs ++ cs ++ ds ++ es)

/-- The declarations of a table, each with a code of its own. -/
inductive Declarations : List (ℕ × Abbreviation) → List UInt8 → Prop where
  | nil {bs : List UInt8} (zero : Number bs 0) : Declarations [] bs
  | cons {code tag : ℕ} {children : Bool} {specs : List (ℕ × ℕ × ℤ)} {rest : List (ℕ × Abbreviation)} {bs cs ds es : List UInt8}
    (first : Number bs code) (nonzero : code ≠ 0) (second : Number cs tag) (attributes : AttributeSpecs specs ds)
    (fresh : code ∉ rest.map Prod.fst) (later : Declarations rest es) :
    Declarations ((code, ⟨tag, children, specs⟩) :: rest) (bs ++ cs ++ (if children then 1 else 0) :: ds ++ es)

structure WrittenEntry where
  tag : ℕ
  parent : Option ℕ
  attributes : List (ℕ × Written)
deriving DecidableEq

section
variable (f : Format) (sections : Sections) (start : ℕ) (abbrevs : List (ℕ × Abbreviation))

/-- Entries next to each other, from an offset on, with all below them: each by its
    offset. -/
inductive Forest : Option ℕ → ℕ → List (ℕ × WrittenEntry) → List UInt8 → Prop where
  | nil {parent : Option ℕ} {at_ : ℕ} : Forest parent at_ [] []
  | leaf {parent : Option ℕ} {at_ code tag : ℕ} {specs : List (ℕ × ℕ × ℤ)} {ws : List (ℕ × Written)}
    {rest : List (ℕ × WrittenEntry)} {bs cs ds : List UInt8} (coded : Number bs code) (nonzero : code ≠ 0)
    (declared : (code, ⟨tag, false, specs⟩) ∈ abbrevs) (attributes : Attributes f sections start specs cs ws)
    (siblings : Forest parent (at_ + (bs ++ cs).length) rest ds) :
    Forest parent at_ ((at_, ⟨tag, parent, ws⟩) :: rest) (bs ++ cs ++ ds)
  | node {parent : Option ℕ} {at_ code tag : ℕ} {specs : List (ℕ × ℕ × ℤ)} {ws : List (ℕ × Written)}
    {below rest : List (ℕ × WrittenEntry)} {bs cs ds zero es : List UInt8} (coded : Number bs code) (nonzero : code ≠ 0)
    (declared : (code, ⟨tag, true, specs⟩) ∈ abbrevs) (attributes : Attributes f sections start specs cs ws)
    (children : Forest (some at_) (at_ + (bs ++ cs).length) below ds) (ended : Number zero 0)
    (siblings : Forest parent (at_ + (bs ++ cs ++ ds ++ zero).length) rest es) :
    Forest parent at_ ((at_, ⟨tag, parent, ws⟩) :: (below ++ rest)) (bs ++ cs ++ ds ++ zero ++ es)
end

/-- A unit as it is written: its forms, where it starts, the bases that its own entry
    declares, and its entries. -/
structure WrittenUnit where
  format : Format
  start : ℕ
  strBase : ℕ
  addrBase : ℕ
  entries : List (ℕ × WrittenEntry)
deriving DecidableEq

def WrittenUnit.means (sections : Sections) (u : WrittenUnit) : Written → Value → Prop :=
  Means u.format sections u.strBase u.addrBase

def Declares (entries : List (ℕ × WrittenEntry)) (attribute_ base : ℕ) : Prop :=
  ∃ at_ root rest, entries = (at_, root) :: rest ∧ getKey root.attributes attribute_ = some (.value (.unsigned base))

/-- The bytes of a unit of DWARF 5, for code or a part of it, in the section from its
    start on. -/
inductive UnitBytes (sections : Sections) : WrittenUnit → List UInt8 → Prop where
  | unit {u : WrittenUnit} {abbrevs : List (ℕ × Abbreviation)} {abbrevOffset : ℕ}
    {length version abbrevAt code table after : List UInt8} {unitType size : UInt8}
    (isVersion : version.length = 2 ∧ toNat u.format.endian version = 5) (isType : unitType = 1 ∨ unitType = 3)
    (isSize : size.toNat = u.format.addressSize) (isOffset : Offset u.format.endian u.format.sixtyFour abbrevAt abbrevOffset)
    (declarations : Declarations abbrevs table) (inTable : abbrevOffset ≤ sections.abbrev_.length)
    (isTable : sections.abbrev_.drop abbrevOffset = table ++ after)
    (tree : Forest u.format sections u.start abbrevs none
      (u.start + (length ++ version ++ [unitType, size] ++ abbrevAt).length) u.entries code)
    (strBase : Declares u.entries DW_AT_STR_OFFSETS_BASE u.strBase) (addrBase : Declares u.entries DW_AT_ADDR_BASE u.addrBase)
    (found : ∀ p ∈ u.entries, ∀ a ∈ p.2.attributes, ∃ v, u.means sections a.2 v)
    (isLength : InitialLength u.format.endian u.format.sixtyFour (version ++ [unitType, size] ++ abbrevAt ++ code).length length) :
    UnitBytes sections u (length ++ (version ++ [unitType, size] ++ abbrevAt ++ code))

/-- Units one after another, from an offset of the section on. -/
inductive Units (e : Endian) (sections : Sections) : ℕ → List WrittenUnit → List UInt8 → Prop where
  | nil {at_ : ℕ} : Units e sections at_ [] []
  | cons {at_ : ℕ} {u : WrittenUnit} {us : List WrittenUnit} {bs cs : List UInt8} (starts : u.start = at_)
    (order : u.format.endian = e) (first : UnitBytes sections u bs) (rest : Units e sections (at_ + bs.length) us cs) :
    Units e sections at_ (u :: us) (bs ++ cs)

end E5r.DwarfTrees
