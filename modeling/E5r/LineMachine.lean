import E5r.LineProgram

/-!
What a line number program means: the state machine of DWARF, over numbers without a
width, the sequences of rows it gives, and the bytes that a program is written in. A
number of variable length takes at most eleven bytes and fits 64 bits.
-/
namespace E5r.LineMachine
open Cursor DwarfModel LineProgram RustText

inductive Op where
  | special (opcode : ℕ)
  | copy
  | advancePc (n : ℕ)
  | advanceLine (n : ℤ)
  | setFile (n : ℕ)
  | setColumn (n : ℕ)
  | negateStmt
  | constAddPc
  | fixedAdvancePc (n : ℕ)
  -- an opcode that changes no register of a row
  | other
  | endSequence
  -- an address and the bytes it is written in
  | setAddress (a width : ℕ)
  -- a file that is added to the table
  | defineFile (name : String)
deriving DecidableEq

/-- The registers that rows show, and the file table. -/
structure Registers where
  address : ℕ
  file : ℕ
  line : ℤ
  column : ℕ
  isStmt : Bool
  files : List String
deriving DecidableEq

structure Row where
  address : ℕ
  file : String
  line : ℤ
  column : ℕ
  isStmt : Bool
deriving DecidableEq

/-- The rows of a sequence and the row of its first address past the end. -/
structure Sequence where
  rows : List Row
  last : Row
deriving DecidableEq

/-- The registers, the rows of the sequence so far, and the sequences before it. -/
structure Machine where
  registers : Registers
  rows : List Row
  done : List Sequence
deriving DecidableEq

def Registers.start (h : Header) (files : List String) : Registers := ⟨0, 1, 1, 0, h.defaultIsStmt, files⟩

def Registers.row (r : Registers) : Row := ⟨r.address, r.files.getD r.file "", r.line, r.column, r.isStmt⟩

def Registers.advance (h : Header) (r : Registers) (n : ℕ) : Registers :=
  { r with address := r.address + h.minimumInstructionLength * n }

def Machine.append (m : Machine) : Machine := { m with rows := m.rows ++ [m.registers.row] }

def Machine.exec (h : Header) (m : Machine) : Op → Machine
  | .special opcode =>
    let adjusted := opcode - h.opcodeBase
    let r := m.registers.advance h (adjusted / h.lineRange)
    { m with registers := { r with line := r.line + (h.lineBase + (adjusted % h.lineRange : ℕ)) } }.append
  | .copy => m.append
  | .advancePc n => { m with registers := m.registers.advance h n }
  | .advanceLine n => { m with registers := { m.registers with line := m.registers.line + n } }
  | .setFile n => { m with registers := { m.registers with file := n } }
  | .setColumn n => { m with registers := { m.registers with column := n } }
  | .negateStmt => { m with registers := { m.registers with isStmt := !m.registers.isStmt } }
  | .constAddPc => { m with registers := m.registers.advance h ((255 - h.opcodeBase) / h.lineRange) }
  | .fixedAdvancePc n => { m with registers := { m.registers with address := m.registers.address + n } }
  | .other => m
  | .endSequence => ⟨.start h m.registers.files, [], m.done ++ [⟨m.rows, m.registers.row⟩]⟩
  | .setAddress a _ => { m with registers := { m.registers with address := a } }
  | .defineFile name => { m with registers := { m.registers with files := m.registers.files ++ [name] } }

/-- The sequences of a program, whose last operation ends one. -/
def sequences (h : Header) (ops : List Op) : List Sequence :=
  (ops.foldl (Machine.exec h) ⟨.start h h.files, [], []⟩).done

def Sequence.stop (s : Sequence) : ℕ := s.last.address

/-- An address is in the range of a sequence: from its first row up to its end. -/
def Sequence.contains (s : Sequence) (a : ℕ) : Bool :=
  match s.rows with
  | [] => false
  | r :: _ => r.address ≤ a && a < s.stop

def Sequence.Monotone (s : Sequence) : Prop := (s.rows ++ [s.last]).Pairwise (fun r r' => r.address ≤ r'.address)

def Sequence.rowAt (s : Sequence) (a : ℕ) : Option Row := (s.rows.filter (fun r => r.address ≤ a)).getLast?

/-- The row of an address: of the sequence that contains it, the last one at or before
    it. -/
def sourceOf (seqs : List Sequence) (a : ℕ) : Option Row := (seqs.find? (fun s => s.contains a)).bind (fun s => s.rowAt a)

/-- No address is in two sequences. -/
def Disjoint (seqs : List Sequence) : Prop := seqs.Pairwise (fun s t => ∀ a, ¬(s.contains a ∧ t.contains a))

def Number (bs : List UInt8) (v : ℕ) : Prop := Uleb bs v ∧ bs.length ≤ 11 ∧ v < 2 ^ 64

def SignedNumber (bs : List UInt8) (v : ℤ) : Prop := Sleb bs v ∧ bs.length ≤ 11 ∧ -2 ^ 63 ≤ v ∧ v < 2 ^ 63

/-- Numbers of variable length, one after another. -/
inductive Numbers : ℕ → List UInt8 → Prop where
  | nil : Numbers 0 []
  | cons {n v : ℕ} {bs cs : List UInt8} (first : Number bs v) (rest : Numbers n cs) : Numbers (n + 1) (bs ++ cs)

/-- How an operation is written. -/
inductive Spells (e : Endian) (h : Header) : Op → List UInt8 → Prop where
  | special {b : UInt8} (range : h.opcodeBase ≤ b.toNat) : Spells e h (.special b.toNat) [b]
  | copy (known : 1 < h.opcodeBase) : Spells e h .copy [1]
  | advancePc {n : ℕ} {bs : List UInt8} (known : 2 < h.opcodeBase) (operand : Number bs n) :
    Spells e h (.advancePc n) (2 :: bs)
  | advanceLine {n : ℤ} {bs : List UInt8} (known : 3 < h.opcodeBase) (operand : SignedNumber bs n) :
    Spells e h (.advanceLine n) (3 :: bs)
  | setFile {n : ℕ} {bs : List UInt8} (known : 4 < h.opcodeBase) (operand : Number bs n) :
    Spells e h (.setFile n) (4 :: bs)
  | setColumn {n : ℕ} {bs : List UInt8} (known : 5 < h.opcodeBase) (operand : Number bs n) :
    Spells e h (.setColumn n) (5 :: bs)
  | negateStmt (known : 6 < h.opcodeBase) : Spells e h .negateStmt [6]
  | constAddPc (known : 8 < h.opcodeBase) : Spells e h .constAddPc [8]
  | fixedAdvancePc {bs : List UInt8} (known : 9 < h.opcodeBase) (operand : bs.length = 2) :
    Spells e h (.fixedAdvancePc (toNat e bs)) (9 :: bs)
  | other {b : UInt8} {bs : List UInt8} (known : b.toNat < h.opcodeBase) (opcode : b.toNat = 7 ∨ 10 ≤ b.toNat)
    (operands : Numbers (h.standardLengths.getD (b.toNat - 1) 0) bs) : Spells e h .other (b :: bs)
  | endSequence {size : List UInt8} (length : Number size 1) : Spells e h .endSequence (0 :: (size ++ [1]))
  | setAddress {size bs : List UInt8} (length : Number size (bs.length + 1)) (nonempty : bs ≠ []) :
    Spells e h (.setAddress (toNat e bs) bs.length) (0 :: (size ++ 2 :: bs))
  | defineFile {size name bs : List UInt8} (length : Number size (name.length + 1 + bs.length + 1)) (plain : 0 ∉ name)
    (operands : Numbers 3 bs) : Spells e h (.defineFile (fromUtf8Lossy name)) (0 :: (size ++ 3 :: (name ++ 0 :: bs)))
  | extended {size bs : List UInt8} {sub : UInt8} (length : Number size (bs.length + 1))
    (unknown : sub ≠ 1 ∧ sub ≠ 2 ∧ sub ≠ 3) : Spells e h .other (0 :: (size ++ sub :: bs))

/-- The operations of a program. -/
inductive Code (e : Endian) (h : Header) : List Op → List UInt8 → Prop where
  | nil : Code e h [] []
  | cons {op : Op} {ops : List Op} {bs cs : List UInt8} (first : Spells e h op bs) (rest : Code e h ops cs) :
    Code e h (op :: ops) (bs ++ cs)

def StringIn (section_ : List UInt8) (at_ : ℕ) (s : List UInt8) : Prop :=
  ∃ before after, section_ = before ++ s ++ 0 :: after ∧ before.length = at_ ∧ 0 ∉ s

def Offset (e : Endian) (sixtyFour : Bool) (bs : List UInt8) (v : ℕ) : Prop :=
  bs.length = (if sixtyFour then 8 else 4) ∧ toNat e bs = v

/-- How a field of an entry table is written in a form, and the name in it. -/
inductive Field (e : Endian) (sections : Sections) (sixtyFour : Bool) : ℕ → List UInt8 → Option String → Prop where
  | string {s : List UInt8} (plain : 0 ∉ s) :
    Field e sections sixtyFour DW_FORM_STRING (s ++ [0]) (some (fromUtf8Lossy s))
  | lineStrp {at_ : ℕ} {s bs : List UInt8} (offset : Offset e sixtyFour bs at_) (text : StringIn sections.lineStr at_ s) :
    Field e sections sixtyFour DW_FORM_LINE_STRP bs (some (fromUtf8Lossy s))
  | strp {at_ : ℕ} {s bs : List UInt8} (offset : Offset e sixtyFour bs at_) (text : StringIn sections.str at_ s) :
    Field e sections sixtyFour DW_FORM_STRP bs (some (fromUtf8Lossy s))
  | udata {v : ℕ} {bs : List UInt8} (value : Number bs v) : Field e sections sixtyFour DW_FORM_UDATA bs none
  | data1 {bs : List UInt8} (width : bs.length = 1) : Field e sections sixtyFour DW_FORM_DATA1 bs none
  | data2 {bs : List UInt8} (width : bs.length = 2) : Field e sections sixtyFour DW_FORM_DATA2 bs none
  | data4 {bs : List UInt8} (width : bs.length = 4) : Field e sections sixtyFour DW_FORM_DATA4 bs none
  | data8 {bs : List UInt8} (width : bs.length = 8) : Field e sections sixtyFour DW_FORM_DATA8 bs none
  | data16 {bs : List UInt8} (width : bs.length = 16) : Field e sections sixtyFour DW_FORM_DATA16 bs none
  | block {size bs : List UInt8} (length : Number size bs.length) :
    Field e sections sixtyFour DW_FORM_BLOCK (size ++ bs) none

/-- How an entry is written in the fields of its table, and its path. -/
inductive Entry (e : Endian) (sections : Sections) (sixtyFour : Bool) :
    List (ℕ × ℕ) → List UInt8 → Option String → Prop where
  | nil : Entry e sections sixtyFour [] [] none
  | path {form : ℕ} {formats : List (ℕ × ℕ)} {bs cs : List UInt8} {name : String} {later : Option String}
    (field : Field e sections sixtyFour form bs (some name)) (rest : Entry e sections sixtyFour formats cs later) :
    Entry e sections sixtyFour ((DW_LNCT_PATH, form) :: formats) (bs ++ cs) (later.or (some name))
  | other {content form : ℕ} {formats : List (ℕ × ℕ)} {bs cs : List UInt8} {value later : Option String}
    (unlike : content ≠ DW_LNCT_PATH) (field : Field e sections sixtyFour form bs value)
    (rest : Entry e sections sixtyFour formats cs later) :
    Entry e sections sixtyFour ((content, form) :: formats) (bs ++ cs) later

inductive Entries (e : Endian) (sections : Sections) (sixtyFour : Bool) (formats : List (ℕ × ℕ)) :
    List String → List UInt8 → Prop where
  | nil : Entries e sections sixtyFour formats [] []
  | cons {name : Option String} {names : List String} {bs cs : List UInt8} (first : Entry e sections sixtyFour formats bs name)
    (rest : Entries e sections sixtyFour formats names cs) :
    Entries e sections sixtyFour formats (name.getD "" :: names) (bs ++ cs)

inductive Formats : List (ℕ × ℕ) → List UInt8 → Prop where
  | nil : Formats [] []
  | cons {content form : ℕ} {formats : List (ℕ × ℕ)} {bs cs ds : List UInt8} (first : Number bs content)
    (second : Number cs form) (rest : Formats formats ds) : Formats ((content, form) :: formats) (bs ++ cs ++ ds)

/-- An entry table of DWARF 5. A table without fields is empty. -/
inductive Table (e : Endian) (sections : Sections) (sixtyFour : Bool) : List String → List UInt8 → Prop where
  | table {n : UInt8} {formats : List (ℕ × ℕ)} {names : List String} {bs cs ds : List UInt8}
    (fields : n.toNat = formats.length) (described : Formats formats bs) (count : Number cs names.length)
    (entries : Entries e sections sixtyFour formats names ds) (some : formats ≠ [] ∨ names = []) :
    Table e sections sixtyFour names (n :: (bs ++ cs ++ ds))

/-- Strings that are not empty, up to an empty one. -/
inductive Directories : List UInt8 → Prop where
  | nil : Directories [0]
  | cons {s cs : List UInt8} (nonempty : s ≠ []) (plain : 0 ∉ s) (rest : Directories cs) : Directories (s ++ 0 :: cs)

/-- File entries of DWARF 2 to 4. -/
inductive Files : List String → List UInt8 → Prop where
  | nil : Files [] [0]
  | cons {s bs cs : List UInt8} {names : List String} (nonempty : s ≠ []) (plain : 0 ∉ s) (operands : Numbers 3 bs)
    (rest : Files names cs) : Files (fromUtf8Lossy s :: names) (s ++ 0 :: (bs ++ cs))

/-- The file tables of a version. Before DWARF 5 files are numbered from one. -/
inductive FileTables (e : Endian) (sections : Sections) (sixtyFour : Bool) : ℕ → List String → List UInt8 → Prop where
  | old {version : ℕ} {names : List String} {bs cs : List UInt8} (before : version < 5) (directories : Directories bs)
    (files : Files names cs) : FileTables e sections sixtyFour version ("" :: names) (bs ++ cs)
  | new {directories names : List String} {bs cs : List UInt8} (first : Table e sections sixtyFour directories bs)
    (second : Table e sections sixtyFour names cs) : FileTables e sections sixtyFour 5 names (bs ++ cs)

/-- The length of a program, in 32-bit or 64-bit DWARF. -/
inductive InitialLength (e : Endian) : Bool → ℕ → List UInt8 → Prop where
  | short {bs : List UInt8} (width : bs.length = 4) (small : toNat e bs < 0xfffffff0) :
    InitialLength e false (toNat e bs) bs
  | long {bs : List UInt8} (width : bs.length = 8) : InitialLength e true (toNat e bs) ([255, 255, 255, 255] ++ bs)

/-- A program: its header, with one operation an instruction, and its code. -/
inductive Program (e : Endian) (sections : Sections) : Header → List UInt8 → List UInt8 → Prop where
  | program {sixtyFour : Bool} {minimum stmt base range opcodeBase : UInt8} {version : ℕ} {files : List String}
    {length versionBytes sizes headerLength lengths tables extra code : List UInt8}
    (versionWidth : versionBytes.length = 2) (isVersion : toNat e versionBytes = version)
    (supported : 2 ≤ version ∧ version ≤ 5) (sizesWidth : sizes.length = if 5 ≤ version then 2 else 0)
    (minimumPositive : 1 ≤ minimum.toNat) (rangePositive : 1 ≤ range.toNat) (basePositive : 1 ≤ opcodeBase.toNat)
    (lengthsWidth : lengths.length = opcodeBase.toNat - 1)
    (isTables : FileTables e sections sixtyFour version files tables)
    (isHeaderLength : Offset e sixtyFour headerLength
      ([minimum] ++ (if 4 ≤ version then [1] else []) ++ [stmt, base, range, opcodeBase] ++ lengths ++ tables ++ extra).length)
    (isLength : InitialLength e sixtyFour
      (versionBytes ++ sizes ++ headerLength ++
        ([minimum] ++ (if 4 ≤ version then [1] else []) ++ [stmt, base, range, opcodeBase] ++ lengths ++ tables ++ extra) ++
        code).length length) :
    Program e sections
      ⟨minimum.toNat, stmt ≠ 0, toI8 base.toNat, range.toNat, opcodeBase.toNat, lengths.map UInt8.toNat, files⟩ code
      (length ++ (versionBytes ++ sizes ++ headerLength ++
        ([minimum] ++ (if 4 ≤ version then [1] else []) ++ [stmt, base, range, opcodeBase] ++ lengths ++ tables ++ extra) ++
        code))

/-- Programs one after another, each ended by the end of a sequence. -/
inductive Programs (e : Endian) (sections : Sections) : List (Header × List Op) → List UInt8 → Prop where
  | nil : Programs e sections [] []
  | cons {h : Header} {ops : List Op} {rest : List (Header × List Op)} {code bs cs : List UInt8}
    (first : Program e sections h code bs) (operations : Code e h ops code)
    (ended : ops = [] ∨ ops.getLast? = some .endSequence) (more : Programs e sections rest cs) :
    Programs e sections ((h, ops) :: rest) (bs ++ cs)

def allSequences (programs : List (Header × List Op)) : List Sequence := programs.flatMap (fun p => sequences p.1 p.2)

end E5r.LineMachine
