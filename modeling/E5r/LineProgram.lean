import E5r.DwarfModel
import E5r.SortedRecords

/-!
The line number programs of debug information: `lines`, `line_program` and the file
tables of `dwarf.rs`, and the lookup `DebugInfo::line_for` in the rows that `parse`
keeps sorted by address.
-/
namespace E5r.LineProgram
open Cursor DwarfModel RustText SortedRecords

structure LineRow where
  addr : ℕ
  file : String
  line : ℕ
  column : ℕ
  end_ : Bool
  statement : Bool
deriving DecidableEq

structure LineState where
  address : ℕ
  file : ℕ
  line : ℕ
  column : ℕ
  statement : Bool
  end_ : Bool
deriving DecidableEq

def LineState.new (defaultIsStmt : Bool) : LineState := ⟨0, 1, 1, 0, defaultIsStmt, false⟩

/-- What the opcodes of a program depend on. -/
structure Header where
  minimumInstructionLength : ℕ
  defaultIsStmt : Bool
  lineBase : ℤ
  lineRange : ℕ
  opcodeBase : ℕ
  standardLengths : List ℕ
  files : List String
deriving DecidableEq

/-- `u64::saturating_add`. -/
def satAdd (a b : ℕ) : ℕ := min (2 ^ 64 - 1) (a + b)

/-- `u32::saturating_add_signed`. -/
def satSigned (line : ℕ) (n : ℤ) : ℕ := min (2 ^ 32 - 1) (line + n).toNat

/-- A signed number cut to `i32`. -/
def toI32 (n : ℤ) : ℤ := Int.bmod n (2 ^ 32)

/-- A byte as `i8`. -/
def toI8 (b : ℕ) : ℤ := Int.bmod b (2 ^ 8)

def emit (files : List String) (state : LineState) : LineRow :=
  ⟨state.address, files.getD state.file "", state.line, state.column, state.end_, state.statement⟩

def skipDirectories : ℕ → Read PUnit
  | 0 => fun _ => none
  | limit + 1 => do if (← cstr).isEmpty then pure () else skipDirectories limit

def fileEntries : ℕ → Read (List String)
  | 0 => fun _ => none
  | fuel + 1 => do
    let name ← cstr
    if name.isEmpty then pure []
    else do
      let _ ← uleb128
      let _ ← uleb128
      let _ ← uleb128
      let files ← fileEntries fuel
      pure (fromUtf8Lossy name :: files)

def fileNamesV4 : Read (List String) := fun c => do
  let (_, c) ← skipDirectories c.data.length c
  let (files, c) ← fileEntries (c.rest.length + 1) c
  some ("" :: files, c)

def repeatRead {α : Type} (m : Read α) : ℕ → Read (List α)
  | 0 => pure []
  | n + 1 => do
    let a ← m
    let rest ← repeatRead m n
    pure (a :: rest)

def DW_LNCT_PATH := 0x01

def tableUnit (sections : Sections) (endian : Endian) (sixtyFour : Bool) : DwarfModel.Unit :=
  ⟨8, sixtyFour, 5, 0, 8, 8, endian, sections⟩

def entryName (unit : DwarfModel.Unit) : List (ℕ × ℕ) → String → Read String
  | [], name => pure name
  | (content, form) :: formats, name => do
    let value ← readForm form 0 unit
    entryName unit formats
      (match value with
        | .string s => if content = DW_LNCT_PATH then s else name
        | _ => name)

def entryTable (unit : DwarfModel.Unit) : Read (List String) := do
  let formatCount ← u8
  let formats ← repeatRead (do pure (← uleb128, ← uleb128)) formatCount
  let count ← uleb128
  if unit.sections.line.length < count then fun _ => none
  else repeatRead (entryName unit formats "") count

def fileNamesV5 (unit : DwarfModel.Unit) : Read (List String) := do
  let _ ← entryTable unit
  entryTable unit

def DW_LNS_COPY := 0x01
def DW_LNS_ADVANCE_PC := 0x02
def DW_LNS_ADVANCE_LINE := 0x03
def DW_LNS_SET_FILE := 0x04
def DW_LNS_SET_COLUMN := 0x05
def DW_LNS_NEGATE_STMT := 0x06
def DW_LNS_CONST_ADD_PC := 0x08
def DW_LNS_FIXED_ADVANCE_PC := 0x09
def DW_LNE_END_SEQUENCE := 0x01
def DW_LNE_SET_ADDRESS := 0x02

def operationAdvance (h : Header) (adjusted : ℕ) : ℕ := adjusted / h.lineRange * max h.minimumInstructionLength 1

def addressOperand (size : ℕ) : Read ℕ := if size = 4 then u32 else u64

/-- What an extended opcode does after its size and its own code. -/
def extendedBody (h : Header) (s : LineState) (size sub : ℕ) : Read (LineState × List LineRow) :=
  if sub = DW_LNE_END_SEQUENCE then pure (LineState.new h.defaultIsStmt, [emit h.files { s with end_ := true }])
  else if sub = DW_LNE_SET_ADDRESS ∧ 1 ≤ size then do
    let address ← addressOperand (size - 1)
    pure ({ s with address := address }, [])
  else pure (s, [])

/-- An extended opcode. Whatever its own operands take, the next opcode follows at its
    declared size. -/
def extended (h : Header) (s : LineState) : Read (LineState × List LineRow) := do
  let size ← uleb128
  let at_ ← position
  let sub ← u8
  let result ← extendedBody h s size sub
  Cursor.seek (wrap (at_ + size))
  pure result

/-- A standard opcode. One that is not modelled declares how many arguments it takes. -/
def standard (h : Header) (s : LineState) (opcode : ℕ) : Read (LineState × List LineRow) :=
  if opcode = DW_LNS_COPY then pure (s, [emit h.files s])
  else if opcode = DW_LNS_ADVANCE_PC then do
    let n ← uleb128
    pure ({ s with address := satAdd s.address (min (2 ^ 64 - 1) (n * max h.minimumInstructionLength 1)) }, [])
  else if opcode = DW_LNS_ADVANCE_LINE then do
    let n ← sleb128
    pure ({ s with line := satSigned s.line (toI32 n) }, [])
  else if opcode = DW_LNS_SET_FILE then do
    let n ← uleb128
    pure ({ s with file := n }, [])
  else if opcode = DW_LNS_SET_COLUMN then do
    let n ← uleb128
    pure ({ s with column := n % 2 ^ 32 }, [])
  else if opcode = DW_LNS_NEGATE_STMT then pure ({ s with statement := !s.statement }, [])
  else if opcode = DW_LNS_CONST_ADD_PC then
    pure ({ s with address := satAdd s.address (operationAdvance h (255 - h.opcodeBase)) }, [])
  else if opcode = DW_LNS_FIXED_ADVANCE_PC then do
    let n ← u16
    pure ({ s with address := satAdd s.address n }, [])
  else do
    let _ ← repeatRead uleb128 (h.standardLengths.getD (opcode - 1) 0)
    pure (s, [])

def special (h : Header) (s : LineState) (opcode : ℕ) : LineState × List LineRow :=
  let adjusted := opcode - h.opcodeBase
  let s := { s with
    address := satAdd s.address (operationAdvance h adjusted),
    line := satSigned s.line (h.lineBase + (adjusted % h.lineRange : ℕ)) }
  (s, [emit h.files s])

def step (h : Header) (s : LineState) : Read (LineState × List LineRow) := do
  let opcode ← u8
  if opcode = 0 then extended h s
  else if opcode < h.opcodeBase then standard h s opcode
  else pure (special h s opcode)

/-- The operations of an instruction at most, which the rows do not depend on. -/
def maximumOperations (version : ℕ) : Read ℕ := if 4 ≤ version then u8 else pure 1

def addressSizes (version : ℕ) : Read (List ℕ) := repeatRead u8 (if 5 ≤ version then 2 else 0)

def fileNames (sections : Sections) (sixtyFour : Bool) (version : ℕ) : Read (List String) := fun c =>
  if 5 ≤ version then fileNamesV5 (tableUnit sections c.endian sixtyFour) c else fileNamesV4 c

def headerFields (sections : Sections) (sixtyFour : Bool) (version : ℕ) : Read Header := do
  let minimum ← u8
  let _ ← maximumOperations version
  let defaultIsStmt ← u8
  let lineBase ← u8
  let lineRange ← u8
  let opcodeBase ← u8
  let standardLengths ← repeatRead u8 (max opcodeBase 1 - 1)
  let files ← fileNames sections sixtyFour version
  pure ⟨minimum, defaultIsStmt ≠ 0, toI8 lineBase, max lineRange 1, max opcodeBase 1, standardLengths, files⟩

def initialLength : Read (Bool × ℕ) := do
  let length ← u32
  if length = 0xffffffff then do pure (true, ← u64) else pure (false, length)

/-- The version of a program and, when it is known, what its opcodes depend on and where
    they start. -/
def programHeader (sections : Sections) (sixtyFour : Bool) : Read (Option (Header × ℕ)) := do
  let version ← u16
  if ¬(2 ≤ version ∧ version ≤ 5) then pure none
  else do
    let _ ← addressSizes version
    let headerLength ← offset sixtyFour
    let at_ ← position
    let h ← headerFields sections sixtyFour version
    pure (some (h, wrap (at_ + headerLength)))

def programHead (sections : Sections) : Read (ℕ × ℕ × Option (Header × ℕ)) := do
  let (sixtyFour, length) ← initialLength
  let at_ ← position
  if ¬(at_ + length < 2 ^ 64 ∧ at_ + length ≤ sections.line.length ∧ at_ < at_ + length) then fun _ => none
  else do
    let header ← programHeader sections sixtyFour
    pure (length, at_ + length, header)

/-- The opcodes up to an end: the rows, and the cursor unless one could not be read. A
    program has no more rows than bytes. -/
def runOpcodes (h : Header) (length end_ : ℕ) : ℕ → Cur → LineState → List LineRow → List LineRow × Option Cur
  | 0, _, _, rows => (rows, none)
  | fuel + 1, c, s, rows =>
    if c.pos < end_ then
      if length < rows.length then (rows, none)
      else
        match step h s c with
        | none => (rows, none)
        | some ((s, new), c) => runOpcodes h length end_ fuel c s (rows ++ new)
    else (rows, some (c.seek end_))

def lineProgram (sections : Sections) (c : Cur) : List LineRow × Option Cur :=
  match programHead sections c with
  | none => ([], none)
  | some ((_, end_, none), c) => ([], some (c.seek end_))
  | some ((length, end_, some (h, start)), c) =>
    runOpcodes h length end_ (c.data.length + 1) (c.seek start) (.new h.defaultIsStmt) []

/-- The programs of a section, until one cannot be read. -/
def linesFrom (sections : Sections) : ℕ → Cur → List LineRow → List LineRow
  | 0, _, rows => rows
  | fuel + 1, c, rows =>
    if c.isEmpty then rows
    else
      match lineProgram sections c with
      | (new, none) => rows ++ new
      | (new, some next) => if next.pos ≤ c.pos then rows ++ new else linesFrom sections fuel next (rows ++ new)

/-- Decode the line number program into rows. -/
def lines (sections : Sections) (endian : Endian) : List LineRow :=
  linesFrom sections (sections.line.length + 1) (.new sections.line endian) []

def parseLines (sections : Sections) (endian : Endian) : List LineRow :=
  if sections.info.isEmpty ∧ sections.line.isEmpty then []
  else if ¬sections.line.isEmpty then sortByKey LineRow.addr (lines sections endian) else []

/-- `DebugInfo::line_for`: the source position of an address, if the line table covers
    it. -/
def lineFor (lines : List LineRow) (addr : ℕ) : Option LineRow :=
  match partitionPoint (fun r => decide (r.addr ≤ addr)) lines with
  | 0 => none
  | n + 1 => lines[n]?.filter (fun r => !r.end_)

end E5r.LineProgram
