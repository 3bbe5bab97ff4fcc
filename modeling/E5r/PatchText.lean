import E5r.PatchModel
import E5r.AnnotationText
import E5r.Fallible
import E5r.TextSlices

/-!
Reading a patch set from its text. Bytes are written as hexadecimal pairs, and
the reader takes the field apart two bytes at a time.
-/
namespace E5r.PatchText
open RustText TextSlices AnnotationLog PatchModel
open AnnotationText (Error)

/-- Magic on the first line. -/
def TAG : String := "e5r-patches"
/-- On-disk format version. -/
def VERSION : ℕ := 1

/-- What may panic, and fails as an option does. -/
abbrev Reading := ExceptT Unit Option

/-- The operator `?` on an option. -/
def question {α : Type} (x : Option α) : Reading α := some (x.elim (.error ()) .ok)

def hexByte (s : List Char) (i : ℕ) : Reading UInt8 :=
  (slice s (i * 2) (i * 2 + 2)).map fun pair => ((fromStrRadix 16 (2 ^ 8) pair).map UInt8.ofNat).elim (.error ()) .ok

def unhex (s : List Char) : Reading (List UInt8) :=
  if s.isEmpty ∨ byteLen s % 2 ≠ 0 then some (.error ())
  else (List.range (byteLen s / 2)).mapM (hexByte s)

def unquote (s : List Char) : Option (List Char) := AnnotationText.unescape s
def findQuoteEnd (s : List Char) : Option ℕ := AnnotationText.findQuoteEnd s

/-- The fields of an edit read so far. -/
structure Fields where
  shape : Option ℕ := none
  bytes : Option ℕ := none
  insns : Option ℕ := none
  abs : Option ℕ := none
  offset : ℕ := 0
  expect : Option (List UInt8) := none
  replace : Option (List UInt8) := none

def setField (fs : Fields) (key v : List Char) : Reading Fields :=
  if key = "shape".toList then some (.ok { fs with shape := fromStrRadix 16 (2 ^ 64) v })
  else if key = "bytes".toList then some (.ok { fs with bytes := fromStrRadix 16 (2 ^ 64) v })
  else if key = "insns".toList then some (.ok { fs with insns := fromStrRadix 10 (2 ^ 32) v })
  else if key = "abs".toList then some (.ok { fs with abs := fromStrRadix 16 (2 ^ 64) v })
  else if key = "off".toList then question ((fromStrRadix 10 (2 ^ 32) v).map fun n => { fs with offset := n })
  else if key = "expect".toList then
    Option.map (fun read => .ok { fs with expect := Except.toOption read }) (unhex v)
  else if key = "replace".toList then
    Option.map (fun read => .ok { fs with replace := Except.toOption read }) (unhex v)
  else some (.error ())

def readField (fs : Fields) (field : List Char) : Reading Fields := do
  let (key, v) ← question (splitOnce '=' field)
  setField fs key v

/-- The bare head of an edit line and its two quoted fields, which are last. -/
def editParts (line : List Char) : Option (List Char × List Char × List Char) := do
  let rest ← stripPrefix "edit ".toList line
  let (head, tail) ← splitAtFirst " by=\"".toList rest
  let whoQ := tail.drop 4
  let stop ← findQuoteEnd whoQ
  let who ← unquote (whoQ.take (stop + 1))
  let after ← stripPrefix " note=".toList (whoQ.drop (stop + 1))
  let note ← unquote after
  return (head, who, note)

def editOf (fs : Fields) (who note : List Char) : Option Edit := do
  let shape ← fs.shape
  let bytes ← fs.bytes
  let insns ← fs.insns
  let abs ← fs.abs
  let target : Anchor := ⟨.ofNat shape, .ofNat bytes, .ofNat insns, .ofNat abs, .ofNat fs.offset⟩
  let expect ← fs.expect
  let replace ← fs.replace
  let edit ← (Edit.new target expect replace).toOption
  return (edit.by_ (String.ofList who)).noted (String.ofList note)

def parseEdit (line : List Char) : Reading Edit := do
  let (head, who, note) ← question (editParts line)
  let fs ← (splitWhitespace head).foldlM readField {}
  question (editOf fs who note)

def readHeader (line : List Char) : Except Error Unit :=
  let parts := splitWhitespace line
  if parts.head? ≠ some TAG.toList then .error (.notRecognized "e5rx patch set")
  else
    match parts[1]?.bind (fromStrRadix 10 (2 ^ 32)) with
    | none => .error (.badField "format version" 0 "is missing from the header line")
    | some version =>
      if version > VERSION then
        .error (.unsupported s!"patch format version {version}; this build knows {VERSION}")
      else .ok ()

/-- The lines after the header, the first of them with number `number`. -/
def readLines (number : ℕ) (patch : Patch) : List (List Char) → ExceptT Error Option Patch
  | [] => some (.ok patch)
  | line :: rest =>
    let line := trim line
    if line.isEmpty ∨ line.head? = some '#' then readLines (number + 1) patch rest
    else
      match stripPrefix "name ".toList line with
      | some quoted =>
        match unquote (trim quoted) with
        | some name => readLines (number + 1) { patch with name := String.ofList name } rest
        | none => some (.error (.malformed number line))
      | none =>
        match stripPrefix "binary ".toList line with
        | some digest => readLines (number + 1) { patch with binary := some (String.ofList (trim digest)) } rest
        | none =>
          match parseEdit line with
          | none => none
          | some (.ok edit) => readLines (number + 1) (patch.push edit) rest
          | some (.error ()) => some (.error (.malformed number line))

/-- Parse a serialized patch set; none is a panic. -/
def fromText (text : String) : Option (Except Error Patch) :=
  let all := lines text.toList
  match readHeader (all.headD []) with
  | .error e => some (.error e)
  | .ok () => readLines 2 (Patch.new "") (all.drop 1)

end E5r.PatchText
