import E5r.RamModel

/-!
The flash contents that a board boots from: what `PT_LOAD` headers of an ELF32
file are stored in flash, with the windows they are checked against. A run that
panics is none.
-/
namespace E5r.FlashModel
open Cursor (leNat)
open Checked (refuse orElse add mul checkedAdd get slice)
open RamModel (Object hex ptNull ptLoad ptGnuStack ptRiscvAttributes)

structure Windows where
  flashBase : ℕ
  flashSize : ℕ
  ramBase : ℕ
  ramSize : ℕ
deriving DecidableEq

structure FlashSegment where
  base : ℕ
  bytes : List UInt8
  exec : Bool
  fileOffset : ℕ
  inPlace : Bool
deriving DecidableEq

structure FlashImage where
  entry : ℕ
  segments : List FlashSegment
deriving DecidableEq

def maxFile : ℕ := 1 <<< 20
def maxFlash : ℕ := 1 <<< 18

/-- The rule that a refused file breaks. -/
inductive Refusal where
  | size
  | notElf32
  | notExecutable
  | flags (flags : BitVec 32)
  | headerSize
  | headerCount
  | offsetOverflows
  | truncated (off : ℕ)
  | unsupported (i kind : ℕ)
  | sizes (i : ℕ)
  | writableExecutable (i : ℕ)
  | notWritableRam (i : ℕ)
  | fileBytesOutside (i : ℕ)
  | notInFlash (i paddr : ℕ)
  | runNotInRam (i : ℕ)
  | notInPlace (i : ℕ)
  | budget
  | order
  | entry (entry : ℕ)
  | loader (why : String)
  | disagreesLinkage
  | relocations
  | unmapped (base : ℕ)
  | disagreesAt (base : ℕ)
deriving DecidableEq

def Refusal.text : Refusal → String
  | .size => "ELF size must be 52..=" ++ maxFile.repr ++ " bytes"
  | .notElf32 => "not a little-endian ELF32 file"
  | .notExecutable => "requires an EM_RISCV ET_EXEC (static executable)"
  | .flags f => "e_flags " ++ hex f.toNat ++ ": only RVC with the soft-float ABI is supported"
  | .headerSize => "unexpected ELF32 header or program header size"
  | .headerCount => "requires 1..=16 program headers"
  | .offsetOverflows => "program header offset overflows"
  | .truncated off => "truncated at " ++ hex off
  | .unsupported i kind => "program header " ++ i.repr ++ ": unsupported type " ++ hex kind
  | .sizes i => "PT_LOAD " ++ i.repr ++ ": bad sizes or flags"
  | .writableExecutable i => "PT_LOAD " ++ i.repr ++ ": writable and executable"
  | .notWritableRam i => "PT_LOAD " ++ i.repr ++ ": a segment without file bytes must be writable RAM"
  | .fileBytesOutside i => "PT_LOAD " ++ i.repr ++ ": file bytes outside the file"
  | .notInFlash i paddr => "PT_LOAD " ++ i.repr ++ ": physical address " ++ hex paddr ++ " is not in flash"
  | .runNotInRam i => "PT_LOAD " ++ i.repr ++ ": writable run address not in RAM"
  | .notInPlace i => "PT_LOAD " ++ i.repr ++ ": a read-only segment must run where it is stored"
  | .budget => "more than " ++ maxFlash.repr ++ " bytes of flash"
  | .order => "flash segments overlap or are out of address order"
  | .entry e => "entry " ++ hex e ++ " is not aligned executable flash"
  | .loader why => why
  | .disagreesLinkage => "e5r loader disagrees about architecture or linkage"
  | .relocations => "relocation or dynamic sections are unsupported"
  | .unmapped base => "e5r loader did not map " ++ hex base
  | .disagreesAt base => "e5r loader disagrees at " ++ hex base

abbrev Run := Checked.Run Refusal

def numberAt (size : ℕ) (b : List UInt8) (off : ℕ) : Run ℕ := do
  let stop ← add off size
  let s ← orElse (get b off stop) (.truncated off)
  pure (leNat s)

def u16At : List UInt8 → ℕ → Run ℕ := numberAt 2
def u32At : List UInt8 → ℕ → Run ℕ := numberAt 4

/-- The end of the range is checked, the end of the window is not. -/
def within (addr len base size : ℕ) : Run Bool :=
  if base ≤ addr then
    match checkedAdd addr len with
    | some stop => do
      let top ← add base size
      pure (decide (stop ≤ top))
    | none => pure false
  else pure false

/-- The fields of a program header that are read. -/
structure Header where
  kind : ℕ
  file : ℕ
  vaddr : ℕ
  paddr : ℕ
  filesz : ℕ
  memsz : ℕ
  pflags : ℕ

def Header.exec (h : Header) : Bool := h.pflags &&& 1 != 0
def Header.write (h : Header) : Bool := h.pflags &&& 2 != 0

def field (bytes : List UInt8) (off n : ℕ) : Run ℕ := do
  let at_ ← add off n
  u32At bytes at_

def readHeader (bytes : List UInt8) (phoff i : ℕ) : Run Header := do
  let row ← mul i 32
  let off ← orElse (checkedAdd phoff row) .offsetOverflows
  let kind ← field bytes off 0
  let file ← field bytes off 4
  let vaddr ← field bytes off 8
  let paddr ← field bytes off 12
  let filesz ← field bytes off 16
  let memsz ← field bytes off 20
  let pflags ← field bytes off 24
  pure ⟨kind, file, vaddr, paddr, filesz, memsz, pflags⟩

/-- What the headers read so far give. -/
structure Scan where
  segments : List FlashSegment
  total : ℕ
deriving DecidableEq

/-- Where a `PT_LOAD` with file bytes must run. -/
def runAddress (w : Windows) (i : ℕ) (h : Header) : Run Unit :=
  if h.write then do
    let inRam ← within h.vaddr h.memsz w.ramBase w.ramSize
    refuse (inRam = false) (.runNotInRam i)
  else refuse (h.vaddr ≠ h.paddr ∨ h.filesz ≠ h.memsz) (.notInPlace i)

/-- A `PT_LOAD` with file bytes. -/
def store (bytes : List UInt8) (w : Windows) (i : ℕ) (h : Header) (s : Scan) : Run Scan := do
  refuse (((checkedAdd h.file h.filesz).any fun e => decide (e ≤ bytes.length)) = false) (.fileBytesOutside i)
  let inFlash ← within h.paddr h.filesz w.flashBase w.flashSize
  refuse (inFlash = false) (.notInFlash i h.paddr)
  runAddress w i h
  let total ← add s.total h.filesz
  refuse (maxFlash < total) .budget
  let fileEnd ← add h.file h.filesz
  let data ← slice bytes h.file fileEnd
  pure ⟨s.segments ++ [⟨h.paddr, data, h.exec, h.file, h.vaddr == h.paddr⟩], total⟩

/-- A `PT_LOAD` without file bytes is writable RAM. -/
def writableRam (w : Windows) (h : Header) : Run Bool :=
  if h.write then within h.vaddr h.memsz w.ramBase w.ramSize else pure false

/-- One pass over a program header that is read. -/
def segment (bytes : List UInt8) (w : Windows) (i : ℕ) (h : Header) (s : Scan) : Run Scan :=
  if h.kind = ptNull ∨ h.kind = ptGnuStack ∨ h.kind = ptRiscvAttributes then pure s
  else if h.kind = ptLoad then do
    refuse (7 < h.pflags ∨ h.memsz < h.filesz ∨ h.memsz = 0) (.sizes i)
    refuse (h.exec = true ∧ h.write = true) (.writableExecutable i)
    if h.filesz = 0 then do
      let inRam ← writableRam w h
      refuse (inRam = false) (.notWritableRam i)
      pure s
    else store bytes w i h s
  else throw (.unsupported i h.kind)

def header (bytes : List UInt8) (w : Windows) (phoff : ℕ) (s : Scan) (i : ℕ) : Run Scan := do
  let h ← readHeader bytes phoff i
  segment bytes w i h s

def ordered (segments : List FlashSegment) : Run Unit :=
  (segments.zip segments.tail).forM fun (a, b) => do
    let top ← add a.base a.bytes.length
    refuse (b.base < top) .order

section
variable (load : List UInt8 → Except String Object)

/-- The checks against the object that e5r's own loader makes. -/
def crossCheck (bytes : List UInt8) (segments : List FlashSegment) : Run Unit :=
  match load bytes with
  | .error why => throw (.loader why)
  | .ok obj => do
    refuse (obj.bits ≠ .bits32 ∨ obj.endian ≠ .little ∨ obj.arch ≠ .sleigh "RISCV:LE:32:default" ∨ obj.pic = true ∨
      obj.imports ≠ []) .disagreesLinkage
    refuse (obj.sectionKinds.any (fun kind => kind == 4 || kind == 6 || kind == 9) = true) .relocations
    (segments.filter fun s => s.inPlace).forM fun s => do
      let loaded ← orElse (obj.read s.base s.bytes.length) (.unmapped s.base)
      refuse (loaded ≠ s.bytes ∨ obj.isExecutable s.base ≠ s.exec) (.disagreesAt s.base)

def flashImage (bytes : List UInt8) (w : Windows) : Run FlashImage := do
  refuse (maxFile < bytes.length ∨ bytes.length < 52) .size
  let magic ← slice bytes 0 7
  refuse (magic ≠ [0x7f, 0x45, 0x4c, 0x46, 1, 1, 1]) .notElf32
  let kind ← u16At bytes 16
  refuse (kind ≠ 2) .notExecutable
  let machine ← u16At bytes 18
  refuse (machine ≠ 243) .notExecutable
  let version ← u32At bytes 20
  refuse (version ≠ 1) .notExecutable
  let flags ← u32At bytes 36
  let flags := BitVec.ofNat 32 flags
  refuse (flags &&& ~~~1 ≠ 0) (.flags flags)
  let headerSize ← u16At bytes 40
  refuse (headerSize ≠ 52) .headerSize
  let rowSize ← u16At bytes 42
  refuse (rowSize ≠ 32) .headerSize
  let phoff ← u32At bytes 28
  let phnum ← u16At bytes 44
  refuse (¬(1 ≤ phnum ∧ phnum ≤ 16)) .headerCount
  let entry ← u32At bytes 24
  let s ← (List.range phnum).foldlM (header bytes w phoff) ⟨[], 0⟩
  ordered s.segments
  let inExec ← s.segments.anyM fun s => if s.exec then within entry 2 s.base s.bytes.length else pure false
  refuse (entry % 2 ≠ 0 ∨ inExec = false) (.entry entry)
  crossCheck load bytes s.segments
  pure ⟨entry, s.segments⟩
end

end E5r.FlashModel
