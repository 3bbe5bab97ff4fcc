import E5r.Checked
import Mathlib.Data.List.Basic

/-!
The initial RAM of a bare-metal ELF32 file: its checks, its segments and the
reader of its `.riscv.attributes`. A run that panics, by a slice that is out of
range or an overflow, is none.
-/
namespace E5r.RamModel
open Cursor (leNat)

/-- What the image is checked against. -/
structure Policy where
  ramBase : ℕ
  ramSize : ℕ
  maxFile : ℕ
  maxFileBytes : ℕ
deriving DecidableEq

def ceilingMaxFile : ℕ := 16 <<< 20
def ceilingMaxFileBytes : ℕ := 4 <<< 20

/-- One `PT_LOAD`, with the bytes of the file at it. -/
structure Load where
  index : ℕ
  offset : ℕ
  vaddr : ℕ
  paddr : ℕ
  filesz : ℕ
  memsz : ℕ
  align : ℕ
  flags : BitVec 32
  bytes : List UInt8
deriving DecidableEq

def pfR : BitVec 32 := 4
def pfW : BitVec 32 := 2
def pfX : BitVec 32 := 1

def Load.write (l : Load) : Bool := l.flags &&& pfW != 0
def Load.exec (l : Load) : Bool := l.flags &&& pfX != 0

structure RamImage where
  entry : ℕ
  eFlags : BitVec 32
  arch : Option String
  loads : List Load
  rwBase : ℕ
deriving DecidableEq

/-- The rule that a refused file breaks. -/
inductive Refusal where
  | window
  | ceilings
  | size (maxFile : ℕ)
  | notElf32
  | notExecutable
  | flags (eFlags : BitVec 32)
  | headerSize
  | headerCount
  | headersOutside
  | offsetOverflows
  | truncated (off : ℕ)
  | fileBytesOutside (i : ℕ)
  | executableStack (i : ℕ)
  | attributesTwice
  | malformed
  | noArch
  | unsupported (i kind : ℕ)
  | loadFlags (i : ℕ) (flags : BitVec 32)
  | writableExecutable (i : ℕ)
  | sizes (i : ℕ)
  | mapping (i paddr vaddr : ℕ)
  | notInRam (i vaddr memsz ramBase ramSize : ℕ)
  | alignment (i align : ℕ)
  | budget (maxFileBytes : ℕ)
  | noLoad
  | order (i j : ℕ)
  | entry (entry : ℕ)
  | writableBelow (i vaddr rwBase : ℕ)
  | noRam (rwBase : ℕ)
  | notRv32 (arch : String)
  | loader (why : String)
  | disagreesLinkage
  | relocations
  | unmapped (vaddr : ℕ)
  | disagreesAt (vaddr : ℕ)
deriving DecidableEq

/-- `{:#x}` -/
def hex (n : ℕ) : String := "0x" ++ String.ofList (Nat.toDigits 16 n)

/-- The text of a refusal; `debug` is the standard library's `{:?}` of a string. -/
def Refusal.text (debug : String → String) : Refusal → String
  | .window => "RAM window must be non-empty and inside the 32-bit address space"
  | .ceilings => "budgets above the ceilings (" ++ ceilingMaxFile.repr ++ " file, " ++ ceilingMaxFileBytes.repr ++
      " file-backed bytes)"
  | .size maxFile => "ELF size must be 52..=" ++ maxFile.repr ++ " bytes"
  | .notElf32 => "not a little-endian ELF32 file (EV_CURRENT)"
  | .notExecutable => "requires an EM_RISCV ET_EXEC (static executable)"
  | .flags e => "e_flags " ++ hex e.toNat ++ ": only RVC with the soft-float ABI is supported"
  | .headerSize => "unexpected ELF32 header or program header size"
  | .headerCount => "requires 1..=16 program headers"
  | .headersOutside => "program headers outside the file"
  | .offsetOverflows => "offset overflows"
  | .truncated off => "truncated at " ++ hex off
  | .fileBytesOutside i => "program header " ++ i.repr ++ ": file bytes outside the file"
  | .executableStack i => "program header " ++ i.repr ++ ": executable stack"
  | .attributesTwice => "more than one PT_RISCV_ATTRIBUTES"
  | .malformed => "malformed .riscv.attributes"
  | .noArch => "no Tag_RISCV_arch in .riscv.attributes"
  | .unsupported i kind => "program header " ++ i.repr ++ ": unsupported type " ++ hex kind
  | .loadFlags i f => "PT_LOAD " ++ i.repr ++ ": flags " ++ hex f.toNat ++ " must be readable R/W/X only"
  | .writableExecutable i => "PT_LOAD " ++ i.repr ++ ": writable and executable"
  | .sizes i => "PT_LOAD " ++ i.repr ++ ": needs 0 < p_memsz and p_filesz <= p_memsz"
  | .mapping i paddr vaddr => "PT_LOAD " ++ i.repr ++ ": p_paddr " ++ hex paddr ++ " != p_vaddr " ++ hex vaddr ++
      "; only the paddr=vaddr mapping policy is supported"
  | .notInRam i vaddr memsz ramBase ramSize => "PT_LOAD " ++ i.repr ++ ": [" ++ hex vaddr ++ ", +" ++ hex memsz ++
      ") is not inside RAM [" ++ hex ramBase ++ ", +" ++ hex ramSize ++ ")"
  | .alignment i align => "PT_LOAD " ++ i.repr ++ ": p_align " ++ hex align ++ " inconsistent"
  | .budget maxFileBytes => "more than " ++ maxFileBytes.repr ++ " materialised bytes (budget)"
  | .noLoad => "no PT_LOAD"
  | .order i j => "PT_LOAD " ++ i.repr ++ " and " ++ j.repr ++ " overlap or are out of address order"
  | .entry e => "entry " ++ hex e ++ " is not 2-aligned inside the file bytes of an executable PT_LOAD"
  | .writableBelow i vaddr rwBase => "PT_LOAD " ++ i.repr ++ ": writable segment at " ++ hex vaddr ++
      " below the end " ++ hex rwBase ++ " of the read-only segments"
  | .noRam rwBase => "no RAM left above the read-only segments (" ++ hex rwBase ++ ")"
  | .notRv32 arch => "Tag_RISCV_arch " ++ debug arch ++ " is not rv32"
  | .loader why => why
  | .disagreesLinkage => "e5r loader disagrees about architecture or linkage"
  | .relocations => "relocation or dynamic sections are unsupported"
  | .unmapped vaddr => "e5r loader did not map " ++ hex vaddr
  | .disagreesAt vaddr => "e5r loader disagrees at " ++ hex vaddr

abbrev Run := ExceptT Refusal Option

/-- `return Err` under a condition. -/
def refuse (c : Prop) [Decidable c] (e : Refusal) : Run Unit := if c then throw e else pure ()

/-- `ok_or` -/
def orElse {α : Type} (x : Option α) (e : Refusal) : Run α :=
  match x with
  | some a => pure a
  | none => throw e

def expect {α : Type} : Option α → Run α
  | some a => some (.ok a)
  | none => none

/-- A sum of 64-bit numbers. -/
def add (a b : ℕ) : Run ℕ := if a + b < 2 ^ 64 then some (.ok (a + b)) else none
def mul (a b : ℕ) : Run ℕ := if a * b < 2 ^ 64 then some (.ok (a * b)) else none
def sub (a b : ℕ) : Run ℕ := if b ≤ a then some (.ok (a - b)) else none

def checkedAdd (a b : ℕ) : Option ℕ := if a + b < 2 ^ 64 then some (a + b) else none

/-- `b.get(i..j)` -/
def get (b : List UInt8) (i j : ℕ) : Option (List UInt8) :=
  if i ≤ j ∧ j ≤ b.length then some ((b.drop i).take (j - i)) else none

/-- `b[i..j]` -/
def slice (b : List UInt8) (i j : ℕ) : Run (List UInt8) := expect (get b i j)

section
variable {α : Type} {a : α} {c : Prop} [Decidable c] {e : Refusal} {x : Option α} {m n r : ℕ} {u : Unit}

@[simp] theorem refuse_ok : refuse c e = some (.ok u) ↔ ¬c := Checked.refuse_ok

@[simp] theorem refuse_returns : refuse c e ≠ none := Checked.refuse_returns

theorem refuse_bind {f : Unit → Run α} (fails : ¬c) : (refuse c e >>= f) = f () := Checked.refuse_bind fails

@[simp] theorem pure_ok {b : α} : (pure a : Run α) = some (.ok b) ↔ a = b := Checked.pure_ok

@[simp] theorem pure_returns : (pure a : Run α) ≠ none := nofun

@[simp] theorem throw_ok : (throw e : Run α) = some (.ok a) ↔ False := Checked.throw_ok

@[simp] theorem throw_returns : (throw e : Run α) ≠ none := nofun

@[simp] theorem orElse_ok : orElse x e = some (.ok a) ↔ x = some a := Checked.orElse_ok

@[simp] theorem orElse_returns : orElse x e ≠ none := Checked.orElse_returns

@[simp] theorem expect_ok : expect x = some (.ok a) ↔ x = some a := by
  cases x with
  | none => exact ⟨nofun, nofun⟩
  | some b =>
    constructor
    · rintro ⟨⟩
      rfl
    · rintro ⟨⟩
      rfl

@[simp] theorem expect_none : expect x = none ↔ x = none := by
  cases x with
  | none => exact ⟨fun _ => rfl, fun _ => rfl⟩
  | some b => exact ⟨nofun, nofun⟩

theorem add_eq (fits : m + n < 2 ^ 64) : add m n = some (.ok (m + n)) := if_pos fits

theorem mul_eq (fits : m * n < 2 ^ 64) : mul m n = some (.ok (m * n)) := if_pos fits

theorem sub_eq (fits : n ≤ m) : sub m n = some (.ok (m - n)) := if_pos fits

theorem checkedAdd_eq (fits : m + n < 2 ^ 64) : checkedAdd m n = some (m + n) := if_pos fits

theorem get_eq_some {b s : List UInt8} {i j : ℕ} :
    get b i j = some s ↔ i ≤ j ∧ j ≤ b.length ∧ (b.drop i).take (j - i) = s := by
  unfold get
  split
  · next inside =>
    rw [Option.some_inj]
    exact ⟨fun same => ⟨inside.1, inside.2, same⟩, fun parts => parts.2.2⟩
  · next outside =>
    constructor
    · rintro ⟨⟩
    · rintro ⟨low, high, -⟩
      exact absurd ⟨low, high⟩ outside

theorem slice_eq {b : List UInt8} {i j : ℕ} (low : i ≤ j) (high : j ≤ b.length) :
    slice b i j = some (.ok ((b.drop i).take (j - i))) := by
  rw [slice, get, if_pos ⟨low, high⟩]
  rfl

theorem slice_none {b : List UInt8} {i j : ℕ} : slice b i j = none ↔ j < i ∨ b.length < j := by
  rw [slice, expect_none, get]
  split
  · next inside => exact ⟨nofun, fun outside => absurd inside (by omega)⟩
  · next outside => exact ⟨fun _ => by omega, fun _ => rfl⟩
end

/-- A little-endian number of some bytes at an offset. -/
def numberAt (size : ℕ) (b : List UInt8) (off : ℕ) : Run ℕ := do
  let stop ← orElse (checkedAdd off size) .offsetOverflows
  let s ← orElse (get b off stop) (.truncated off)
  pure (leNat s)

def u16At : List UInt8 → ℕ → Run ℕ := numberAt 2
def u32At : List UInt8 → ℕ → Run ℕ := numberAt 4

def within (addr len base size : ℕ) : Run Bool :=
  if base ≤ addr then
    match checkedAdd addr len with
    | some stop => do
      let top ← add base size
      pure (decide (stop ≤ top))
    | none => pure false
  else pure false

def ulebFrom (b : List UInt8) : List ℕ → ℕ → ℕ → Run (ℕ × ℕ)
  | [], _, _ => throw .malformed
  | shift :: shifts, v, at_ =>
    match b[at_]? with
    | none => throw .malformed
    | some byte => do
      let at_ ← add at_ 1
      let v := v ||| (byte &&& 0x7f).toNat <<< shift % 2 ^ 64
      if byte &&& 0x80 = 0 then pure (v, at_) else ulebFrom b shifts v at_

def uleb (b : List UInt8) (at_ : ℕ) : Run (ℕ × ℕ) := ulebFrom b ((List.range 10).map (7 * ·)) 0 at_

def fromUtf8 (bs : List UInt8) : Option String := String.fromUTF8? ⟨bs.toArray⟩

/-- The attributes of a list up to its end. The first argument bounds the
    passes, of which each takes a byte. -/
def attributesFrom (rest : List UInt8) (stop : ℕ) : ℕ → ℕ → Run String
  | 0, _ => none
  | n + 1, at_ =>
    if at_ < stop then do
      let (tag, at_) ← uleb rest at_
      if tag % 2 = 0 then do
        let (_, at_) ← uleb rest at_
        attributesFrom rest stop n at_
      else do
        let text ← slice rest at_ stop
        let len ← orElse (text.findIdx? (· == 0)) .malformed
        if tag = 5 then do
          let nul ← add at_ len
          let arch ← slice rest at_ nul
          orElse (fromUtf8 arch) .malformed
        else do
          let len ← add len 1
          let at_ ← add at_ len
          attributesFrom rest stop n at_
    else throw .noArch

def archAttribute (b : List UInt8) : Run String := do
  refuse (b.head? ≠ some 0x41 ∨ b.length < 5) .malformed
  let subLen ← slice b 1 5
  let subEnd ← orElse (checkedAdd 1 (leNat subLen)) .malformed
  let sub_ ← orElse (get b 1 subEnd) .malformed
  let rest ← orElse (get sub_ 4 sub_.length) .malformed
  let nul ← orElse (rest.findIdx? (· == 0)) .malformed
  let vendor ← slice rest 0 nul
  refuse (vendor ≠ [0x72, 0x69, 0x73, 0x63, 0x76]) .malformed
  let at_ ← add nul 1
  refuse (rest[at_]? ≠ some 1) .malformed
  let at_ ← add at_ 1
  let first ← add at_ 4
  let tagLen ← orElse (get rest at_ first) .malformed
  let list ← sub at_ 1
  let stop ← orElse ((checkedAdd list (leNat tagLen)).filter (· ≤ rest.length)) .malformed
  attributesFrom rest stop (stop + 1) first

def ptNull : ℕ := 0
def ptLoad : ℕ := 1
def ptGnuStack : ℕ := 0x6474e551
def ptRiscvAttributes : ℕ := 0x70000003

def Policy.check (p : Policy) : Run Unit := do
  refuse (p.ramSize = 0 ∨ 2 ^ 32 < p.ramBase + p.ramSize) .window
  refuse (ceilingMaxFile < p.maxFile ∨ ceilingMaxFileBytes < p.maxFileBytes) .ceilings

/-- What the headers read so far give. -/
structure Scan where
  loads : List Load
  arch : Option String
  fileBytes : ℕ
deriving DecidableEq

/-- The checks of a `PT_LOAD` header, and the bytes it takes of the budget. -/
def loadHeader (bytes : List UInt8) (p : Policy) (i offset vaddr paddr filesz memsz align : ℕ) (flags : BitVec 32)
    (fileEnd : ℕ) (s : Scan) : Run Scan := do
  refuse (flags &&& ~~~(pfR ||| pfW ||| pfX) ≠ 0 ∨ flags &&& pfR = 0) (.loadFlags i flags)
  refuse (flags &&& pfW ≠ 0 ∧ flags &&& pfX ≠ 0) (.writableExecutable i)
  refuse (memsz = 0 ∨ memsz < filesz) (.sizes i)
  refuse (paddr ≠ vaddr) (.mapping i paddr vaddr)
  let inRam ← within vaddr memsz p.ramBase p.ramSize
  refuse (inRam = false) (.notInRam i vaddr memsz p.ramBase p.ramSize)
  refuse (1 < align ∧ (¬align.isPowerOfTwo ∨ vaddr % align ≠ offset % align)) (.alignment i align)
  let fileBytes ← add s.fileBytes (if flags &&& pfW = 0 then memsz else filesz)
  refuse (p.maxFileBytes < fileBytes) (.budget p.maxFileBytes)
  let data ← slice bytes offset fileEnd
  pure { s with loads := s.loads ++ [⟨i, offset, vaddr, paddr, filesz, memsz, align, flags, data⟩],
                fileBytes := fileBytes }

def field (bytes : List UInt8) (phoff i n : ℕ) : Run ℕ := do
  let row ← mul i 32
  let at_ ← add phoff row
  let at_ ← add at_ n
  u32At bytes at_

def header (bytes : List UInt8) (p : Policy) (phoff : ℕ) (s : Scan) (i : ℕ) : Run Scan := do
  let kind ← field bytes phoff i 0
  let offset ← field bytes phoff i 4
  let vaddr ← field bytes phoff i 8
  let paddr ← field bytes phoff i 12
  let filesz ← field bytes phoff i 16
  let memsz ← field bytes phoff i 20
  let flags ← field bytes phoff i 24
  let align ← field bytes phoff i 28
  let flags := BitVec.ofNat 32 flags
  let fileEnd ← orElse ((checkedAdd offset filesz).filter (· ≤ bytes.length)) (.fileBytesOutside i)
  if kind = ptNull then pure s
  else if kind = ptGnuStack then do
    refuse (flags &&& pfX ≠ 0) (.executableStack i)
    pure s
  else if kind = ptRiscvAttributes then do
    refuse (s.arch.isSome) .attributesTwice
    let blob ← slice bytes offset fileEnd
    let arch ← archAttribute blob
    pure { s with arch := some arch }
  else if kind = ptLoad then
    loadHeader bytes p i offset vaddr paddr filesz memsz align flags fileEnd s
  else throw (.unsupported i kind)

inductive Bits where
  | bits16 | bits32 | bits64
deriving DecidableEq

inductive Arch where
  | x86 | x86_64 | arm | thumb | aarch64
  | sleigh (id : String)
  | unknown (machine : BitVec 32)
deriving DecidableEq

/-- What the checks read of the object that e5r's analysis loader makes. -/
structure Object where
  bits : Bits
  endian : Cursor.Endian
  arch : Arch
  pic : Bool
  imports : List String
  sectionKinds : List (BitVec 32)
  read : ℕ → ℕ → Option (List UInt8)
  isExecutable : ℕ → Bool

section
variable (load : List UInt8 → Except String Object)

def crossCheck (bytes : List UInt8) (loads : List Load) : Run Unit :=
  match load bytes with
  | .error why => throw (.loader why)
  | .ok obj => do
    refuse (obj.bits ≠ .bits32 ∨ obj.endian ≠ .little ∨ obj.arch ≠ .sleigh "RISCV:LE:32:default" ∨ obj.pic = true ∨
      obj.imports ≠ []) .disagreesLinkage
    refuse (obj.sectionKinds.any (fun kind => kind == 4 || kind == 6 || kind == 9) = true) .relocations
    (loads.filter fun l => 0 < l.filesz).forM fun l => do
      let loaded ← orElse (obj.read l.vaddr l.filesz) (.unmapped l.vaddr)
      refuse (loaded ≠ l.bytes ∨ obj.isExecutable l.vaddr ≠ l.exec) (.disagreesAt l.vaddr)

def Load.top (l : Load) : Run ℕ := add l.vaddr l.memsz

def ordered (loads : List Load) : Run Unit :=
  (loads.zip loads.tail).forM fun (a, b) => do
    let top ← a.top
    refuse (b.vaddr < top) (.order a.index b.index)

/-- The checks of the loads together: their order, the entry and the end of the
    read-only ones. -/
def layout (p : Policy) (entry : ℕ) (loads : List Load) : Run ℕ := do
  refuse (loads = []) .noLoad
  ordered loads
  let inExec ← loads.anyM fun l => if l.exec then within entry 2 l.vaddr l.filesz else pure false
  refuse (entry % 2 ≠ 0 ∨ inExec = false) (.entry entry)
  let tops ← (loads.filter fun l => !l.write).mapM Load.top
  let rwBase ← expect tops.max?
  match loads.find? fun l => l.write && decide (l.vaddr < rwBase) with
  | some l => throw (.writableBelow l.index l.vaddr rwBase)
  | none => do
    let ramEnd ← add p.ramBase p.ramSize
    refuse (ramEnd ≤ rwBase) (.noRam rwBase)
    pure rwBase

def checkArch : Option String → Run Unit
  | some a => refuse ("rv32".toList.isPrefixOf a.toList = false) (.notRv32 a)
  | none => pure ()

def ramImage (bytes : List UInt8) (p : Policy) : Run RamImage := do
  p.check
  refuse (p.maxFile < bytes.length ∨ bytes.length < 52) (.size p.maxFile)
  let magic ← slice bytes 0 7
  refuse (magic ≠ [0x7f, 0x45, 0x4c, 0x46, 1, 1, 1]) .notElf32
  let kind ← u16At bytes 16
  refuse (kind ≠ 2) .notExecutable
  let machine ← u16At bytes 18
  refuse (machine ≠ 243) .notExecutable
  let version ← u32At bytes 20
  refuse (version ≠ 1) .notExecutable
  let eFlags ← u32At bytes 36
  let eFlags := BitVec.ofNat 32 eFlags
  refuse (eFlags &&& ~~~1 ≠ 0) (.flags eFlags)
  let headerSize ← u16At bytes 40
  refuse (headerSize ≠ 52) .headerSize
  let rowSize ← u16At bytes 42
  refuse (rowSize ≠ 32) .headerSize
  let entry ← u32At bytes 24
  let phoff ← u32At bytes 28
  let phnum ← u16At bytes 44
  refuse (¬(1 ≤ phnum ∧ phnum ≤ 16)) .headerCount
  let rows ← mul phnum 32
  let phend ← add phoff rows
  refuse (bytes.length < phend) .headersOutside
  let s ← (List.range phnum).foldlM (header bytes p phoff) ⟨[], none, 0⟩
  let rwBase ← layout p entry s.loads
  checkArch s.arch
  crossCheck load bytes s.loads
  pure ⟨entry, eFlags, s.arch, s.loads, rwBase⟩
end

end E5r.RamModel
