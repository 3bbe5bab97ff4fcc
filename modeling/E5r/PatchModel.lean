import E5r.AnchorResolution
import E5r.Overwrites

/-!
Patch sets: byte edits that carry the bytes they expect to overwrite. All of a
set is placed on an image and checked, then all of it is written, and the
inverse set undoes it.
-/
namespace E5r.PatchModel
open SortedRecords AnnotationLog AnchorResolution
open Overwrites (Write)

/-- One byte edit: where it goes, what must be there, and what to write. -/
structure Edit where
  target : Anchor
  expect : List UInt8
  replace : List UInt8
  who : String
  note : String
deriving DecidableEq

/-- `{:#x}` -/
def hexAddr (a : UInt64) : String := "0x" ++ String.ofList (Nat.toDigits 16 a.toNat)

namespace Edit

/-- An edit on an anchored location. -/
def new (anchor : Anchor) (expect replace : List UInt8) : Except String Edit :=
  if expect.isEmpty then .error "a patch edit writes no bytes"
  else if expect.length ≠ replace.length then
    .error ("edit at " ++ hexAddr (AnchorResolution.target anchor) ++ " replaces " ++ expect.length.repr ++ " bytes with " ++
      replace.length.repr ++ "; an in-place patch cannot change length")
  else .ok ⟨anchor, expect, replace, "", ""⟩

/-- An edit on a bare address. -/
def at_ (addr : UInt64) (expect replace : List UInt8) : Except String Edit := new ⟨0, 0, 0, addr, 0⟩ expect replace

def by_ (e : Edit) (who : String) : Edit := { e with who := who }
def noted (e : Edit) (note : String) : Edit := { e with note := note }

/-- The address recorded when the edit was made. -/
def addr (e : Edit) : UInt64 := AnchorResolution.target e.target

/-- The same edit backwards. -/
def inverse (e : Edit) : Edit := ⟨e.target, e.replace, e.expect, e.who, e.note⟩

def id (e : Edit) : UInt64 :=
  let (shape, bytes, insns, offset) := e.target.identity
  let h := ((((Fnv.new.u64 shape).u64 bytes).u64 insns.toUInt64).u64 offset.toUInt64).u64 e.target.abs
  let h := ((h.byte 0xff).slice e.expect).byte 0xfe
  let h := (h.slice e.replace).byte 0xfd
  let h := (h.slice (asBytes e.who)).byte 0xfc
  (h.slice (asBytes e.note)).digest

def isAnchored (e : Edit) : Bool := e.target.shape != 0 || e.target.bytes != 0

/-- What `new` promises of an edit: it writes as many bytes as it expects, and
    some. -/
structure Sound (e : Edit) : Prop where
  some : e.expect ≠ []
  same : e.replace.length = e.expect.length

theorem new_sound {anchor : Anchor} {expect replace : List UInt8} {e : Edit} (made : new anchor expect replace = .ok e) :
    e.Sound := by
  rw [new] at made
  split at made
  · cases made
  · next nonempty =>
    split at made
    · cases made
    · next same =>
      cases made
      exact ⟨by simpa using nonempty, (not_not.mp same).symm⟩

theorem Sound.inverse {e : Edit} (sound : e.Sound) : e.inverse.Sound := by
  refine ⟨?_, sound.same.symm⟩
  intro empty
  have same := sound.same
  rw [show e.replace = [] from empty, List.length_nil, eq_comm, List.length_eq_zero_iff] at same
  exact sound.some same

end Edit

/-- A named set of edits, sorted by content id. -/
structure Patch where
  edits : List Edit
  name : String
  binary : Option String
deriving DecidableEq

/-- One edit placed on an image. -/
structure Change where
  edit : ℕ
  addr : UInt64
  before : List UInt8
  after : List UInt8
  resolution : Resolution
deriving DecidableEq

/-- What applying a patch set did. -/
structure Applied where
  changes : List Change
  bytes : ℕ
deriving DecidableEq

/-- Why a patch set would not apply. -/
inductive Conflict where
  | mismatch (edit : ℕ) (addr : UInt64) (expected found : List UInt8)
  | outOfRange (edit : ℕ) (addr : UInt64) (len image : ℕ)
  | overlap (first second : ℕ) (addr : UInt64)
deriving DecidableEq

def distanceTo (base addr : UInt64) : Option ℕ := if base ≤ addr then some (addr.toNat - base.toNat) else none

/-- Where an edit lands in an image, and on what evidence. -/
def place (e : Edit) (index : Option AnchorIndex) : UInt64 × Resolution :=
  if e.isAnchored then
    match index.bind fun ix => resolve ix e.target with
    | some (found, how) => (target found + e.target.offset.toUInt64, how)
    | none => (e.addr, .address)
  else (e.addr, .address)

def saturatingAdd (a : UInt64) (n : ℕ) : ℕ := min (a.toNat + n) (2 ^ 64 - 1)

/-- The order of changes: address first, then the edit's number. -/
def Change.key (c : Change) : ℕ ×ₗ ℕ := toLex (c.addr.toNat, c.edit)

namespace Patch

def new (name : String) : Patch := ⟨[], name, none⟩

/-- Add an edit, keeping the order; a duplicate is dropped. -/
def push (p : Patch) (edit : Edit) : Patch :=
  let at_ := partitionPoint (fun e => decide (e.id < edit.id)) p.edits
  if p.edits[at_]? = some edit then p else { p with edits := p.edits.insertIdx at_ edit }

/-- The check of one edit against an image. -/
def change (image : List UInt8) (base : UInt64) (index : Option AnchorIndex) (n : ℕ) (e : Edit) : Except Conflict Change :=
  let (addr, resolution) := place e index
  match distanceTo base addr with
  | none => .error (.outOfRange n addr e.expect.length image.length)
  | some off =>
    if off + e.expect.length ≤ image.length then
      let found := Write.found image off e.expect.length
      if found ≠ e.expect then .error (.mismatch n addr e.expect found)
      else .ok ⟨n, addr, found, e.replace, resolution⟩
    else .error (.outOfRange n addr e.expect.length image.length)

/-- The first pair of neighbours where one runs into the next. -/
def overlapCheck : List Change → Except Conflict Unit
  | a :: b :: rest =>
    if saturatingAdd a.addr a.before.length > b.addr.toNat then .error (.overlap a.edit b.edit b.addr)
    else overlapCheck (b :: rest)
  | _ => .ok ()

/-- What would change. -/
def preview (p : Patch) (image : List UInt8) (base : UInt64) (index : Option AnchorIndex) :
    Except Conflict (List Change) := do
  let changes ← p.edits.zipIdx.mapM fun (e, n) => change image base index n e
  let changes := sortByKey Change.key changes
  overlapCheck changes
  return changes

/-- Copy bytes over a range; none is a panic. -/
def copy (image : List UInt8) (w : Write UInt8) : Option (List UInt8) :=
  if w.off + w.data.length ≤ image.length then some (Write.put image w) else none

def writeOf (base : UInt64) (c : Change) : Write UInt8 := ⟨(distanceTo base c.addr).getD 0, c.after⟩

/-- Apply every edit, or none of them: what was done, and the image after it. -/
def apply (p : Patch) (image : List UInt8) (base : UInt64) (index : Option AnchorIndex) :
    Option (Except Conflict Applied × List UInt8) :=
  match p.preview image base index with
  | .error conflict => some (.error conflict, image)
  | .ok changes => do
    let image ← (changes.map (writeOf base)).foldlM copy image
    return (.ok ⟨changes, (changes.map fun c => c.after.length).sum⟩, image)

/-- The patch set that undoes this one. -/
def revert (p : Patch) : Patch :=
  p.edits.foldl (fun out e => out.push e.inverse) { new p.name with binary := p.binary }

def merge (p other : Patch) : Patch := other.edits.foldl push p

end Patch

end E5r.PatchModel
