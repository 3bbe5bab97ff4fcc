import Mathlib.Algebra.Group.Nat.Defs
import E5r.SortedRecords
import E5r.Overwrites

/-!
The memory map: what bytes live at what addresses. Segments are kept sorted by
start address, in the order of their arrival where they start at one address, and
they may overlap.
-/
namespace E5r.MemoryModel
open SortedRecords Overwrites

/-- Half-open `start..stop`. It cannot be built inverted. -/
structure AddrRange where
  start : ℕ
  stop : ℕ
  ordered : start ≤ stop
  fits : stop < 2 ^ 64

instance : DecidableEq AddrRange := fun r s =>
  decidable_of_iff (r.start = s.start ∧ r.stop = s.stop) (by cases r; cases s; simp)

namespace AddrRange

/-- Build from a start and a length, or none if the end would overflow. -/
def sized (start len : ℕ) : Option AddrRange :=
  if fits : start + len < 2 ^ 64 then some ⟨start, start + len, Nat.le_add_right start len, fits⟩ else none

def len (r : AddrRange) : ℕ := r.stop - r.start
def contains (r : AddrRange) (a : ℕ) : Bool := r.start ≤ a && a < r.stop
def containsRange (r other : AddrRange) : Bool := r.start ≤ other.start && other.stop ≤ r.stop

end AddrRange

/-- Access permissions on a mapped range. -/
structure Perms where
  read : Bool
  write : Bool
  exec : Bool
deriving DecidableEq

/-- One mapped range. Its bytes are shorter than the range when the tail is filled with
    zeros. -/
structure Segment where
  range : AddrRange
  perms : Perms
  name : String
  fileOffset : ℕ
  data : List UInt8
  backed : data.length ≤ range.len
deriving DecidableEq

namespace Segment

/-- A segment backed by file bytes, or none if they do not fit. -/
def new (range : AddrRange) (perms : Perms) (name : String) (fileOffset : ℕ) (data : List UInt8) : Option Segment :=
  if backed : data.length ≤ range.len then some ⟨range, perms, name, fileOffset, data, backed⟩ else none

def zeroed (range : AddrRange) (perms : Perms) (name : String) : Segment :=
  ⟨range, perms, name, 0, [], Nat.zero_le _⟩

/-- Bytes written over those from an offset on. -/
def overwrite (s : Segment) (w : Write UInt8) (fits : w.Fits s.data) : Segment :=
  { s with data := Write.put s.data w, backed := (Write.length_put fits).trans_le s.backed }

/-- Overwrite bytes, and whether the write stays in the part that is backed by the file. -/
def patch (s : Segment) (at_ : ℕ) (bytes : List UInt8) : Bool × Segment :=
  if s.range.start ≤ at_ then
    if fits : (⟨at_ - s.range.start, bytes⟩ : Write UInt8).Fits s.data then (true, s.overwrite _ fits) else (false, s)
  else (false, s)

/-- Read bytes, filling the tail with zeros, or none if they are not fully inside. -/
def read (s : Segment) (addr len : ℕ) : Option (List UInt8) := do
  let want ← AddrRange.sized addr len
  if s.range.containsRange want then
    let backed := (s.data.drop (addr - s.range.start)).take len
    return backed ++ List.replicate (len - backed.length) 0
  else none

end Segment

def Segment.start (s : Segment) : ℕ := s.range.start

theorem Segment.patch_range (s : Segment) (at_ : ℕ) (bytes : List UInt8) : (s.patch at_ bytes).2.range = s.range := by
  rw [Segment.patch]
  split
  · split
    · rfl
    · rfl
  · rfl

/-- Overwrite bytes in the first segment that contains an address. -/
def patchFirst (at_ : ℕ) (bytes : List UInt8) : List Segment → Bool × List Segment
  | [] => (false, [])
  | s :: rest =>
    if s.range.contains at_ then ((s.patch at_ bytes).1, (s.patch at_ bytes).2 :: rest)
    else ((patchFirst at_ bytes rest).1, s :: (patchFirst at_ bytes rest).2)

theorem patchFirst_starts (at_ : ℕ) (bytes : List UInt8) (segments : List Segment) :
    (patchFirst at_ bytes segments).2.map Segment.start = segments.map Segment.start := by
  induction segments with
  | nil => rfl
  | cons s rest ih =>
    rw [patchFirst]
    split
    · rw [List.map_cons, List.map_cons, Segment.start, Segment.patch_range]
      rfl
    · rw [List.map_cons, List.map_cons, ih]

/-- Every mapped range, sorted by start address. -/
structure MemoryMap where
  segments : List Segment
  sorted : Sorted Segment.start segments

/-- Enter a segment behind those that start at its start or before it. -/
def insertSegment (seg : Segment) (segments : List Segment) : List Segment :=
  segments.insertIdx (partitionPoint (fun s => decide (s.start ≤ seg.start)) segments) seg

theorem insertSegment_cons (seg s : Segment) (rest : List Segment) :
    insertSegment seg (s :: rest) = if s.start ≤ seg.start then s :: insertSegment seg rest else seg :: s :: rest := by
  by_cases before : s.start ≤ seg.start
  · simp [insertSegment, partitionPoint, before]
  · simp [insertSegment, partitionPoint, before]

theorem mem_insertSegment {seg s : Segment} {segments : List Segment} :
    s ∈ insertSegment seg segments ↔ s = seg ∨ s ∈ segments := by
  induction segments with
  | nil => simp [insertSegment, partitionPoint]
  | cons t rest ih =>
    rw [insertSegment_cons]
    split
    · simp only [List.mem_cons, ih]
      tauto
    · simp

theorem insertSegment_sorted {seg : Segment} {segments : List Segment} (sorted : Sorted Segment.start segments) :
    Sorted Segment.start (insertSegment seg segments) := by
  induction segments with
  | nil => exact List.pairwise_singleton _ _
  | cons t rest ih =>
    obtain ⟨above, tail⟩ := List.pairwise_cons.mp sorted
    rw [insertSegment_cons]
    split
    · next before =>
      refine List.pairwise_cons.mpr ⟨fun s member => ?_, ih tail⟩
      rcases mem_insertSegment.mp member with rfl | old
      · exact before
      · exact above s old
    · next after =>
      have first : seg.start ≤ t.start := Nat.le_of_not_le after
      refine List.pairwise_cons.mpr ⟨fun s member => ?_, sorted⟩
      rcases List.mem_cons.mp member with rfl | old
      · exact first
      · exact first.trans (above s old)

theorem patchFirst_sorted {at_ : ℕ} {bytes : List UInt8} {segments : List Segment}
    (sorted : Sorted Segment.start segments) : Sorted Segment.start (patchFirst at_ bytes segments).2 := by
  have starts : (segments.map Segment.start).Pairwise (· ≤ ·) := List.pairwise_map.mpr sorted
  rw [← patchFirst_starts at_ bytes] at starts
  exact List.pairwise_map.mp starts

namespace MemoryMap

def new : MemoryMap := ⟨[], .nil⟩

/-- Insert, keeping the list sorted. Overlaps are allowed. -/
def add (m : MemoryMap) (seg : Segment) : MemoryMap := ⟨insertSegment seg m.segments, insertSegment_sorted m.sorted⟩

/-- Overwrite bytes where they are mapped, and whether that was done. -/
def patch (m : MemoryMap) (at_ : ℕ) (bytes : List UInt8) : Bool × MemoryMap :=
  ((patchFirst at_ bytes m.segments).1, ⟨(patchFirst at_ bytes m.segments).2, patchFirst_sorted m.sorted⟩)

/-- The segment that contains an address: the candidates start at it or before it, and
    are searched backwards. -/
def segmentAt (m : MemoryMap) (addr : ℕ) : Option Segment :=
  (m.segments.take (partitionPoint (fun s => decide (s.start ≤ addr)) m.segments)).reverse.find?
    fun s => s.range.contains addr

def read (m : MemoryMap) (addr len : ℕ) : Option (List UInt8) := (m.segmentAt addr).bind fun s => s.read addr len

end MemoryMap
end E5r.MemoryModel
