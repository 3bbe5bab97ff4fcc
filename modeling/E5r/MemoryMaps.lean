import E5r.MemoryModel

/-!
Looking up and patching overlapping segments. The lookup takes the segment with the
greatest start, which need not be the one added last, and a patch writes to the one
with the smallest, which need not be the one that is read.
-/
namespace E5r.MemoryMaps
open SortedRecords Overwrites MemoryModel

/-- The segments of a list that contain an address. -/
def holding (addr : ℕ) (segments : List Segment) : List Segment := segments.filter fun s => s.range.contains addr

theorem holding_cons (addr : ℕ) (s : Segment) (rest : List Segment) :
    holding addr (s :: rest) = if s.range.contains addr = true then s :: holding addr rest else holding addr rest :=
  List.filter_cons

theorem holding_append (addr : ℕ) (l m : List Segment) : holding addr (l ++ m) = holding addr l ++ holding addr m :=
  List.filter_append l m

theorem start_le_of_contains {s : Segment} {addr : ℕ} (inside : s.range.contains addr = true) : s.start ≤ addr := by
  simp only [AddrRange.contains, Bool.and_eq_true, decide_eq_true_eq] at inside
  exact inside.1

theorem segmentAt_eq (m : MemoryMap) (addr : ℕ) : m.segmentAt addr = (holding addr m.segments).getLast? := by
  obtain ⟨segments, sorted⟩ := m
  have outside : holding addr (segments.drop (partitionPoint (fun s => decide (s.start ≤ addr)) segments)) = [] := by
    refine List.filter_eq_nil_iff.mpr fun s member inside => ?_
    have below := start_le_of_contains inside
    induction segments with
    | nil => simp at member
    | cons t rest ih =>
      obtain ⟨above, tail⟩ := List.pairwise_cons.mp sorted
      by_cases first : t.start ≤ addr
      · exact ih tail (by simpa [partitionPoint, first] using member)
      · have member : s ∈ t :: rest := by simpa [partitionPoint, first] using member
        rcases List.mem_cons.mp member with rfl | later
        · exact first below
        · exact first ((above s later).trans below)
  show ((segments.take _).reverse.find? _) = (holding addr segments).getLast?
  conv_rhs => rw [← List.take_append_drop (partitionPoint (fun s => decide (s.start ≤ addr)) segments) segments]
  rw [holding, List.filter_append]
  rw [holding] at outside
  rw [outside, List.append_nil, ← List.head?_filter, List.filter_reverse, List.head?_reverse]

theorem withKey_add (m : MemoryMap) (seg : Segment) (k : ℕ) :
    withKey Segment.start k (m.add seg).segments =
      withKey Segment.start k m.segments ++ withKey Segment.start k [seg] := by
  obtain ⟨segments, sorted⟩ := m
  show withKey Segment.start k (insertSegment seg segments) = _
  induction segments with
  | nil => rfl
  | cons t rest ih =>
    obtain ⟨above, tail⟩ := List.pairwise_cons.mp sorted
    rw [insertSegment_cons]
    split
    · rw [withKey_cons, withKey_cons, ih tail]
      split
      · rfl
      · rfl
    · next after =>
      have fresh : seg.start = k → withKey Segment.start k (t :: rest) = [] := by
        rintro rfl
        refine (withKey_eq_nil Segment.start).mpr fun s member same => ?_
        rcases List.mem_cons.mp member with rfl | later
        · exact after (le_of_eq same)
        · exact after ((above s later).trans (le_of_eq same))
      rw [withKey_cons, withKey_cons Segment.start k seg []]
      by_cases same : seg.start = k
      · rw [if_pos same, if_pos same, fresh same]
        rfl
      · rw [if_neg same, if_neg same]
        simp

def mapOf (segs : List Segment) : MemoryMap := segs.foldl MemoryMap.add MemoryMap.new

theorem withKey_mapOf (segs : List Segment) (k : ℕ) :
    withKey Segment.start k (mapOf segs).segments = withKey Segment.start k segs := by
  induction segs using List.reverseRecOn with
  | nil => rfl
  | append_singleton segs seg ih =>
    rw [mapOf, List.foldl_append, List.foldl_cons, List.foldl_nil, withKey_add]
    rw [mapOf] at ih
    rw [ih]
    exact (List.filter_append _ _).symm

theorem mem_mapOf {segs : List Segment} {s : Segment} : s ∈ (mapOf segs).segments ↔ s ∈ segs := by
  have member : ∀ l : List Segment, s ∈ l ↔ s ∈ withKey Segment.start s.start l := fun l => by simp [withKey]
  rw [member, withKey_mapOf, ← member]

/-- The segment added last among those that contain an address. -/
def mostRecent (segs : List Segment) (addr : ℕ) : Option Segment := (holding addr segs).getLast?

/-- The segment that is found starts at or above every other one, and was added last
    among those with its start. -/
theorem segmentAt_mapOf {segs : List Segment} {addr : ℕ} {s : Segment} (found : (mapOf segs).segmentAt addr = some s) :
    s.range.contains addr = true ∧ (∀ t ∈ segs, t.range.contains addr = true → t.start ≤ s.start) ∧
      (withKey Segment.start s.start (holding addr segs)).getLast? = some s := by
  rw [segmentAt_eq] at found
  have swap : ∀ l : List Segment, withKey Segment.start s.start (holding addr l) =
      holding addr (withKey Segment.start s.start l) := by
    intro l
    unfold withKey holding
    rw [List.filter_filter, List.filter_filter]
    exact List.filter_congr fun t _ => Bool.and_comm _ _
  obtain ⟨front, split⟩ := List.getLast?_eq_some_iff.mp found
  have member : s ∈ holding addr (mapOf segs).segments := by simp [split]
  refine ⟨(List.mem_filter.mp member).2, fun t inside holds => ?_, ?_⟩
  · have among : t ∈ front ++ [s] := by
      rw [← split]
      exact List.mem_filter.mpr ⟨mem_mapOf.mpr inside, holds⟩
    have ordered : Sorted Segment.start (front ++ [s]) := split ▸ List.Pairwise.filter _ (mapOf segs).sorted
    rcases List.mem_append.mp among with earlier | last
    · exact (List.pairwise_append.mp ordered).2.2 t earlier s (List.mem_singleton_self s)
    · rw [List.mem_singleton.mp last]
  · rw [swap, ← withKey_mapOf, ← swap, split]
    simp [withKey]

/-- The lookup finds the segment added last exactly when no other segment that contains
    the address starts above it, and it finds none exactly when there is none. -/
theorem segmentAt_mostRecent_iff (segs : List Segment) (addr : ℕ) :
    ((mapOf segs).segmentAt addr = mostRecent segs addr ↔
      ∀ last, mostRecent segs addr = some last → ∀ s ∈ segs, s.range.contains addr = true → s.start ≤ last.start) ∧
    ((mapOf segs).segmentAt addr = none ↔ ∀ s ∈ segs, s.range.contains addr = false) := by
  have none_iff : (mapOf segs).segmentAt addr = none ↔ ∀ s ∈ segs, s.range.contains addr = false := by
    rw [segmentAt_eq, List.getLast?_eq_none_iff, holding, List.filter_eq_nil_iff]
    simp [mem_mapOf]
  refine ⟨⟨?_, ?_⟩, none_iff⟩
  · intro same last is
    exact (segmentAt_mapOf (same.trans is)).2.1
  · intro highest
    cases found : (mapOf segs).segmentAt addr with
    | none =>
      have empty := none_iff.mp found
      rw [mostRecent, eq_comm, List.getLast?_eq_none_iff]
      exact List.filter_eq_nil_iff.mpr fun s member => by simp [empty s member]
    | some s =>
      obtain ⟨holds, above, last⟩ := segmentAt_mapOf found
      have inside : s ∈ holding addr segs := (List.mem_filter.mp (List.mem_of_getLast? last)).1
      cases is : mostRecent segs addr with
      | none =>
        rw [mostRecent, List.getLast?_eq_none_iff] at is
        rw [is] at inside
        cases inside
      | some t =>
        -- both start where no segment with the address starts above them
        obtain ⟨front, split⟩ := List.getLast?_eq_some_iff.mp is
        have among : t ∈ holding addr segs := by simp [split]
        obtain ⟨here, holdsT⟩ := List.mem_filter.mp among
        have start : t.start = s.start :=
          le_antisymm (above t here holdsT) (highest t is s (List.mem_filter.mp inside).1 holds)
        rw [split] at last
        simpa [withKey, start] using last.symm

/-- A short segment inside a long one that is added later. -/
def inner : Segment := ⟨⟨0x2000, 0x2800, by decide, by decide⟩, ⟨true, false, false⟩, "inner", 0, [], by decide⟩
def outer : Segment := ⟨⟨0x1000, 0x3000, by decide, by decide⟩, ⟨true, false, false⟩, "outer", 0, [], by decide⟩

theorem earlier_segment_found : ¬∀ segs addr, (mapOf segs).segmentAt addr = mostRecent segs addr := by
  intro always
  exact absurd (always [inner, outer] 0x2400) (by decide)

/-- A range of addresses from a start on. -/
def Touches (addr len at_ n : ℕ) : Prop := ∃ x, (addr ≤ x ∧ x < addr + len) ∧ at_ ≤ x ∧ x < at_ + n

theorem sized_eq_some {addr len : ℕ} {want : AddrRange} (is : AddrRange.sized addr len = some want) :
    want.start = addr ∧ want.stop = addr + len := by
  rw [AddrRange.sized] at is
  split at is
  · cases is
    exact ⟨rfl, rfl⟩
  · cases is

theorem read_eq {s : Segment} {addr len : ℕ} : s.read addr len =
    if s.range.start ≤ addr ∧ addr + len ≤ s.range.stop then
      some ((List.range len).map fun i => (s.data[addr - s.range.start + i]?).getD 0)
    else none := by
  have bytes : ∀ (data : List UInt8) (off : ℕ), (data.drop off).take len ++
      List.replicate (len - ((data.drop off).take len).length) 0 = (List.range len).map fun i => (data[off + i]?).getD 0 := by
    intro data off
    refine List.ext_getElem ?_ fun i _ small => ?_
    · simp only [List.length_append, List.length_take, List.length_drop, List.length_replicate, List.length_map,
        List.length_range]
      omega
    · simp only [List.length_map, List.length_range] at small
      simp only [List.getElem_map, List.getElem_range, List.getElem_append, List.length_take, List.length_drop]
      split
      · next inside =>
        rw [List.getElem_take, List.getElem_drop, List.getElem?_eq_getElem]
        rfl
      · next outside =>
        rw [List.getElem_replicate, List.getElem?_eq_none (by omega)]
        rfl
  rw [Segment.read]
  by_cases fits : addr + len < 2 ^ 64
  · have sized : AddrRange.sized addr len = some ⟨addr, addr + len, Nat.le_add_right addr len, fits⟩ := by
      rw [AddrRange.sized, dif_pos fits]
    rw [sized]
    simp only [Option.bind_eq_bind, Option.bind_some, AddrRange.containsRange, Bool.and_eq_true, decide_eq_true_eq]
    split
    · exact congrArg some (bytes _ _)
    · rfl
  · have sized : AddrRange.sized addr len = none := by rw [AddrRange.sized, dif_neg fits]
    have := s.range.fits
    rw [sized, if_neg (by omega)]
    rfl

theorem patch_cases (s : Segment) (at_ : ℕ) (bytes : List UInt8) :
    (s.range.start ≤ at_ ∧ at_ - s.range.start + bytes.length ≤ s.data.length ∧ (s.patch at_ bytes).1 = true ∧
      (s.patch at_ bytes).2.data = Write.put s.data ⟨at_ - s.range.start, bytes⟩) ∨
    (¬(s.range.start ≤ at_ ∧ at_ - s.range.start + bytes.length ≤ s.data.length) ∧ s.patch at_ bytes = (false, s)) := by
  rw [Segment.patch]
  split
  · next low =>
    split
    · next fits => exact .inl ⟨low, fits, rfl, rfl⟩
    · next large => exact .inr ⟨fun both => large both.2, rfl⟩
  · next high => exact .inr ⟨fun both => high both.1, rfl⟩

section
variable {s : Segment} {at_ : ℕ} {bytes : List UInt8} (low : s.range.start ≤ at_)
  (fits : at_ - s.range.start + bytes.length ≤ s.data.length)

include low fits

private theorem patch_done : (s.patch at_ bytes).2.data = Write.put s.data ⟨at_ - s.range.start, bytes⟩ := by
  rcases patch_cases s at_ bytes with ⟨-, -, -, data⟩ | ⟨refused, -⟩
  · exact data
  · exact absurd ⟨low, fits⟩ refused

theorem read_patched : (s.patch at_ bytes).2.read at_ bytes.length = some bytes := by
  have backed := s.backed
  have ordered := s.range.ordered
  rw [AddrRange.len] at backed
  rw [read_eq, Segment.patch_range, if_pos ⟨low, by omega⟩, patch_done low fits]
  congr 1
  refine List.ext_getElem (by simp) fun i _ small => ?_
  have fits : (⟨at_ - s.range.start, bytes⟩ : Write UInt8).Fits s.data := fits
  rw [List.getElem_map, List.getElem_range, Write.get_put fits, if_pos ⟨by simp, by simpa using small⟩, Write.at_]
  simp [small]

theorem read_outside {addr len : ℕ} (apart : ¬Touches addr len at_ bytes.length) :
    (s.patch at_ bytes).2.read addr len = s.read addr len := by
  have whole : (⟨at_ - s.range.start, bytes⟩ : Write UInt8).Fits s.data := fits
  rw [read_eq, read_eq, Segment.patch_range, patch_done low fits]
  split
  · next inside =>
    congr 1
    refine List.map_congr_left fun i member => ?_
    have small := List.mem_range.mp member
    rw [Write.get_put whole, if_neg]
    rintro ⟨above, below⟩
    dsimp only at above below
    exact apart ⟨addr + i, ⟨by omega, by omega⟩, by omega, by omega⟩
  · rfl
end

/-- The first segment that contains the address has no bytes for the whole patch. -/
def Refused (m : MemoryMap) (at_ n : ℕ) : Prop :=
  ∀ first, (holding at_ m.segments).head? = some first → first.data.length < at_ - first.range.start + n

theorem patchFirst_cases (at_ : ℕ) (bytes : List UInt8) (segments : List Segment) :
    (patchFirst at_ bytes segments = (false, segments) ∧
      ∀ first, (holding at_ segments).head? = some first → first.data.length < at_ - first.range.start + bytes.length) ∨
    ∃ before first after, segments = before ++ first :: after ∧ holding at_ before = [] ∧
      first.range.contains at_ = true ∧ at_ - first.range.start + bytes.length ≤ first.data.length ∧
      patchFirst at_ bytes segments = (true, before ++ (first.patch at_ bytes).2 :: after) := by
  induction segments with
  | nil =>
    refine .inl ⟨rfl, ?_⟩
    rintro _ ⟨⟩
  | cons s rest ih =>
    rw [patchFirst]
    by_cases inside : s.range.contains at_ = true
    · have low := start_le_of_contains inside
      have head : (holding at_ (s :: rest)).head? = some s := by simp [holding, inside]
      rw [if_pos inside]
      rcases patch_cases s at_ bytes with ⟨-, fits, done, -⟩ | ⟨refused, same⟩
      · exact .inr ⟨[], s, rest, rfl, rfl, inside, fits, by rw [done]; rfl⟩
      · refine .inl ⟨by rw [same], fun first is => ?_⟩
        rw [head] at is
        cases is
        by_contra large
        exact refused ⟨low, by omega⟩
    · rw [if_neg inside]
      have skip : holding at_ (s :: rest) = holding at_ rest := by simp [holding, inside]
      rcases ih with ⟨same, refused⟩ | ⟨before, first, after, rfl, none, holds, fits, done⟩
      · refine .inl ⟨by rw [same], ?_⟩
        rwa [skip]
      · refine .inr ⟨s :: before, first, after, rfl, ?_, holds, fits, by rw [done]; rfl⟩
        rw [holding_cons, if_neg inside]
        exact none

/-- What a map promises of a patch. -/
structure Meets (m : MemoryMap) (at_ : ℕ) (bytes : List UInt8) : Prop where
  written : (m.patch at_ bytes).1 = true → (m.patch at_ bytes).2.read at_ bytes.length = some bytes
  frame : (m.patch at_ bytes).1 = true → ∀ addr len, ¬Touches addr len at_ bytes.length →
    (m.patch at_ bytes).2.read addr len = m.read addr len
  refused : (m.patch at_ bytes).1 = false → (m.patch at_ bytes).2 = m

theorem holding_exchange {s t : Segment} (same : t.range = s.range) (before after : List Segment) (addr : ℕ) :
    ((holding addr (before ++ t :: after)).getLast? = (holding addr (before ++ s :: after)).getLast? ∧
      (holding addr after ≠ [] ∨ s.range.contains addr = false)) ∨
    (holding addr after = [] ∧ (holding addr (before ++ t :: after)).getLast? = some t ∧
      (holding addr (before ++ s :: after)).getLast? = some s) := by
  have split : ∀ u : Segment, holding addr (before ++ u :: after) =
      holding addr before ++ ((if u.range.contains addr = true then [u] else []) ++ holding addr after) := by
    intro u
    rw [holding, List.filter_append, List.filter_cons]
    split
    · rfl
    · rfl
  rw [split, split, same]
  by_cases later : holding addr after = []
  · by_cases inside : s.range.contains addr = true
    · refine .inr ⟨later, ?_, ?_⟩
      · simp [later, inside]
      · simp [later, inside]
    · refine .inl ⟨?_, .inr (by simpa using inside)⟩
      simp [inside]
  · refine .inl ⟨?_, .inl later⟩
    rw [← List.append_assoc, ← List.append_assoc, List.getLast?_append_of_ne_nil _ later,
      List.getLast?_append_of_ne_nil _ later]

/-- A patch keeps its promise exactly when at most one segment contains the address, or
    it is refused, or the segment that is read holds the bytes already. -/
theorem mapped_iff (m : MemoryMap) (at_ : ℕ) (bytes : List UInt8) :
    Meets m at_ bytes ↔ (holding at_ m.segments).length ≤ 1 ∨ Refused m at_ bytes.length ∨
      ∃ last, m.segmentAt at_ = some last ∧ last.read at_ bytes.length = some bytes := by
  obtain ⟨segments, sorted⟩ := m
  rcases patchFirst_cases at_ bytes segments with ⟨same, refused⟩ | ⟨before, first, after, rfl, none, holds, fits, done⟩
  · have first : (MemoryMap.patch ⟨segments, sorted⟩ at_ bytes).1 = false := congrArg Prod.fst same
    have second : (MemoryMap.patch ⟨segments, sorted⟩ at_ bytes).2 = ⟨segments, sorted⟩ := by
      have := congrArg Prod.snd same
      simp only [MemoryMap.patch, this]
    refine ⟨fun _ => .inr (.inl refused), fun _ => ⟨fun is => ?_, fun is => ?_, fun _ => second⟩⟩
    · rw [first] at is
      cases is
    · rw [first] at is
      cases is
  · have low := start_le_of_contains holds
    have yes : (MemoryMap.patch ⟨before ++ first :: after, sorted⟩ at_ bytes).1 = true := congrArg Prod.fst done
    have after_ : (MemoryMap.patch ⟨before ++ first :: after, sorted⟩ at_ bytes).2.segments =
        before ++ (first.patch at_ bytes).2 :: after := congrArg Prod.snd done
    have range : (first.patch at_ bytes).2.range = first.range := Segment.patch_range first at_ bytes
    have frame : ∀ addr len, ¬Touches addr len at_ bytes.length →
        (MemoryMap.patch ⟨before ++ first :: after, sorted⟩ at_ bytes).2.read addr len =
          MemoryMap.read ⟨before ++ first :: after, sorted⟩ addr len := by
      intro addr len apart
      rw [MemoryMap.read, MemoryMap.read, segmentAt_eq, segmentAt_eq, after_]
      rcases holding_exchange range before after addr with ⟨is, -⟩ | ⟨-, patched, old⟩
      · rw [is]
      · rw [patched, old, Option.bind_some, Option.bind_some]
        exact read_outside low fits apart
    have count : (holding at_ (before ++ first :: after)).length = 1 + (holding at_ after).length := by
      rw [holding_append, holding_cons, if_pos holds, none, List.nil_append, List.length_cons, Nat.add_comm]
    have head : (holding at_ (before ++ first :: after)).head? = some first := by
      rw [holding_append, holding_cons, if_pos holds, none]
      rfl
    have accepted : ¬Refused ⟨before ++ first :: after, sorted⟩ at_ bytes.length := by
      intro refused
      have := refused first head
      omega
    have read : (MemoryMap.patch ⟨before ++ first :: after, sorted⟩ at_ bytes).2.read at_ bytes.length =
        ((holding at_ (before ++ (first.patch at_ bytes).2 :: after)).getLast?).bind fun s => s.read at_ bytes.length := by
      rw [MemoryMap.read, segmentAt_eq, after_]
    constructor
    · intro meets
      have written := meets.written yes
      rw [read] at written
      rcases holding_exchange range before after at_ with ⟨is, -⟩ | ⟨empty, -⟩
      · rw [is] at written
        obtain ⟨last, found, bytesRead⟩ := Option.bind_eq_some_iff.mp written
        exact .inr (.inr ⟨last, by rw [segmentAt_eq]; exact found, bytesRead⟩)
      · refine .inl ?_
        show (holding at_ (before ++ first :: after)).length ≤ 1
        rw [count, empty]
        exact Nat.le_refl 1
    · intro condition
      refine ⟨fun _ => ?_, fun _ => frame, fun is => ?_⟩
      · rw [read]
        rcases condition with single | refused | ⟨last, found, bytesRead⟩
        · have empty : holding at_ after = [] := by
            have : (holding at_ (before ++ first :: after)).length ≤ 1 := single
            rw [count] at this
            exact List.length_eq_zero_iff.mp (by omega)
          rcases holding_exchange range before after at_ with ⟨-, more | outside⟩ | ⟨-, patched, -⟩
          · exact absurd empty more
          · rw [holds] at outside
            cases outside
          · rw [patched, Option.bind_some]
            exact read_patched low fits
        · exact absurd refused accepted
        · rw [segmentAt_eq] at found
          rcases holding_exchange range before after at_ with ⟨is, -⟩ | ⟨-, patched, -⟩
          · rw [is]
            exact Option.bind_eq_some_iff.mpr ⟨last, found, bytesRead⟩
          · rw [patched, Option.bind_some]
            exact read_patched low fits
      · rw [yes] at is
        cases is

/-- A patch of a long segment at an address that a short one inside it has, too. -/
def backedOuter : Segment :=
  ⟨⟨0x1000, 0x1008, by decide, by decide⟩, ⟨true, true, false⟩, "outer", 0, [0, 0, 0, 0, 0, 0, 0, 0], by decide⟩
def backedInner : Segment :=
  ⟨⟨0x1002, 0x1004, by decide, by decide⟩, ⟨true, true, false⟩, "inner", 0, [0, 0], by decide⟩

theorem patch_not_read : ¬∀ m at_ bytes, Meets m at_ bytes := by
  intro always
  have written := (always (mapOf [backedOuter, backedInner]) 0x1002 [7]).written (by decide)
  exact absurd written (by decide)

abbrev Patch := ℕ × List UInt8

def accepts (m : MemoryMap) (p : Patch) : Bool := (m.patch p.1 p.2).1

def patchAll (m : MemoryMap) (patches : List Patch) : MemoryMap := patches.foldl (fun m p => (m.patch p.1 p.2).2) m

def byteAt (addr : ℕ) (p : Patch) : Option UInt8 := if p.1 ≤ addr then p.2[addr - p.1]? else none

/-- What no patch of a map changes: its ranges and how much of them is backed. -/
def extent (s : Segment) : AddrRange × ℕ := (s.range, s.data.length)

/-- No two segments share an address. -/
def Apart (m : MemoryMap) : Prop := ∀ addr, (holding addr m.segments).length ≤ 1

variable {m : MemoryMap} {at_ addr : ℕ} {bytes : List UInt8} {segments others : List Segment}

theorem patchFirst_extents : (patchFirst at_ bytes segments).2.map extent = segments.map extent := by
  induction segments with
  | nil => rfl
  | cons s rest ih =>
    rw [patchFirst]
    split
    · rw [List.map_cons, List.map_cons, extent, Segment.patch_range]
      rcases patch_cases s at_ bytes with ⟨low, fits, -, data⟩ | ⟨-, same⟩
      · have whole : (⟨at_ - s.range.start, bytes⟩ : Write UInt8).Fits s.data := fits
        rw [data, Write.length_put whole, extent]
      · rw [same, extent]
    · rw [List.map_cons, List.map_cons, ih]

theorem patchFirst_accepts : (patchFirst at_ bytes segments).1 =
    ((segments.map extent).find? fun e => e.1.contains at_).any
      fun e => decide (e.1.start ≤ at_ ∧ at_ - e.1.start + bytes.length ≤ e.2) := by
  induction segments with
  | nil => rfl
  | cons s rest ih =>
    rw [patchFirst, List.map_cons, List.find?_cons, extent]
    by_cases inside : s.range.contains at_ = true
    · rw [if_pos inside, inside, Option.any_some, Bool.eq_iff_iff, decide_eq_true_eq]
      rcases patch_cases s at_ bytes with ⟨low, fits, done, -⟩ | ⟨refused, same⟩
      · exact ⟨fun _ => ⟨low, fits⟩, fun _ => done⟩
      · exact ⟨fun yes => absurd (by rw [same] at yes; exact yes) Bool.false_ne_true, fun both => absurd both refused⟩
    · rw [if_neg inside, Bool.eq_false_of_not_eq_true inside]
      exact ih

theorem length_holding : (holding addr segments).length = (segments.map extent).countP fun e => e.1.contains addr := by
  rw [List.countP_map, List.countP_eq_length_filter]
  rfl

theorem accepts_congr (same : segments.map extent = others.map extent) :
    (patchFirst at_ bytes segments).1 = (patchFirst at_ bytes others).1 := by
  rw [patchFirst_accepts, patchFirst_accepts, same]

theorem read_patch (apart : Apart m) (p : Patch) (addr : ℕ) : (m.patch p.1 p.2).2.read addr 1 =
    if accepts m p then (byteAt addr p).elim (m.read addr 1) (fun b => some [b]) else m.read addr 1 := by
  obtain ⟨at_, bytes⟩ := p
  have single := apart addr
  have reads : (m.patch at_ bytes).2.read addr 1 =
      ((holding addr (patchFirst at_ bytes m.segments).2).getLast?).bind fun s => s.read addr 1 := by
    rw [MemoryMap.read, segmentAt_eq]
    rfl
  rw [reads, MemoryMap.read, segmentAt_eq, show accepts m (at_, bytes) = (patchFirst at_ bytes m.segments).1 from rfl]
  generalize m.segments = segments at single
  rcases patchFirst_cases at_ bytes segments with ⟨same, -⟩ | ⟨before, first, after, rfl, none, inside, fits, done⟩
  · rw [same, if_neg Bool.false_ne_true]
  · rw [done, if_pos rfl]
    have low : first.range.start ≤ at_ := start_le_of_contains inside
    have backed := first.backed
    have ordered := first.range.ordered
    rw [AddrRange.len] at backed
    dsimp only
    by_cases written : at_ ≤ addr ∧ addr < at_ + bytes.length
    · have here : first.range.contains addr = true := by
        simp only [AddrRange.contains, Bool.and_eq_true, decide_eq_true_eq]
        omega
      rw [holding_append, holding_cons, if_pos here, List.length_append, List.length_cons] at single
      have alone : holding addr after = [] := List.length_eq_zero_iff.mp (by omega)
      rcases holding_exchange (Segment.patch_range first at_ bytes) before after addr with ⟨-, more | outside⟩ | ⟨-, patched, -⟩
      · exact absurd alone more
      · rw [here] at outside
        cases outside
      · have data : (first.patch at_ bytes).2.data = Write.put first.data ⟨at_ - first.range.start, bytes⟩ := by
          rcases patch_cases first at_ bytes with ⟨-, -, -, data⟩ | ⟨refused, -⟩
          · exact data
          · exact absurd ⟨low, fits⟩ refused
        have whole : (⟨at_ - first.range.start, bytes⟩ : Write UInt8).Fits first.data := fits
        have bound : addr - at_ < bytes.length := by omega
        have byte : byteAt addr (at_, bytes) = some bytes[addr - at_] := by
          rw [byteAt, if_pos written.1, List.getElem?_eq_getElem]
        rw [patched, Option.bind_some, byte, Option.elim_some, read_eq, Segment.patch_range, if_pos ⟨by omega, by omega⟩, data]
        simp only [List.range_one, List.map_cons, List.map_nil, Nat.add_zero]
        rw [Write.get_put whole, if_pos ⟨by dsimp only; omega, by dsimp only; omega⟩, Write.at_]
        have offset : addr - first.range.start - (at_ - first.range.start) = addr - at_ := by omega
        simp only [offset]
        rw [List.getElem?_eq_getElem bound, Option.getD_some]
    · have apart : ¬Touches addr 1 at_ bytes.length := by
        rintro ⟨x, ⟨above, below⟩, from_, to_⟩
        omega
      have byte : byteAt addr (at_, bytes) = Option.none := by
        rw [byteAt]
        split
        · exact List.getElem?_eq_none (by dsimp only; omega)
        · rfl
      rw [byte, Option.elim_none]
      rcases holding_exchange (Segment.patch_range first at_ bytes) before after addr with ⟨is, -⟩ | ⟨-, patched, old⟩
      · rw [is]
      · rw [patched, old, Option.bind_some, Option.bind_some]
        exact read_outside low fits apart

/-- After a run of patches every byte is the last one that an accepted patch has for its address,
    or the one it was. -/
theorem read_patchAll (apart : Apart m) (patches : List Patch) (addr : ℕ) : (patchAll m patches).read addr 1 =
    (((patches.filter (accepts m)).filterMap (byteAt addr)).getLast?).elim (m.read addr 1) fun b => some [b] := by
  induction patches generalizing m with
  | nil => rfl
  | cons p rest ih =>
    have extents : (m.patch p.1 p.2).2.segments.map extent = m.segments.map extent := patchFirst_extents
    have still : Apart (m.patch p.1 p.2).2 := fun a => by
      rw [length_holding, extents, ← length_holding]
      exact apart a
    have same : accepts (m.patch p.1 p.2).2 = accepts m := funext fun q => accepts_congr extents
    rw [patchAll, List.foldl_cons, ← patchAll, ih still, same, read_patch apart, List.filter_cons]
    by_cases taken : accepts m p = true
    · rw [if_pos taken, if_pos taken, List.filterMap_cons]
      cases byte : byteAt addr p with
      | none => rfl
      | some b =>
        dsimp only
        cases (rest.filter (accepts m)).filterMap (byteAt addr) with
        | nil => rfl
        | cons c more => rw [List.getLast?_cons_cons, List.getLast?_eq_some_getLast (List.cons_ne_nil c more)]; rfl
    · rw [if_neg taken, if_neg taken]

theorem apart_outer : Apart (mapOf [backedOuter]) := by
  intro addr
  exact (List.length_filter_le _ _).trans (by decide)

theorem read_patchAll_twice :
    (patchAll (mapOf [backedOuter]) [(0x1002, [7, 8]), (0x1003, [9]), (0x1007, [1, 2])]).read 0x1003 1 = some [9] :=
  (read_patchAll apart_outer _ _).trans (by decide)

end E5r.MemoryMaps
