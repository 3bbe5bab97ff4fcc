import E5r.FlashHeaders
import E5r.RamCorrect

/-!
The flash contents of a firmware file are what its program headers store, and
the export panics only at a window whose end is not a 64-bit number.
-/
namespace E5r.FlashCorrect
open FlashModel FlashHeaders
open Checked
open RamModel (Object ptLoad)
open RamHeaders (leAt leAt_lt)
open RamCorrect (phnum phoff entryOf pairwise_of_neighbours twoLoads twoLoadsObject)
open Fallible (bind_some_ok_iff bind_none_iff bind_stops bind_ok)

section
variable {segments : List FlashSegment}

/-- The end of a segment is a 64-bit number. -/
private def Bounded (s : FlashSegment) : Prop := s.base + s.bytes.length < 2 ^ 33

private theorem bounded_of {bytes : List UInt8} {at_ n : ℕ} : ∀ s ∈ segmentsOf bytes at_ n, Bounded s := by
  intro s member
  obtain ⟨i, -, rfl⟩ := List.mem_map.mp member
  have paddr := (headerAt_small bytes at_ i).paddr
  have filesz := (headerAt_small bytes at_ i).filesz
  rw [Bounded, segmentOf, List.length_take]
  dsimp only
  omega

variable (bounded : ∀ s ∈ segments, Bounded s)

include bounded in
private theorem ordered_step {a b : FlashSegment} (member : (a, b) ∈ segments.zip segments.tail) :
    (do let top ← add a.base a.bytes.length; refuse (b.base < top) .order : Run Unit) =
      refuse (b.base < a.base + a.bytes.length) .order := by
  have small : a.base + a.bytes.length < 2 ^ 33 := bounded a (List.of_mem_zip member).1
  rw [add_eq (by omega), bind_ok _ rfl]

include bounded in
private theorem ordered_returns : ordered segments ≠ none := by
  apply Fallible.forM_returns
  rintro ⟨a, b⟩ member
  dsimp only
  rw [ordered_step bounded member]
  exact refuse_returns

include bounded in
private theorem ordered_ok (ran : ordered segments = some (.ok ())) :
    segments.Pairwise fun a b => a.base + a.bytes.length ≤ b.base := by
  refine pairwise_of_neighbours ?_ ?_
  · intro a b c first second
    omega
  rintro ⟨a, b⟩ member
  have passed := Fallible.forM_ok ran (a, b) member
  dsimp only at passed ⊢
  rw [ordered_step bounded member, refuse_ok] at passed
  omega

/-- The entry is in an executable segment. -/
private def entered (entry : ℕ) (s : FlashSegment) : Bool :=
  s.exec && decide (Inside entry 2 s.base s.bytes.length)

include bounded in
private theorem entered_eq {entry : ℕ} (small : entry < 2 ^ 32) :
    (segments.anyM fun s => if s.exec = true then within entry 2 s.base s.bytes.length else pure false : Run Bool) =
      some (.ok (segments.any (entered entry))) := by
  apply Fallible.anyM_guarded
  intro s member
  have top : s.base + s.bytes.length < 2 ^ 33 := bounded s member
  rw [within_eq (by omega), if_neg]
  rintro ⟨-, large⟩
  omega

theorem crossCheck_returns {load : List UInt8 → Except String Object} {bytes : List UInt8} :
    crossCheck load bytes segments ≠ none := by
  rw [crossCheck]
  cases load bytes with
  | error why => exact throw_returns
  | ok obj =>
    intro panics
    dsimp only at panics
    obtain ⟨_, -, panics⟩ := bind_stops refuse_returns panics
    obtain ⟨_, -, panics⟩ := bind_stops refuse_returns panics
    refine Fallible.forM_returns ?_ panics
    intro s _ panics
    obtain ⟨_, -, panics⟩ := bind_stops orElse_returns panics
    exact refuse_returns panics
end

/-- What is asked of a file before its program headers are read. -/
structure Elf (bytes : List UInt8) : Prop where
  most : bytes.length ≤ maxFile
  least : 52 ≤ bytes.length
  magic : bytes.take 7 = [0x7f, 0x45, 0x4c, 0x46, 1, 1, 1]
  kind : leAt bytes 16 2 = 2
  machine : leAt bytes 18 2 = 243
  version : leAt bytes 20 4 = 1
  flags : BitVec.ofNat 32 (leAt bytes 36 4) &&& ~~~1 = 0
  headerSize : leAt bytes 40 2 = 52
  rowSize : leAt bytes 42 2 = 32
  count : 1 ≤ phnum bytes ∧ phnum bytes ≤ 16

section
variable {load : List UInt8 → Except String Object} {bytes : List UInt8} {w : Windows}

/-- What is done with a file after its header. -/
def rest (load : List UInt8 → Except String Object) (bytes : List UInt8) (w : Windows) : Run FlashImage := do
  let s ← scan bytes w (phoff bytes) (phnum bytes)
  ordered s.segments
  let inExec ← s.segments.anyM fun s => if s.exec then within (entryOf bytes) 2 s.base s.bytes.length else pure false
  refuse (entryOf bytes % 2 ≠ 0 ∨ inExec = false) (.entry (entryOf bytes))
  crossCheck load bytes s.segments
  pure ⟨entryOf bytes, s.segments⟩

private theorem word (size : ℕ) (least : 52 ≤ bytes.length) {off : ℕ} (inside : off + size ≤ 52) :
    numberAt size bytes off = some (.ok (leAt bytes off size)) :=
  (numberAt_ok_iff (by omega)).mpr ⟨by omega, rfl⟩

/-- A file whose header is accepted goes on to its program headers. -/
theorem flashImage_eq (elf : Elf bytes) : flashImage load bytes w = rest load bytes w := by
  obtain ⟨most, least, magic, kind, machine, version, flags, headerSize, rowSize, count⟩ := elf
  have half (off : ℕ) : off + 2 ≤ 52 → u16At bytes off = some (.ok (leAt bytes off 2)) := word 2 least
  have word (off : ℕ) : off + 4 ≤ 52 → u32At bytes off = some (.ok (leAt bytes off 4)) := word 4 least
  rw [phnum] at count
  rw [flashImage, refuse_bind (by omega), bind_ok _ (slice_eq (by omega) (by omega)),
    refuse_bind (by rw [not_not]; exact magic),
    bind_ok _ (half 16 (by decide)), refuse_bind (by rw [not_not]; exact kind),
    bind_ok _ (half 18 (by decide)), refuse_bind (by rw [not_not]; exact machine),
    bind_ok _ (word 20 (by decide)), refuse_bind (by rw [not_not]; exact version),
    bind_ok _ (word 36 (by decide)), refuse_bind (by rw [not_not]; exact flags),
    bind_ok _ (half 40 (by decide)), refuse_bind (by rw [not_not]; exact headerSize),
    bind_ok _ (half 42 (by decide)), refuse_bind (by rw [not_not]; exact rowSize),
    bind_ok _ (word 28 (by decide)), bind_ok _ (half 44 (by decide)), refuse_bind (by rw [not_not]; exact count),
    bind_ok _ (word 24 (by decide))]
  rfl

/-- A file that is not refused has an accepted header. -/
theorem elf_of_goes (goes : ∀ e, flashImage load bytes w ≠ some (.error e)) : Elf bytes := by
  rw [flashImage] at goes
  obtain ⟨size, goes⟩ := refuse_goes goes
  rw [not_or, not_lt, not_lt] at size
  have half (off : ℕ) : off + 2 ≤ 52 → u16At bytes off = some (.ok (leAt bytes off 2)) := word 2 size.2
  have word (off : ℕ) : off + 4 ≤ 52 → u32At bytes off = some (.ok (leAt bytes off 4)) := word 4 size.2
  rw [bind_ok _ (slice_eq (by omega) (by omega))] at goes
  obtain ⟨magic, goes⟩ := refuse_goes goes
  rw [bind_ok _ (half 16 (by decide))] at goes
  obtain ⟨kind, goes⟩ := refuse_goes goes
  rw [bind_ok _ (half 18 (by decide))] at goes
  obtain ⟨machine, goes⟩ := refuse_goes goes
  rw [bind_ok _ (word 20 (by decide))] at goes
  obtain ⟨version, goes⟩ := refuse_goes goes
  rw [bind_ok _ (word 36 (by decide))] at goes
  obtain ⟨flags, goes⟩ := refuse_goes goes
  rw [bind_ok _ (half 40 (by decide))] at goes
  obtain ⟨headerSize, goes⟩ := refuse_goes goes
  rw [bind_ok _ (half 42 (by decide))] at goes
  obtain ⟨rowSize, goes⟩ := refuse_goes goes
  rw [bind_ok _ (word 28 (by decide)), bind_ok _ (half 44 (by decide))] at goes
  obtain ⟨count, -⟩ := refuse_goes goes
  exact ⟨size.1, size.2, not_not.mp magic, not_not.mp kind, not_not.mp machine, not_not.mp version, not_not.mp flags,
    not_not.mp headerSize, not_not.mp rowSize, not_not.mp count⟩

private theorem phoff_lt : phoff bytes < 2 ^ 32 := leAt_lt ..

/-- A program header that is reached is compared with a window whose end is not
    a 64-bit number. -/
def ReachesPastEnd (bytes : List UInt8) (w : Windows) : Prop :=
  Elf bytes ∧ ∃ i < phnum bytes, PastEnd bytes w (phoff bytes) i

theorem flashImage_none_iff : flashImage load bytes w = none ↔ ReachesPastEnd bytes w := by
  constructor
  · intro panics
    have elf : Elf bytes := elf_of_goes (by rw [panics]; exact nofun)
    rw [flashImage_eq elf, rest, bind_none_iff, scan_none_iff phoff_lt elf.count.2] at panics
    rcases panics with past | ⟨s, scanned, panics⟩
    · exact ⟨elf, past⟩
    · obtain ⟨-, rfl⟩ := (scan_ok_iff phoff_lt elf.count.2).mp scanned
      have bounded := @bounded_of bytes (phoff bytes) (phnum bytes)
      obtain ⟨_, -, panics⟩ := bind_stops (ordered_returns bounded) panics
      rw [entered_eq bounded (leAt_lt ..), bind_ok _ rfl] at panics
      obtain ⟨_, -, panics⟩ := bind_stops refuse_returns panics
      obtain ⟨_, -, panics⟩ := bind_stops crossCheck_returns panics
      exact absurd panics pure_returns
  · rintro ⟨elf, past⟩
    rw [flashImage_eq elf, rest, bind_none_iff]
    exact .inl ((scan_none_iff phoff_lt elf.count.2).mpr past)

/-- Segments that have no address in common. -/
def Apart (a b : FlashSegment) : Prop :=
  ∀ x, ¬((a.base ≤ x ∧ x < a.base + a.bytes.length) ∧ b.base ≤ x ∧ x < b.base + b.bytes.length)

/-- A segment holds the file bytes of a `PT_LOAD`, which is not both writable and
    executable. -/
structure Loads (bytes : List UInt8) (s : FlashSegment) (h : Header) : Prop where
  kind : h.kind = ptLoad
  base : s.base = h.paddr
  inFile : h.file + h.filesz ≤ bytes.length
  content : s.bytes = (bytes.drop h.file).take h.filesz
  exec : s.exec = h.exec
  exclusive : ¬(h.exec = true ∧ h.write = true)

/-- What the flash of an accepted file is. -/
structure Bootable (bytes : List UInt8) (w : Windows) (img : FlashImage) : Prop where
  segments : img.segments = segmentsOf bytes (phoff bytes) (phnum bytes)
  ascending : img.segments.Pairwise fun a b => a.base + a.bytes.length ≤ b.base
  apart : img.segments.Pairwise Apart
  inFlash : ∀ s ∈ img.segments, Inside s.base s.bytes.length w.flashBase w.flashSize
  loads : ∀ s ∈ img.segments, ∃ i < phnum bytes, Loads bytes s (headerAt bytes (phoff bytes) i)
  entry : img.entry = entryOf bytes ∧
    ∃ s ∈ img.segments, s.exec = true ∧ Inside img.entry 2 s.base s.bytes.length
  total : (img.segments.map fun s => s.bytes.length).sum ≤ maxFlash

theorem flashImage_ok {img : FlashImage} (ran : flashImage load bytes w = some (.ok img)) : Bootable bytes w img := by
  have elf : Elf bytes := elf_of_goes (by rw [ran]; exact nofun)
  rw [flashImage_eq elf, rest, bind_some_ok_iff] at ran
  obtain ⟨s, scanned, ran⟩ := ran
  obtain ⟨pass, rfl⟩ := (scan_ok_iff phoff_lt elf.count.2).mp scanned
  have bounded := @bounded_of bytes (phoff bytes) (phnum bytes)
  rw [bind_some_ok_iff] at ran
  obtain ⟨_, order, ran⟩ := ran
  have ascending := ordered_ok bounded order
  rw [entered_eq bounded (leAt_lt ..), bind_ok _ rfl, bind_some_ok_iff] at ran
  obtain ⟨_, enters, ran⟩ := ran
  rw [refuse_ok, not_or, Bool.not_eq_false, List.any_eq_true] at enters
  obtain ⟨-, first, member, enters⟩ := enters
  rw [entered, Bool.and_eq_true, decide_eq_true_eq] at enters
  rw [bind_some_ok_iff] at ran
  obtain ⟨_, -, ran⟩ := ran
  rw [pure_ok] at ran
  subst ran
  have stored (i : ℕ) (index : i ∈ storedIndices bytes (phoff bytes) (phnum bytes)) :
      i < phnum bytes ∧ Stored bytes w (headerAt bytes (phoff bytes) i) := by
    rw [storedIndices, List.mem_filter, List.mem_range, decide_eq_true_eq] at index
    obtain ⟨bound, kind, content⟩ := index
    refine ⟨bound, ?_⟩
    rcases (pass i bound).acceptable with skipped | reserved | stored
    · exact absurd kind (not_load skipped)
    · exact absurd reserved.empty (by omega)
    · exact stored
  have length (i : ℕ) (index : i ∈ storedIndices bytes (phoff bytes) (phnum bytes)) :
      (segmentOf bytes (headerAt bytes (phoff bytes) i)).bytes.length = (headerAt bytes (phoff bytes) i).filesz := by
    have inFile := (stored i index).2.inFile
    rw [segmentOf, List.length_take, List.length_drop]
    omega
  refine ⟨rfl, ascending, ascending.imp ?_, ?_, ?_, ⟨rfl, first, member, enters⟩, ?_⟩
  · rintro a b before x ⟨⟨-, low⟩, high, -⟩
    omega
  · intro s member
    obtain ⟨i, index, rfl⟩ := List.mem_map.mp member
    have inFlash := (stored i index).2.inFlash
    rw [length i index]
    exact inFlash
  · intro s member
    obtain ⟨i, index, rfl⟩ := List.mem_map.mp member
    obtain ⟨bound, accepted⟩ := stored i index
    exact ⟨i, bound, accepted.kind, rfl, accepted.inFile, rfl, rfl, accepted.exclusive⟩
  · have sizes : (segmentsOf bytes (phoff bytes) (phnum bytes)).map (fun s => s.bytes.length) =
        (storedIndices bytes (phoff bytes) (phnum bytes)).map fun i => (headerAt bytes (phoff bytes) i).filesz := by
      rw [segmentsOf, List.map_map]
      exact List.map_congr_left length
    dsimp only
    rw [sizes]
    exact room pass

/-- The export returns, and what it accepts is bootable, exactly when no header
    that it reaches is compared with a window past the end of the address space. -/
theorem flashImage_correct_iff (load : List UInt8 → Except String Object) (bytes : List UInt8) (w : Windows) :
    ((∃ r, flashImage load bytes w = some r) ∧
        ∀ img, flashImage load bytes w = some (.ok img) → Bootable bytes w img) ↔ ¬ReachesPastEnd bytes w := by
  rw [← @flashImage_none_iff load, ← ne_eq, Option.ne_none_iff_exists']
  exact ⟨fun both => both.1, fun returns => ⟨returns, fun img => flashImage_ok⟩⟩
end

/-- A board whose flash reaches to the end of the 64-bit address space. -/
def tallBoard : Windows := ⟨2147483648, 2 ^ 64 - 2147483648, 2147483904, 4096⟩

/-- The end of the flash window overflows at the first load. -/
theorem flashImage_panics : ¬∀ (load : List UInt8 → Except String Object) (bytes : List UInt8) (w : Windows),
    (∃ r, flashImage load bytes w = some r) ∧
      ∀ img, flashImage load bytes w = some (.ok img) → Bootable bytes w img := by
  intro every
  have elf : Elf twoLoads := by constructor <;> decide
  have shaped : Shaped (headerAt twoLoads 52 0) := by constructor <;> decide
  have compared : ComparedPastEnd twoLoads tallBoard (headerAt twoLoads 52 0) :=
    ⟨shaped, .inr ⟨by decide, by decide, .inl (by decide)⟩⟩
  have past : PastEnd twoLoads tallBoard 52 0 := ⟨nofun, by unfold Row; decide, compared⟩
  obtain ⟨r, ran⟩ := (every (fun _ => .ok twoLoadsObject) twoLoads tallBoard).1
  rw [flashImage_none_iff.mpr ⟨elf, 0, by decide, past⟩] at ran
  cases ran

set_option maxRecDepth 8000 in
/-- The file is accepted for a board with 256 bytes of flash. -/
example : (match flashImage (fun _ => .ok twoLoadsObject) twoLoads ⟨2147483648, 256, 2147483904, 4096⟩ with
    | some (.ok img) => img.segments.length
    | _ => 0) = 1 := by decide

end E5r.FlashCorrect
