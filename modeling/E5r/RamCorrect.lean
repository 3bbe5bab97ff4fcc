import E5r.RamHeaders
import Mathlib.Data.List.Perm.Basic

/-!
The initial RAM of a file that is accepted is determined by the file, and the
exporter panics only at attributes that overrun their list.
-/
namespace E5r.RamCorrect
open RamModel RamHeaders
open Checked (refuse_goes)
open Fallible (bind_some_ok_iff bind_none_iff bind_stops bind_ok)

/-- A load has an address in memory. -/
def Covers (l : Load) (x : ℕ) : Prop := l.vaddr ≤ x ∧ x < l.vaddr + l.memsz

instance (l : Load) (x : ℕ) : Decidable (Covers l x) := inferInstanceAs (Decidable (_ ∧ _))

/-- What a loader does with one load: its bytes, and zeros after them. -/
def place (ram : ℕ → UInt8) (l : Load) : ℕ → UInt8 :=
  fun x => if Covers l x then l.bytes.getD (x - l.vaddr) 0 else ram x

/-- Loads that have no address in common. -/
def Apart (a b : Load) : Prop := ∀ x, ¬(Covers a x ∧ Covers b x)

theorem Apart.symm {a b : Load} (apart : Apart a b) : Apart b a := fun x both => apart x ⟨both.2, both.1⟩

section
variable {ls : List Load} {x : ℕ}

theorem placed_outside (outside : ∀ l ∈ ls, ¬Covers l x) : ∀ ram : ℕ → UInt8, ls.foldl place ram x = ram x := by
  induction ls with
  | nil =>
    intro ram
    rfl
  | cons l ls ih =>
    intro ram
    rw [List.foldl_cons, ih (fun m member => outside m (List.mem_cons_of_mem l member)), place,
      if_neg (outside l (List.mem_cons_self ..))]

theorem placed_inside (apart : ls.Pairwise Apart) {l : Load} (member : l ∈ ls) (inside : Covers l x) :
    ∀ ram : ℕ → UInt8, ls.foldl place ram x = l.bytes.getD (x - l.vaddr) 0 := by
  induction ls with
  | nil => cases member
  | cons m ls ih =>
    intro ram
    obtain ⟨first, rest⟩ := List.pairwise_cons.mp apart
    rw [List.foldl_cons]
    rcases List.mem_cons.mp member with rfl | later
    · rw [placed_outside (fun n other covered => first n other x ⟨inside, covered⟩), place, if_pos inside]
    · exact ih rest later _

theorem placed_perm (apart : ls.Pairwise Apart) {other : List Load} (perm : other.Perm ls) (ram : ℕ → UInt8) :
    other.foldl place ram = ls.foldl place ram := by
  funext x
  by_cases covered : ∃ l ∈ ls, Covers l x
  · obtain ⟨l, member, inside⟩ := covered
    have otherApart : other.Pairwise Apart := (perm.pairwise_iff fun same => same.symm).mpr apart
    rw [placed_inside apart member inside, placed_inside otherApart (perm.mem_iff.mpr member) inside]
  · have outside : ∀ l ∈ ls, ¬Covers l x := fun l member inside => covered ⟨l, member, inside⟩
    rw [placed_outside outside, placed_outside fun l member => outside l (perm.mem_iff.mp member)]
end

/-- The end of a load, which its fields do not overflow. -/
structure Bounded (l : Load) : Prop where
  vaddr : l.vaddr < 2 ^ 32
  filesz : l.filesz < 2 ^ 32
  memsz : l.memsz < 2 ^ 32

theorem load_bounded {bytes : List UInt8} {phoff n : ℕ} {l : Load} (member : l ∈ loadsOf bytes phoff n) : Bounded l := by
  obtain ⟨i, -, rfl⟩ := List.mem_map.mp member
  have small := phdr_small bytes phoff i
  exact ⟨small.vaddr, small.filesz, small.memsz⟩

/-- What the checks of the loads together accept. -/
structure LaidOut (p : Policy) (entry : ℕ) (loads : List Load) (rwBase : ℕ) : Prop where
  ascending : loads.Pairwise fun a b => a.vaddr + a.memsz ≤ b.vaddr
  enters : ∃ l ∈ loads, l.exec = true ∧ l.vaddr ≤ entry ∧ entry + 2 ≤ l.vaddr + l.filesz
  even : entry % 2 = 0
  readOnly : ∀ l ∈ loads, l.write = false → l.vaddr + l.memsz ≤ rwBase
  writable : ∀ l ∈ loads, l.write = true → rwBase ≤ l.vaddr
  room : rwBase < p.ramBase + p.ramSize

theorem pairwise_of_neighbours {α : Type} {r : α → α → Prop} (trans : ∀ a b c, r a b → r b c → r a c) {xs : List α}
    (neighbours : ∀ ab ∈ xs.zip xs.tail, r ab.1 ab.2) : xs.Pairwise r := by
  induction xs with
  | nil => exact .nil
  | cons a rest ih =>
    cases rest with
    | nil => exact List.pairwise_singleton _ a
    | cons b rest =>
      have later := ih fun ab member => neighbours ab (List.mem_cons_of_mem _ member)
      have first := neighbours (a, b) (List.mem_cons_self ..)
      dsimp only at first
      refine List.pairwise_cons.mpr ⟨?_, later⟩
      intro c member
      rcases List.mem_cons.mp member with rfl | further
      · exact first
      · exact trans a b c first ((List.pairwise_cons.mp later).1 c further)

section
variable {loads : List Load}

variable {p : Policy} {entry : ℕ} (bounded : ∀ l ∈ loads, Bounded l)

include bounded in
private theorem top_eq {l : Load} (member : l ∈ loads) : l.top = some (.ok (l.vaddr + l.memsz)) := by
  obtain ⟨vaddr, -, memsz⟩ := bounded l member
  exact add_eq (by omega)

include bounded in
private theorem ordered_step {a b : Load} (member : (a, b) ∈ loads.zip loads.tail) :
    (do let top ← a.top; refuse (b.vaddr < top) (.order a.index b.index)) =
      refuse (b.vaddr < a.vaddr + a.memsz) (.order a.index b.index) := by
  rw [bind_ok _ (top_eq bounded (List.of_mem_zip member).1)]

include bounded in
private theorem ordered_returns : ordered loads ≠ none := by
  apply Fallible.forM_returns
  rintro ⟨a, b⟩ member
  dsimp only
  rw [ordered_step bounded member]
  exact refuse_returns

include bounded in
private theorem ordered_ok (ran : ordered loads = some (.ok ())) :
    loads.Pairwise fun a b => a.vaddr + a.memsz ≤ b.vaddr := by
  refine pairwise_of_neighbours ?_ ?_
  · intro a b c first second
    omega
  rintro ⟨a, b⟩ member
  have passed := Fallible.forM_ok ran (a, b) member
  dsimp only at passed ⊢
  rw [ordered_step bounded member, refuse_ok] at passed
  omega

/-- The entry is in the file bytes of an executable load. -/
private def entered (entry : ℕ) (l : Load) : Bool :=
  l.exec && decide (l.vaddr ≤ entry ∧ entry + 2 ≤ l.vaddr + l.filesz)

include bounded in
private theorem entered_eq (small : entry < 2 ^ 32) :
    (loads.anyM fun l => if l.exec = true then within entry 2 l.vaddr l.filesz else pure false) =
      some (.ok (loads.any (entered entry))) := by
  apply Fallible.anyM_guarded
  intro l member
  obtain ⟨vaddr, filesz, -⟩ := bounded l member
  exact within_eq (by omega) (by omega)

include bounded in
private theorem tops_eq : (loads.filter fun l => !l.write).mapM Load.top =
    some (.ok ((loads.filter fun l => !l.write).map fun l => l.vaddr + l.memsz)) := by
  apply Fallible.mapM_eq
  intro l member
  exact top_eq bounded (List.mem_of_mem_filter member)

/-- An executable load is not writable. -/
def Exclusive (l : Load) : Prop := ¬(l.write = true ∧ l.exec = true)

include bounded in
theorem layout_ok (valid : Valid p) (small : entry < 2 ^ 32) {rwBase : ℕ}
    (ran : layout p entry loads = some (.ok rwBase)) : LaidOut p entry loads rwBase := by
  have window := valid.window
  rw [layout, bind_some_ok_iff] at ran
  obtain ⟨_, -, ran⟩ := ran
  rw [bind_some_ok_iff] at ran
  obtain ⟨_, apart, ran⟩ := ran
  rw [entered_eq bounded small, bind_ok _ rfl, bind_some_ok_iff] at ran
  obtain ⟨_, enters, ran⟩ := ran
  rw [tops_eq bounded, bind_ok _ rfl, bind_some_ok_iff] at ran
  obtain ⟨top, highest, ran⟩ := ran
  rw [refuse_ok, not_or, not_not, Bool.not_eq_false, List.any_eq_true] at enters
  obtain ⟨even, l, member, enters⟩ := enters
  rw [entered, Bool.and_eq_true, decide_eq_true_eq] at enters
  rw [expect_ok, List.max?_eq_some_iff] at highest
  split at ran
  · exact absurd ran (by rw [throw_ok]; exact id)
  · next none =>
    rw [add_eq (by omega), bind_ok _ rfl, bind_some_ok_iff] at ran
    obtain ⟨_, room, same⟩ := ran
    rw [refuse_ok, not_le] at room
    rw [pure_ok] at same
    subst same
    refine ⟨ordered_ok bounded apart, ⟨l, member, enters⟩, even, ?_, ?_, room⟩
    · intro l member readOnly
      exact highest.2 _ (List.mem_map.mpr ⟨l, List.mem_filter.mpr ⟨member, by rw [readOnly]; rfl⟩, rfl⟩)
    · intro l member writable
      have here := List.find?_eq_none.mp none l member
      rw [Bool.and_eq_true, decide_eq_true_eq] at here
      exact not_lt.mp fun below => here ⟨writable, below⟩

include bounded in
theorem layout_returns (valid : Valid p) (small : entry < 2 ^ 32) (exclusive : ∀ l ∈ loads, Exclusive l) :
    layout p entry loads ≠ none := by
  have window := valid.window
  intro panics
  rw [layout] at panics
  obtain ⟨_, -, panics⟩ := bind_stops refuse_returns panics
  obtain ⟨_, -, panics⟩ := bind_stops (ordered_returns bounded) panics
  rw [entered_eq bounded small, bind_ok _ rfl] at panics
  obtain ⟨_, enters, panics⟩ := bind_stops refuse_returns panics
  rw [refuse_ok, not_or, not_not, Bool.not_eq_false, List.any_eq_true] at enters
  obtain ⟨-, l, member, enters⟩ := enters
  rw [entered, Bool.and_eq_true] at enters
  have readOnly : l.write = false := by
    rw [← Bool.not_eq_true]
    exact fun writable => exclusive l member ⟨writable, enters.1⟩
  rw [tops_eq bounded, bind_ok _ rfl, bind_none_iff] at panics
  rcases panics with empty | ⟨top, -, panics⟩
  · -- the load of the entry is read-only, so there is a greatest end
    rw [expect_none, List.max?_eq_none_iff, List.map_eq_nil_iff] at empty
    have inside : l ∈ loads.filter fun l => !l.write := List.mem_filter.mpr ⟨member, by rw [readOnly]; rfl⟩
    rw [empty] at inside
    cases inside
  · split at panics
    · exact throw_returns panics
    · rw [add_eq (by omega), bind_ok _ rfl] at panics
      obtain ⟨_, -, panics⟩ := bind_stops refuse_returns panics
      exact pure_returns panics
end

/-- The number of program headers, where they are, and the entry. -/
def phnum (bytes : List UInt8) : ℕ := leAt bytes 44 2
def phoff (bytes : List UInt8) : ℕ := leAt bytes 28 4
def entryOf (bytes : List UInt8) : ℕ := leAt bytes 24 4

/-- What is asked of a file before its program headers are read. -/
structure Elf (bytes : List UInt8) (p : Policy) : Prop where
  valid : Valid p
  most : bytes.length ≤ p.maxFile
  least : 52 ≤ bytes.length
  magic : bytes.take 7 = [0x7f, 0x45, 0x4c, 0x46, 1, 1, 1]
  kind : leAt bytes 16 2 = 2
  machine : leAt bytes 18 2 = 243
  version : leAt bytes 20 4 = 1
  flags : BitVec.ofNat 32 (leAt bytes 36 4) &&& ~~~1 = 0
  headerSize : leAt bytes 40 2 = 52
  rowSize : leAt bytes 42 2 = 32
  count : 1 ≤ phnum bytes ∧ phnum bytes ≤ 16
  rows : phoff bytes + phnum bytes * 32 ≤ bytes.length

section
variable {load : List UInt8 → Except String Object} {bytes : List UInt8} {p : Policy}

theorem Elf.short (elf : Elf bytes p) : bytes.length < 2 ^ 63 := by
  have most := elf.most
  have ceiling := elf.valid.maxFile
  have : ceilingMaxFile = 16777216 := by decide
  omega

/-- What is done with a file after its header. -/
def rest (load : List UInt8 → Except String Object) (bytes : List UInt8) (p : Policy) : Run RamImage := do
  let s ← scan bytes p (phoff bytes) (phnum bytes)
  let rwBase ← layout p (entryOf bytes) s.loads
  checkArch s.arch
  crossCheck load bytes s.loads
  pure ⟨entryOf bytes, BitVec.ofNat 32 (leAt bytes 36 4), s.arch, s.loads, rwBase⟩

private theorem u16_eq (fits : bytes.length < 2 ^ 64) (long : 52 ≤ bytes.length) {off : ℕ} (inside : off + 2 ≤ 52) :
    u16At bytes off = some (.ok (leAt bytes off 2)) := numberAt_eq fits (by omega)

private theorem u32_eq (fits : bytes.length < 2 ^ 64) (long : 52 ≤ bytes.length) {off : ℕ} (inside : off + 4 ≤ 52) :
    u32At bytes off = some (.ok (leAt bytes off 4)) := numberAt_eq fits (by omega)

/-- A file whose header is accepted goes on to its program headers. -/
theorem ramImage_eq (elf : Elf bytes p) : ramImage load bytes p = rest load bytes p := by
  obtain ⟨valid, most, least, magic, kind, machine, version, flags, headerSize, rowSize, count, rows⟩ := elf
  have fits := Elf.short ⟨valid, most, least, magic, kind, machine, version, flags, headerSize, rowSize, count, rows⟩
  have word (off : ℕ) := @u32_eq bytes (by omega) least off
  have half (off : ℕ) := @u16_eq bytes (by omega) least off
  have small : phoff bytes < 256 ^ 4 := leAt_lt ..
  rw [phoff, phnum] at rows
  rw [phnum] at count
  rw [phoff] at small
  rw [ramImage, bind_ok _ (check_ok_iff (u := ()).mpr valid), refuse_bind (by omega),
    bind_ok _ (slice_eq (by omega) (by omega)), refuse_bind (by rw [not_not]; exact magic),
    bind_ok _ (half 16 (by decide)), refuse_bind (by rw [not_not]; exact kind),
    bind_ok _ (half 18 (by decide)), refuse_bind (by rw [not_not]; exact machine),
    bind_ok _ (word 20 (by decide)), refuse_bind (by rw [not_not]; exact version),
    bind_ok _ (word 36 (by decide)), refuse_bind (by rw [not_not]; exact flags),
    bind_ok _ (half 40 (by decide)), refuse_bind (by rw [not_not]; exact headerSize),
    bind_ok _ (half 42 (by decide)), refuse_bind (by rw [not_not]; exact rowSize),
    bind_ok _ (word 24 (by decide)), bind_ok _ (word 28 (by decide)), bind_ok _ (half 44 (by decide)),
    refuse_bind (by rw [not_not]; exact count), bind_ok _ (mul_eq (by omega)), bind_ok _ (add_eq (by omega)),
    refuse_bind (by omega)]
  rfl

/-- A file that is not refused has an accepted header. -/
theorem elf_of_goes (goes : ∀ e, ramImage load bytes p ≠ some (.error e)) : Elf bytes p := by
  rw [ramImage] at goes
  have valid : Valid p := by
    cases checked : p.check with
    | none => exact absurd checked check_returns
    | some r =>
      cases r with
      | error e =>
        rw [checked] at goes
        exact absurd rfl (goes e)
      | ok u => exact check_ok_iff.mp checked
  rw [bind_ok _ (check_ok_iff (u := ()).mpr valid)] at goes
  obtain ⟨size, goes⟩ := refuse_goes goes
  rw [not_or, not_lt, not_lt] at size
  have ceiling := valid.maxFile
  have limit : ceilingMaxFile = 16777216 := by decide
  have word (off : ℕ) := @u32_eq bytes (by omega) size.2 off
  have half (off : ℕ) := @u16_eq bytes (by omega) size.2 off
  have small : leAt bytes 28 4 < 256 ^ 4 := leAt_lt ..
  rw [bind_ok _ (slice_eq (by omega) (by omega))] at goes
  obtain ⟨magic, goes⟩ := refuse_goes goes
  rw [bind_ok _ (half 16 (by decide))] at goes
  obtain ⟨kind, goes⟩ := refuse_goes goes
  rw [bind_ok _ (half 18 (by decide))] at goes
  obtain ⟨machine, goes⟩ := refuse_goes goes
  rw [bind_ok _ (word 20 (by decide))] at goes
  obtain ⟨version, goes⟩ := refuse_goes goes
  rw [bind_ok _ (word 36 (by decide))] at goes
  obtain ⟨flags, goes⟩ := refuse_goes goes
  rw [bind_ok _ (half 40 (by decide))] at goes
  obtain ⟨headerSize, goes⟩ := refuse_goes goes
  rw [bind_ok _ (half 42 (by decide))] at goes
  obtain ⟨rowSize, goes⟩ := refuse_goes goes
  rw [bind_ok _ (word 24 (by decide)), bind_ok _ (word 28 (by decide)), bind_ok _ (half 44 (by decide))] at goes
  obtain ⟨count, goes⟩ := refuse_goes goes
  rw [not_not] at count
  rw [bind_ok _ (mul_eq (by omega)), bind_ok _ (add_eq (by omega))] at goes
  obtain ⟨rows, -⟩ := refuse_goes goes
  exact ⟨valid, size.1, size.2, not_not.mp magic, not_not.mp kind, not_not.mp machine, not_not.mp version,
    not_not.mp flags, not_not.mp headerSize, not_not.mp rowSize, count, not_lt.mp rows⟩

theorem crossCheck_returns (loads : List Load) : crossCheck load bytes loads ≠ none := by
  rw [crossCheck]
  cases load bytes with
  | error why => exact throw_returns
  | ok obj =>
    intro panics
    dsimp only at panics
    obtain ⟨_, -, panics⟩ := bind_stops refuse_returns panics
    obtain ⟨_, -, panics⟩ := bind_stops refuse_returns panics
    refine Fallible.forM_returns ?_ panics
    intro l _ panics
    obtain ⟨_, -, panics⟩ := bind_stops orElse_returns panics
    exact refuse_returns panics

theorem checkArch_returns (arch : Option String) : checkArch arch ≠ none := by
  cases arch with
  | none => exact pure_returns
  | some a => exact refuse_returns

/-- The loads of headers that are accepted are not both writable and executable. -/
private theorem exclusive_of {phoff n : ℕ} {s : Scan} (scanned : Scanned bytes p phoff n s) :
    ∀ l ∈ s.loads, Exclusive l := by
  intro l member
  rw [scanned.loads] at member
  obtain ⟨i, index, rfl⟩ := List.mem_map.mp member
  have exclusive := (scanned.loadable i index).2.exclusive
  simpa [Exclusive, Load.write, Load.exec, Phdr.load] using exclusive

/-- The attributes of the file overrun their list, and the headers before them
    are accepted. -/
def AttributesOverrun (bytes : List UInt8) (p : Policy) : Prop :=
  Elf bytes p ∧ ∃ i < phnum bytes, Overrun bytes p (phoff bytes) i

/-- The exporter returns unless the attributes of the file overrun their list. -/
theorem ramImage_returns_iff (load : List UInt8 → Except String Object) (bytes : List UInt8) (p : Policy) :
    (∃ r, ramImage load bytes p = some r) ↔ ¬AttributesOverrun bytes p := by
  rw [← Option.isSome_iff_exists, ← Option.ne_none_iff_isSome, ne_eq, not_iff_not]
  constructor
  · intro panics
    have elf : Elf bytes p := elf_of_goes (by rw [panics]; exact nofun)
    have fits := elf.short
    rw [ramImage_eq elf, rest, bind_none_iff, scan_none_iff elf.valid fits elf.rows] at panics
    rcases panics with overrun | ⟨s, scanned, panics⟩
    · exact ⟨elf, overrun⟩
    · have read := scan_ok elf.valid fits elf.rows scanned
      have bounded : ∀ l ∈ s.loads, Bounded l := by
        rw [read.loads]
        exact fun l => load_bounded
      have small : entryOf bytes < 2 ^ 32 := leAt_lt ..
      obtain ⟨_, -, panics⟩ := bind_stops (layout_returns bounded elf.valid small (exclusive_of read)) panics
      obtain ⟨_, -, panics⟩ := bind_stops (checkArch_returns _) panics
      obtain ⟨_, -, panics⟩ := bind_stops (crossCheck_returns _) panics
      exact absurd panics pure_returns
  · rintro ⟨elf, overrun⟩
    rw [ramImage_eq elf, rest, bind_none_iff]
    exact .inl ((scan_none_iff elf.valid elf.short elf.rows).mpr overrun)

def board : Policy := ⟨2147483648, 4096, 1 <<< 20, 512 <<< 10⟩

def elfHeader (count : UInt8) : List UInt8 :=
  [0x7f, 0x45, 0x4c, 0x46, 1, 1, 1, 0, 0, 0, 0, 0, 0, 0, 0, 0, 2, 0, 243, 0, 1, 0, 0, 0, 0, 0, 0, 0x80, 52, 0, 0, 0, 0, 0, 0,
    0, 0, 0, 0, 0, 52, 0, 32, 0, count, 0, 0, 0, 0, 0, 0, 0]

/-- A file whose attributes end in the middle of a tag. -/
def overrunning : List UInt8 :=
  elfHeader 1 ++ [3, 0, 0, 0x70, 84, 0, 0, 0, 0, 0, 0, 0, 0, 0, 0, 0, 18, 0, 0, 0, 0, 0, 0, 0, 0, 0, 0, 0, 0, 0, 0, 0] ++
    [0x41, 17, 0, 0, 0, 0x72, 0x69, 0x73, 0x63, 0x76, 0, 1, 6, 0, 0, 0, 0x81, 0]

/-- The string after a tag that runs past its list is sliced backwards. -/
theorem ramImage_panics : ¬∀ (load : List UInt8 → Except String Object) (bytes : List UInt8) (p : Policy),
    ∃ r, ramImage load bytes p = some r := by
  intro every
  obtain ⟨r, ran⟩ := every (fun _ => .error "") overrunning board
  have panics : (ramImage (fun _ => .error "") overrunning board).isNone = true := by decide
  rw [ran] at panics
  cases panics

/-- The initial RAM of an image is determined by the file and the policy. -/
structure Determined (bytes : List UInt8) (p : Policy) (img : RamImage) : Prop where
  loads : img.loads = loadsOf bytes (phoff bytes) (phnum bytes)
  inWindow : ∀ l ∈ img.loads, p.ramBase ≤ l.vaddr ∧ l.vaddr + l.memsz ≤ p.ramBase + p.ramSize
  apart : img.loads.Pairwise Apart
  exclusive : ∀ l ∈ img.loads, ¬(l.write = true ∧ l.exec = true)
  content : ∀ l ∈ img.loads, l.offset + l.filesz ≤ bytes.length ∧ l.filesz ≤ l.memsz ∧
    l.bytes = (bytes.drop l.offset).take l.filesz
  entry : img.entry = entryOf bytes ∧
    ∃ l ∈ img.loads, l.exec = true ∧ l.vaddr ≤ img.entry ∧ img.entry + 2 ≤ l.vaddr + l.filesz
  readOnly : ∀ l ∈ img.loads, l.write = false → l.vaddr + l.memsz ≤ img.rwBase
  writable : ∀ l ∈ img.loads, l.write = true → img.rwBase ≤ l.vaddr
  room : img.rwBase < p.ramBase + p.ramSize
  anyOrder : ∀ order : List Load, order.Perm img.loads → ∀ ram, order.foldl place ram = img.loads.foldl place ram
  filled : ∀ l ∈ img.loads, ∀ ram x, Covers l x → img.loads.foldl place ram x =
    if x < l.vaddr + l.filesz then bytes.getD (l.offset + (x - l.vaddr)) 0 else 0

/-- Loads in order have no address in common. -/
private theorem apart_of_ascending {loads : List Load}
    (ascending : loads.Pairwise fun a b => a.vaddr + a.memsz ≤ b.vaddr) : loads.Pairwise Apart := by
  apply ascending.imp
  rintro a b before x ⟨⟨-, low⟩, high, -⟩
  omega

theorem ramImage_determined {load : List UInt8 → Except String Object} {img : RamImage}
    (ran : ramImage load bytes p = some (.ok img)) : Determined bytes p img := by
  have elf : Elf bytes p := elf_of_goes (by rw [ran]; exact nofun)
  have fits := elf.short
  rw [ramImage_eq elf, rest, bind_some_ok_iff] at ran
  obtain ⟨s, scanned, ran⟩ := ran
  have read := scan_ok elf.valid fits elf.rows scanned
  have bounded : ∀ l ∈ s.loads, Bounded l := by
    rw [read.loads]
    exact fun l => load_bounded
  rw [bind_some_ok_iff] at ran
  obtain ⟨rwBase, laid, ran⟩ := ran
  have layout := layout_ok bounded elf.valid (leAt_lt ..) laid
  rw [bind_some_ok_iff] at ran
  obtain ⟨_, -, ran⟩ := ran
  rw [bind_some_ok_iff] at ran
  obtain ⟨_, -, ran⟩ := ran
  rw [pure_ok] at ran
  subst ran
  have apart := apart_of_ascending layout.ascending
  have loadable (l : Load) (member : l ∈ s.loads) : ∃ i, (phdr bytes (phoff bytes) i).Fits bytes ∧
      Loadable p (phdr bytes (phoff bytes) i) ∧ l = (phdr bytes (phoff bytes) i).load bytes i := by
    rw [read.loads] at member
    obtain ⟨i, index, rfl⟩ := List.mem_map.mp member
    exact ⟨i, (read.loadable i index).1, (read.loadable i index).2, rfl⟩
  have content (l : Load) (member : l ∈ s.loads) : l.offset + l.filesz ≤ bytes.length ∧ l.filesz ≤ l.memsz ∧
      l.bytes = (bytes.drop l.offset).take l.filesz := by
    obtain ⟨i, here, accepted, rfl⟩ := loadable l member
    exact ⟨here, accepted.file, rfl⟩
  refine ⟨read.loads, ?_, apart, exclusive_of read, content, ⟨rfl, layout.enters⟩, layout.readOnly, layout.writable,
    layout.room, fun order perm ram => placed_perm apart perm ram, ?_⟩
  · intro l member
    obtain ⟨i, -, accepted, rfl⟩ := loadable l member
    exact ⟨accepted.low, accepted.high⟩
  · intro l member ram x inside
    obtain ⟨inFile, -, data⟩ := content l member
    rw [placed_inside apart member inside, data, List.getD_eq_getElem?_getD]
    have low := inside.1
    by_cases file : x < l.vaddr + l.filesz
    · rw [if_pos file, List.getElem?_take_of_lt (by omega), List.getElem?_drop, List.getD_eq_getElem?_getD]
    · rw [if_neg file, List.getElem?_eq_none (by rw [List.length_take]; omega)]
      rfl
end

/-- Two bytes of code, and a word of zeros above them. -/
def twoLoads : List UInt8 :=
  elfHeader 2 ++ [1, 0, 0, 0, 116, 0, 0, 0, 0, 0, 0, 0x80, 0, 0, 0, 0x80, 2, 0, 0, 0, 2, 0, 0, 0, 5, 0, 0, 0, 1, 0, 0, 0] ++
    [1, 0, 0, 0, 116, 0, 0, 0, 0, 1, 0, 0x80, 0, 1, 0, 0x80, 0, 0, 0, 0, 4, 0, 0, 0, 6, 0, 0, 0, 4, 0, 0, 0] ++ [1, 0]

/-- The second reader's view of it. -/
def twoLoadsObject : Object where
  bits := .bits32
  endian := .little
  arch := .sleigh "RISCV:LE:32:default"
  pic := false
  imports := []
  sectionKinds := []
  read := fun addr len => if addr = 2147483648 ∧ len = 2 then some [1, 0] else none
  isExecutable := fun addr => decide (addr = 2147483648)

theorem ramImage_determined_two : ∃ img, ramImage (fun _ => .ok twoLoadsObject) twoLoads board = some (.ok img) ∧
    img.loads.length = 2 ∧ img.rwBase = 2147483650 ∧ Determined twoLoads board img := by
  have result : ((ramImage (fun _ => .ok twoLoadsObject) twoLoads board).run.bind Except.toOption).map
      (fun img => (img.loads.length, img.rwBase)) = some (2, 2147483650) := by decide +kernel
  obtain ⟨img, found, is⟩ := Option.map_eq_some_iff.mp result
  obtain ⟨answer, ran, ok⟩ := Option.bind_eq_some_iff.mp found
  obtain ⟨count, rwBase⟩ := Prod.mk.inj is
  cases answer with
  | error => cases ok
  | ok =>
    cases ok
    exact ⟨img, ran, count, rwBase, ramImage_determined ran⟩

end E5r.RamCorrect
