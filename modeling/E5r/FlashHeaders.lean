import E5r.FlashModel
import E5r.RamHeaders

/-!
What the program headers of a firmware file are, which of them the pass over
them accepts, and the header whose window it overflows.
-/
namespace E5r.FlashHeaders
open FlashModel
open Checked
open RamModel (ptNull ptLoad ptGnuStack ptRiscvAttributes)
open RamHeaders (leAt leAt_lt)
open Fallible (bind_some_ok_iff bind_none_iff bind_stops bind_ok)

section
variable {b : List UInt8} {off size addr len base n : ℕ}

theorem numberAt_ok_iff (fits : off + size < 2 ^ 64) :
    numberAt size b off = some (.ok n) ↔ off + size ≤ b.length ∧ leAt b off size = n := by
  rw [numberAt, add_eq fits, bind_ok _ rfl, bind_some_ok_iff]
  simp only [orElse_ok, pure_ok]
  by_cases inside : off + size ≤ b.length
  · rw [get_inside (Nat.le_add_right off size) inside, Nat.add_sub_cancel_left]
    simp only [Option.some.injEq, exists_eq_left', inside, true_and]
    exact Iff.rfl
  · rw [get_outside (not_le.mp inside)]
    simp [inside]

theorem numberAt_returns (fits : off + size < 2 ^ 64) : numberAt size b off ≠ none := by
  rw [numberAt, add_eq fits, bind_ok _ rfl, ne_eq, bind_none_iff]
  simp

/-- A comparison with a window overflows at the end of the window. -/
def Overflows (addr base size : ℕ) : Prop := base ≤ addr ∧ 2 ^ 64 ≤ base + size

/-- A range lies in a window. -/
def Inside (addr len base size : ℕ) : Prop := base ≤ addr ∧ addr + len ≤ base + size

instance : Decidable (Overflows addr base size) := inferInstanceAs (Decidable (_ ∧ _))
instance : Decidable (Inside addr len base size) := inferInstanceAs (Decidable (_ ∧ _))

theorem within_eq (fits : addr + len < 2 ^ 64) : within addr len base size =
    if Overflows addr base size then none else some (.ok (decide (Inside addr len base size))) := by
  rw [within]
  by_cases low : base ≤ addr
  · rw [if_pos low, checkedAdd_eq fits]
    dsimp only
    by_cases large : 2 ^ 64 ≤ base + size
    · rw [add_none large, if_pos ⟨low, large⟩]
      rfl
    · rw [add_eq (by omega), if_neg fun overflows => large overflows.2, bind_ok _ rfl]
      simp only [Inside, low, true_and]
      rfl
  · rw [if_neg low, if_neg fun overflows => low overflows.1, decide_eq_false fun inside => low inside.1]
    rfl

theorem within_ok_iff (fits : addr + len < 2 ^ 64) {r : Bool} : within addr len base size = some (.ok r) ↔
    ¬Overflows addr base size ∧ decide (Inside addr len base size) = r := by
  rw [within_eq fits]
  by_cases overflows : Overflows addr base size
  · simp [overflows]
  · rw [if_neg overflows]
    constructor
    · rintro ⟨⟩
      exact ⟨overflows, rfl⟩
    · rintro ⟨-, rfl⟩
      rfl

theorem within_none_iff (fits : addr + len < 2 ^ 64) :
    within addr len base size = none ↔ Overflows addr base size := by
  rw [within_eq fits]
  by_cases overflows : Overflows addr base size
  · simp [overflows]
  · simp [overflows]
end

def headerAt (bytes : List UInt8) (phoff i : ℕ) : Header :=
  let word (n : ℕ) := leAt bytes (phoff + i * 32 + n) 4
  ⟨word 0, word 4, word 8, word 12, word 16, word 20, word 24⟩

/-- The fields of a header are 32-bit numbers. -/
structure Small (h : Header) : Prop where
  file : h.file < 2 ^ 32
  vaddr : h.vaddr < 2 ^ 32
  paddr : h.paddr < 2 ^ 32
  filesz : h.filesz < 2 ^ 32
  memsz : h.memsz < 2 ^ 32

theorem headerAt_small (bytes : List UInt8) (phoff i : ℕ) : Small (headerAt bytes phoff i) :=
  ⟨leAt_lt .., leAt_lt .., leAt_lt .., leAt_lt .., leAt_lt ..⟩

/-- The file has the fields of a header. -/
def Row (bytes : List UInt8) (phoff i : ℕ) : Prop := phoff + i * 32 + 28 ≤ bytes.length

section
variable {bytes : List UInt8} {phoff i : ℕ} {h : Header} (low : phoff < 2 ^ 32) (few : i < 16)

include low few in
theorem readHeader_ok_iff :
    readHeader bytes phoff i = some (.ok h) ↔ Row bytes phoff i ∧ headerAt bytes phoff i = h := by
  rw [readHeader, mul_eq (by omega), bind_ok _ rfl, checkedAdd_eq (by omega), bind_ok _ (orElse_ok.mpr rfl)]
  have word {off n m : ℕ} (fits : off < 2 ^ 33) (row : n ≤ 24) :
      field bytes off n = some (.ok m) ↔ off + n + 4 ≤ bytes.length ∧ leAt bytes (off + n) 4 = m := by
    rw [field, add_eq (by omega), bind_ok _ rfl]
    exact numberAt_ok_iff (by omega)
  have fits : phoff + i * 32 < 2 ^ 33 := by omega
  simp (disch := decide) only [bind_some_ok_iff, pure_ok, word fits]
  constructor
  · rintro ⟨_, ⟨-, rfl⟩, _, ⟨-, rfl⟩, _, ⟨-, rfl⟩, _, ⟨-, rfl⟩, _, ⟨-, rfl⟩, _, ⟨-, rfl⟩, _, ⟨row, rfl⟩, rfl⟩
    exact ⟨row, rfl⟩
  · rintro ⟨row, rfl⟩
    rw [Row] at row
    exact ⟨_, ⟨by omega, rfl⟩, _, ⟨by omega, rfl⟩, _, ⟨by omega, rfl⟩, _, ⟨by omega, rfl⟩, _, ⟨by omega, rfl⟩,
      _, ⟨by omega, rfl⟩, _, ⟨by omega, rfl⟩, rfl⟩

include low few in
theorem readHeader_returns : readHeader bytes phoff i ≠ none := by
  rw [readHeader, mul_eq (by omega), bind_ok _ rfl, checkedAdd_eq (by omega), bind_ok _ (orElse_ok.mpr rfl)]
  have word {off n : ℕ} (fits : off < 2 ^ 33) (row : n ≤ 24) : field bytes off n ≠ none := by
    rw [field, add_eq (by omega), bind_ok _ rfl]
    exact numberAt_returns (by omega)
  have fits : phoff + i * 32 < 2 ^ 33 := by omega
  simp (disch := decide) only [ne_eq, bind_none_iff, word fits, pure_returns, false_or, and_false, exists_false,
    not_false_eq_true]
end

def Skipped (h : Header) : Prop := h.kind = ptNull ∨ h.kind = ptGnuStack ∨ h.kind = ptRiscvAttributes

/-- What is asked of every `PT_LOAD`. -/
structure Shaped (h : Header) : Prop where
  kind : h.kind = ptLoad
  flags : h.pflags ≤ 7
  sizes : h.filesz ≤ h.memsz
  some : 0 < h.memsz
  exclusive : ¬(h.exec = true ∧ h.write = true)

/-- Where a `PT_LOAD` with file bytes runs. -/
def Runs (w : Windows) (h : Header) : Prop :=
  if h.write then ¬Overflows h.vaddr w.ramBase w.ramSize ∧ Inside h.vaddr h.memsz w.ramBase w.ramSize
  else h.vaddr = h.paddr ∧ h.filesz = h.memsz

/-- A `PT_LOAD` whose file bytes are stored in flash. -/
structure Stored (bytes : List UInt8) (w : Windows) (h : Header) : Prop extends Shaped h where
  content : 0 < h.filesz
  inFile : h.file + h.filesz ≤ bytes.length
  bounded : ¬Overflows h.paddr w.flashBase w.flashSize
  inFlash : Inside h.paddr h.filesz w.flashBase w.flashSize
  runs : Runs w h

/-- A `PT_LOAD` without file bytes. -/
structure Reserved (w : Windows) (h : Header) : Prop extends Shaped h where
  empty : h.filesz = 0
  write : h.write = true
  bounded : ¬Overflows h.vaddr w.ramBase w.ramSize
  inRam : Inside h.vaddr h.memsz w.ramBase w.ramSize

/-- A header that passes its own checks. -/
def Acceptable (bytes : List UInt8) (w : Windows) (h : Header) : Prop :=
  Skipped h ∨ Reserved w h ∨ Stored bytes w h

/-- A header is compared with a window whose end is not a 64-bit number. -/
def ComparedPastEnd (bytes : List UInt8) (w : Windows) (h : Header) : Prop :=
  Shaped h ∧
    (h.filesz = 0 ∧ h.write = true ∧ Overflows h.vaddr w.ramBase w.ramSize ∨
      0 < h.filesz ∧ h.file + h.filesz ≤ bytes.length ∧
        (Overflows h.paddr w.flashBase w.flashSize ∨
          Inside h.paddr h.filesz w.flashBase w.flashSize ∧ h.write = true ∧ Overflows h.vaddr w.ramBase w.ramSize))

def segmentOf (bytes : List UInt8) (h : Header) : FlashSegment :=
  ⟨h.paddr, (bytes.drop h.file).take h.filesz, h.exec, h.file, h.vaddr == h.paddr⟩

/-- What an accepted header adds to what is read so far. -/
def extend (bytes : List UInt8) (h : Header) (s : Scan) : Scan :=
  if h.kind = ptLoad ∧ 0 < h.filesz then ⟨s.segments ++ [segmentOf bytes h], s.total + h.filesz⟩ else s

section
variable {bytes : List UInt8} {w : Windows} {i : ℕ} {h : Header} {s s' : Scan} (small : Small h)

include small in
theorem runAddress_ok_iff {u : Unit} : runAddress w i h = some (.ok u) ↔ Runs w h := by
  have vaddr := small.vaddr
  have memsz := small.memsz
  rw [runAddress, Runs]
  split
  · rw [bind_some_ok_iff]
    simp only [within_ok_iff (show h.vaddr + h.memsz < 2 ^ 64 by omega), refuse_ok]
    simp
  · rw [refuse_ok]
    simp

include small in
theorem runAddress_none_iff :
    runAddress w i h = none ↔ h.write = true ∧ Overflows h.vaddr w.ramBase w.ramSize := by
  have vaddr := small.vaddr
  have memsz := small.memsz
  rw [runAddress]
  split
  · next write =>
    rw [bind_none_iff, within_none_iff (by omega)]
    simp [write]
  · next readOnly => simp [readOnly]

include small in
/-- A `PT_LOAD` with file bytes is stored when it passes its checks. -/
theorem store_ok_iff (shaped : Shaped h) (content : 0 < h.filesz) (room : s.total ≤ maxFlash) :
    store bytes w i h s = some (.ok s') ↔ Stored bytes w h ∧ s.total + h.filesz ≤ maxFlash ∧
      ⟨s.segments ++ [segmentOf bytes h], s.total + h.filesz⟩ = s' := by
  have limit : maxFlash = 262144 := by decide
  have file := small.file
  have paddr := small.paddr
  have filesz := small.filesz
  rw [store, checkedAdd_eq (by omega)]
  simp only [bind_some_ok_iff, refuse_ok, Option.any_some, within_ok_iff (show h.paddr + h.filesz < 2 ^ 64 by omega),
    runAddress_ok_iff small, add_eq (show s.total + h.filesz < 2 ^ 64 by omega),
    add_eq (show h.file + h.filesz < 2 ^ 64 by omega), pure_ok]
  constructor
  · rintro ⟨-, inFile, _, ⟨bounded, rfl⟩, -, inFlash, -, runs, _, same, -, budget, _, same', data, cut, rfl⟩
    cases same
    cases same'
    rw [decide_eq_false_iff_not, not_not] at inFile inFlash
    rw [slice_eq (Nat.le_add_right _ _) inFile, Nat.add_sub_cancel_left] at cut
    cases cut
    exact ⟨⟨shaped, content, inFile, bounded, inFlash, runs⟩, not_lt.mp budget, rfl⟩
  · rintro ⟨⟨-, -, inFile, bounded, inFlash, runs⟩, budget, rfl⟩
    refine ⟨(), ?_, _, ⟨bounded, rfl⟩, (), ?_, (), runs, _, rfl, (), not_lt.mpr budget, _, rfl, _,
      slice_eq (Nat.le_add_right _ _) inFile, ?_⟩
    · rw [decide_eq_false_iff_not, not_not]
      exact inFile
    · rw [decide_eq_false_iff_not, not_not]
      exact inFlash
    · rw [Nat.add_sub_cancel_left]
      rfl

include small in
theorem store_none_iff (room : s.total ≤ maxFlash) :
    store bytes w i h s = none ↔ h.file + h.filesz ≤ bytes.length ∧
      (Overflows h.paddr w.flashBase w.flashSize ∨
        Inside h.paddr h.filesz w.flashBase w.flashSize ∧ h.write = true ∧ Overflows h.vaddr w.ramBase w.ramSize) := by
  have limit : maxFlash = 262144 := by decide
  have file := small.file
  have paddr := small.paddr
  have filesz := small.filesz
  rw [store, checkedAdd_eq (by omega), bind_none_iff, or_iff_right refuse_returns]
  simp only [refuse_ok, Option.any_some, decide_eq_false_iff_not, not_not]
  constructor
  · rintro ⟨-, inFile, panics⟩
    refine ⟨inFile, ?_⟩
    rw [bind_none_iff, within_none_iff (by omega)] at panics
    rcases panics with overflows | ⟨_, compared, panics⟩
    · exact .inl overflows
    · obtain ⟨-, rfl⟩ := (within_ok_iff (by omega)).mp compared
      obtain ⟨_, inFlash, panics⟩ := bind_stops refuse_returns panics
      rw [refuse_ok, decide_eq_false_iff_not, not_not] at inFlash
      rw [bind_none_iff, runAddress_none_iff small] at panics
      rcases panics with overflows | ⟨-, -, panics⟩
      · exact .inr ⟨inFlash, overflows⟩
      · rw [add_eq (by omega), bind_ok _ rfl] at panics
        obtain ⟨-, -, panics⟩ := bind_stops refuse_returns panics
        rw [add_eq (by omega), bind_ok _ rfl, slice_eq (Nat.le_add_right _ _) inFile, bind_ok _ rfl] at panics
        exact absurd panics pure_returns
  · rintro ⟨inFile, overflows⟩
    refine ⟨(), inFile, ?_⟩
    rw [bind_none_iff, within_none_iff (by omega)]
    by_cases flash : Overflows h.paddr w.flashBase w.flashSize
    · exact .inl flash
    · obtain ⟨inFlash, ram⟩ := overflows.resolve_left flash
      refine .inr ⟨_, (within_ok_iff (by omega)).mpr ⟨flash, rfl⟩, ?_⟩
      rw [refuse_bind (by rw [decide_eq_false_iff_not, not_not]; exact inFlash), bind_none_iff,
        runAddress_none_iff small]
      exact .inl ram

include small in
theorem writableRam_ok_iff : writableRam w h = some (.ok true) ↔ h.write = true ∧
    ¬Overflows h.vaddr w.ramBase w.ramSize ∧ Inside h.vaddr h.memsz w.ramBase w.ramSize := by
  have vaddr := small.vaddr
  have memsz := small.memsz
  rw [writableRam]
  split
  · next write =>
    rw [within_ok_iff (by omega), decide_eq_true_eq]
    simp [write]
  · next readOnly => simp [readOnly]

include small in
theorem writableRam_none_iff :
    writableRam w h = none ↔ h.write = true ∧ Overflows h.vaddr w.ramBase w.ramSize := by
  have vaddr := small.vaddr
  have memsz := small.memsz
  rw [writableRam]
  split
  · next write =>
    rw [within_none_iff (by omega)]
    simp [write]
  · next readOnly => simp [readOnly]

private theorem shaped_passes (shaped : Shaped h) : ¬(7 < h.pflags ∨ h.memsz < h.filesz ∨ h.memsz = 0) := by
  have flags := shaped.flags
  have sizes := shaped.sizes
  have some := shaped.some
  omega

private theorem kinds : ptNull ≠ ptLoad ∧ ptGnuStack ≠ ptLoad ∧ ptRiscvAttributes ≠ ptLoad := by decide

theorem not_load (skipped : Skipped h) : h.kind ≠ ptLoad := by
  obtain ⟨null, stack, attributes⟩ := kinds
  rcases skipped with kind | kind | kind
  · rw [kind]
    exact null
  · rw [kind]
    exact stack
  · rw [kind]
    exact attributes

include small in
theorem segment_ok_iff (room : s.total ≤ maxFlash) : segment bytes w i h s = some (.ok s') ↔
    Acceptable bytes w h ∧ (extend bytes h s).total ≤ maxFlash ∧ extend bytes h s = s' := by
  have vaddr := small.vaddr
  have memsz := small.memsz
  rw [FlashModel.segment]
  by_cases skipped : Skipped h
  · have other := not_load skipped
    rw [Skipped] at skipped
    rw [if_pos skipped, pure_ok, extend, if_neg fun load => other load.1]
    exact ⟨fun same => ⟨.inl skipped, room, same⟩, fun parts => parts.2.2⟩
  rw [if_neg (by rw [Skipped] at skipped; exact skipped)]
  by_cases kind : h.kind = ptLoad
  · rw [if_pos kind, bind_some_ok_iff]
    simp only [refuse_ok]
    constructor
    · rintro ⟨-, shape, ran⟩
      rw [bind_some_ok_iff] at ran
      obtain ⟨_, exclusive, ran⟩ := ran
      rw [refuse_ok] at exclusive
      rw [not_or, not_or, not_lt, not_lt] at shape
      have shaped : Shaped h := ⟨kind, shape.1, shape.2.1, Nat.pos_of_ne_zero shape.2.2, exclusive⟩
      split at ran
      · next empty =>
        rw [bind_some_ok_iff] at ran
        obtain ⟨_, compared, ran⟩ := ran
        rw [bind_some_ok_iff] at ran
        obtain ⟨_, inRam, same⟩ := ran
        rw [refuse_ok, Bool.not_eq_false] at inRam
        subst inRam
        obtain ⟨write, bounded, inRam⟩ := (writableRam_ok_iff small).mp compared
        rw [extend, if_neg fun load => absurd load.2 (by omega)]
        exact ⟨.inr (.inl ⟨shaped, empty, write, bounded, inRam⟩), room, pure_ok.mp same⟩
      · next content =>
        obtain ⟨stored, budget, same⟩ := (store_ok_iff small shaped (by omega) room).mp ran
        rw [extend, if_pos ⟨kind, stored.content⟩]
        exact ⟨.inr (.inr stored), budget, same⟩
    · rintro ⟨acceptable, budget, rfl⟩
      rcases acceptable with skip | reserved | stored
      · exact absurd skip skipped
      · have shaped := reserved.toShaped
        refine ⟨(), shaped_passes shaped, ?_⟩
        rw [refuse_bind shaped.exclusive, if_pos reserved.empty,
          bind_ok _ ((writableRam_ok_iff small).mpr ⟨reserved.write, reserved.bounded, reserved.inRam⟩),
          refuse_bind (by decide), extend, if_neg fun load => absurd load.2 (by rw [reserved.empty]; decide)]
        rfl
      · have shaped := stored.toShaped
        have content := stored.content
        have grown : extend bytes h s = ⟨s.segments ++ [segmentOf bytes h], s.total + h.filesz⟩ :=
          if_pos ⟨kind, content⟩
        rw [grown] at budget ⊢
        refine ⟨(), shaped_passes shaped, ?_⟩
        rw [refuse_bind shaped.exclusive, if_neg (by omega)]
        exact (store_ok_iff small shaped content room).mpr ⟨stored, budget, rfl⟩
  · rw [if_neg kind, throw_ok, false_iff]
    rintro ⟨acceptable, -⟩
    rcases acceptable with skip | reserved | stored
    · exact skipped skip
    · exact kind reserved.kind
    · exact kind stored.kind

include small in
/-- A header panics exactly at a comparison past the end of the address space. -/
theorem segment_none_iff (room : s.total ≤ maxFlash) : segment bytes w i h s = none ↔ ComparedPastEnd bytes w h := by
  rw [FlashModel.segment]
  by_cases skipped : Skipped h
  · have other := not_load skipped
    rw [Skipped] at skipped
    rw [if_pos skipped]
    exact ⟨fun panics => absurd panics pure_returns, fun compared => absurd compared.1.kind other⟩
  rw [if_neg (by rw [Skipped] at skipped; exact skipped)]
  by_cases kind : h.kind = ptLoad
  · rw [if_pos kind, bind_none_iff, or_iff_right refuse_returns]
    constructor
    · rintro ⟨_, shape, panics⟩
      rw [refuse_ok, not_or, not_or, not_lt, not_lt] at shape
      obtain ⟨_, exclusive, panics⟩ := bind_stops refuse_returns panics
      rw [refuse_ok] at exclusive
      refine ⟨⟨kind, shape.1, shape.2.1, Nat.pos_of_ne_zero shape.2.2, exclusive⟩, ?_⟩
      split at panics
      · next empty =>
        rw [bind_none_iff, writableRam_none_iff small] at panics
        rcases panics with overflows | ⟨_, -, panics⟩
        · exact .inl ⟨empty, overflows⟩
        · obtain ⟨_, -, panics⟩ := bind_stops refuse_returns panics
          exact absurd panics pure_returns
      · next content =>
        exact .inr ⟨Nat.pos_of_ne_zero content, (store_none_iff small room).mp panics⟩
    · rintro ⟨shaped, compared⟩
      refine ⟨(), refuse_ok.mpr (shaped_passes shaped), ?_⟩
      rw [refuse_bind shaped.exclusive]
      rcases compared with ⟨empty, overflows⟩ | ⟨content, compared⟩
      · rw [if_pos empty, bind_none_iff]
        exact .inl ((writableRam_none_iff small).mpr overflows)
      · rw [if_neg (by omega)]
        exact (store_none_iff small room).mpr compared
  · rw [if_neg kind]
    exact ⟨fun panics => absurd panics throw_returns, fun compared => absurd compared.1.kind kind⟩
end

section
variable (bytes : List UInt8) (w : Windows) (phoff : ℕ)

/-- The numbers of the `PT_LOAD` headers with file bytes among the first `n`. -/
def storedIndices (n : ℕ) : List ℕ :=
  (List.range n).filter fun i => (headerAt bytes phoff i).kind = ptLoad ∧ 0 < (headerAt bytes phoff i).filesz

/-- What the first `n` headers store. -/
def segmentsOf (n : ℕ) : List FlashSegment :=
  (storedIndices bytes phoff n).map fun i => segmentOf bytes (headerAt bytes phoff i)

/-- The file bytes that the first `n` headers store. -/
def totalOf (n : ℕ) : ℕ := ((storedIndices bytes phoff n).map fun i => (headerAt bytes phoff i).filesz).sum

/-- A header that is accepted after those before it. -/
structure Passes (i : ℕ) : Prop where
  row : Row bytes phoff i
  acceptable : Acceptable bytes w (headerAt bytes phoff i)
  budget : totalOf bytes phoff (i + 1) ≤ maxFlash

/-- The headers before one are accepted, and it is compared with a window whose
    end is not a 64-bit number. -/
def PastEnd (i : ℕ) : Prop :=
  (∀ j < i, Passes bytes w phoff j) ∧ Row bytes phoff i ∧ ComparedPastEnd bytes w (headerAt bytes phoff i)

/-- The pass over the first `n` headers. -/
def scan (n : ℕ) : Run Scan := (List.range n).foldlM (header bytes w phoff) ⟨[], 0⟩
end

section
variable {bytes : List UInt8} {w : Windows} {phoff n : ℕ} {s : Scan}

private theorem scanned_succ : extend bytes (headerAt bytes phoff n) ⟨segmentsOf bytes phoff n, totalOf bytes phoff n⟩ =
    ⟨segmentsOf bytes phoff (n + 1), totalOf bytes phoff (n + 1)⟩ := by
  have indices : storedIndices bytes phoff (n + 1) = storedIndices bytes phoff n ++
      if (headerAt bytes phoff n).kind = ptLoad ∧ 0 < (headerAt bytes phoff n).filesz then [n] else [] := by
    rw [storedIndices, List.range_succ, List.filter_append, ← storedIndices, List.filter_singleton, Bool.cond_decide]
  rw [segmentsOf, segmentsOf, totalOf, totalOf, indices, extend]
  split
  · next stored => simp
  · next other => simp

private theorem scan_succ :
    scan bytes w phoff (n + 1) = scan bytes w phoff n >>= fun s => header bytes w phoff s n := by
  rw [scan, List.range_succ, List.foldlM_append]
  apply bind_congr
  intro s
  exact bind_pure _

theorem room (pass : ∀ i < n, Passes bytes w phoff i) : totalOf bytes phoff n ≤ maxFlash := by
  cases n with
  | zero => exact Nat.zero_le maxFlash
  | succ n => exact (pass n (Nat.lt_succ_self n)).budget

variable (low : phoff < 2 ^ 32)

include low in
/-- The pass collects what the headers store when it accepts them all. -/
theorem scan_ok_iff (few : n ≤ 16) : scan bytes w phoff n = some (.ok s) ↔
    (∀ i < n, Passes bytes w phoff i) ∧ ⟨segmentsOf bytes phoff n, totalOf bytes phoff n⟩ = s := by
  induction n generalizing s with
  | zero =>
    constructor
    · rintro ⟨⟩
      exact ⟨fun i bound => absurd bound (Nat.not_lt_zero i), rfl⟩
    · rintro ⟨-, rfl⟩
      rfl
  | succ n ih =>
    have small := headerAt_small bytes phoff n
    simp only [scan_succ, bind_some_ok_iff, ih (by omega), header, readHeader_ok_iff low (show n < 16 by omega)]
    constructor
    · rintro ⟨_, ⟨pass, rfl⟩, _, ⟨row, rfl⟩, ran⟩
      obtain ⟨acceptable, budget, same⟩ := (segment_ok_iff small (room pass)).mp ran
      rw [scanned_succ] at budget same
      refine ⟨?_, same⟩
      intro i bound
      by_cases last : i = n
      · rw [last]
        exact ⟨row, acceptable, budget⟩
      · exact pass i (by omega)
    · rintro ⟨pass, rfl⟩
      obtain ⟨row, acceptable, budget⟩ := pass n (Nat.lt_succ_self n)
      have before : ∀ i < n, Passes bytes w phoff i := fun i bound => pass i (by omega)
      refine ⟨_, ⟨before, rfl⟩, _, ⟨row, rfl⟩, (segment_ok_iff small (room before)).mpr ?_⟩
      rw [scanned_succ]
      exact ⟨acceptable, budget, rfl⟩

include low in
/-- The pass panics exactly at a header that is compared past the end of the
    address space. -/
theorem scan_none_iff (few : n ≤ 16) : scan bytes w phoff n = none ↔ ∃ i < n, PastEnd bytes w phoff i := by
  induction n with
  | zero =>
    constructor
    · rintro ⟨⟩
    · rintro ⟨i, bound, -⟩
      exact absurd bound (Nat.not_lt_zero i)
  | succ n ih =>
    have small := headerAt_small bytes phoff n
    rw [scan_succ, bind_none_iff, ih (by omega)]
    simp only [scan_ok_iff low (show n ≤ 16 by omega), header, bind_none_iff,
      readHeader_returns low (show n < 16 by omega), readHeader_ok_iff low (show n < 16 by omega), false_or]
    constructor
    · rintro (⟨i, bound, past⟩ | ⟨_, ⟨pass, rfl⟩, _, ⟨row, rfl⟩, panics⟩)
      · exact ⟨i, by omega, past⟩
      · exact ⟨n, Nat.lt_succ_self n, pass, row, (segment_none_iff small (room pass)).mp panics⟩
    · rintro ⟨i, bound, past⟩
      by_cases last : i = n
      · subst last
        obtain ⟨pass, row, compared⟩ := past
        exact .inr ⟨_, ⟨pass, rfl⟩, _, ⟨row, rfl⟩, (segment_none_iff small (room pass)).mpr compared⟩
      · exact .inl ⟨i, by omega, past⟩
end

end E5r.FlashHeaders
