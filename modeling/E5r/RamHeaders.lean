import E5r.RamAttributes

/-!
What the program headers of a file are and what the pass over them accepts: the
loads it collects, the bytes it counts, and the header at which it panics.
-/
namespace E5r.RamHeaders
open RamModel
open RamAttributes (Overruns archAttribute_none_iff)
open Cursor (leNat leNat_lt)
open Fallible (bind_some_ok_iff bind_none_iff bind_stops bind_ok)

/-- The little-endian number of some bytes at an offset. -/
def leAt (b : List UInt8) (off size : ℕ) : ℕ := leNat ((b.drop off).take size)

theorem numberAt_eq {b : List UInt8} {off size : ℕ} (fits : b.length < 2 ^ 64) (inside : off + size ≤ b.length) :
    numberAt size b off = some (.ok (leAt b off size)) := by
  rw [numberAt, checkedAdd_eq (by omega), bind_ok _ (orElse_ok.mpr rfl),
    bind_ok _ (orElse_ok.mpr (get_eq_some.mpr ⟨by omega, inside, rfl⟩)), Nat.add_sub_cancel_left]
  rfl

theorem leAt_lt (b : List UInt8) (off size : ℕ) : leAt b off size < 256 ^ size := by
  have below := leNat_lt ((b.drop off).take size)
  have limit : 256 ^ ((b.drop off).take size).length ≤ 256 ^ size :=
    Nat.pow_le_pow_right (by decide) (List.length_take_le ..)
  rw [leAt]
  omega

/-- A program header. -/
structure Phdr where
  kind : ℕ
  offset : ℕ
  vaddr : ℕ
  paddr : ℕ
  filesz : ℕ
  memsz : ℕ
  flags : BitVec 32
  align : ℕ

/-- The program headers that a file has at an offset. -/
def phdr (bytes : List UInt8) (phoff i : ℕ) : Phdr :=
  let word (n : ℕ) := leAt bytes (phoff + i * 32 + n) 4
  ⟨word 0, word 4, word 8, word 12, word 16, word 20, BitVec.ofNat 32 (word 24), word 28⟩

/-- The bytes of the file at a header. -/
def Phdr.blob (h : Phdr) (bytes : List UInt8) : List UInt8 := (bytes.drop h.offset).take h.filesz

def Phdr.load (h : Phdr) (bytes : List UInt8) (i : ℕ) : Load :=
  ⟨i, h.offset, h.vaddr, h.paddr, h.filesz, h.memsz, h.align, h.flags, h.blob bytes⟩

/-- The bytes that a load counts. -/
def Phdr.cost (h : Phdr) : ℕ := if h.flags &&& pfW = 0 then h.memsz else h.filesz

/-- The fields of a header that a load's checks sum are 32-bit numbers. -/
structure Phdr.Small (h : Phdr) : Prop where
  offset : h.offset < 2 ^ 32
  vaddr : h.vaddr < 2 ^ 32
  filesz : h.filesz < 2 ^ 32
  memsz : h.memsz < 2 ^ 32

theorem phdr_small (bytes : List UInt8) (phoff i : ℕ) : (phdr bytes phoff i).Small :=
  ⟨leAt_lt .., leAt_lt .., leAt_lt .., leAt_lt ..⟩

/-- What the policy asks of itself. -/
structure Valid (p : Policy) : Prop where
  some : 0 < p.ramSize
  window : p.ramBase + p.ramSize ≤ 2 ^ 32
  maxFile : p.maxFile ≤ ceilingMaxFile
  maxFileBytes : p.maxFileBytes ≤ ceilingMaxFileBytes

/-- What a load asks of its header alone. -/
structure Loadable (p : Policy) (h : Phdr) : Prop where
  known : h.flags &&& ~~~(pfR ||| pfW ||| pfX) = 0
  readable : h.flags &&& pfR ≠ 0
  exclusive : ¬(h.flags &&& pfW ≠ 0 ∧ h.flags &&& pfX ≠ 0)
  some : 0 < h.memsz
  file : h.filesz ≤ h.memsz
  mapped : h.paddr = h.vaddr
  low : p.ramBase ≤ h.vaddr
  high : h.vaddr + h.memsz ≤ p.ramBase + p.ramSize
  aligned : ¬(1 < h.align ∧ (¬h.align.isPowerOfTwo ∨ h.vaddr % h.align ≠ h.offset % h.align))

section
variable {p : Policy}

theorem check_ok_iff {u : Unit} : p.check = some (.ok u) ↔ Valid p := by
  rw [Policy.check, bind_some_ok_iff]
  simp only [refuse_ok, not_or, not_lt]
  constructor
  · rintro ⟨-, ⟨some, window⟩, maxFile, maxFileBytes⟩
    exact ⟨by omega, window, maxFile, maxFileBytes⟩
  · rintro ⟨some, window, maxFile, maxFileBytes⟩
    exact ⟨(), ⟨by omega, window⟩, maxFile, maxFileBytes⟩

theorem check_returns : p.check ≠ none := by
  rw [Policy.check, ne_eq, bind_none_iff, not_or]
  refine ⟨refuse_returns, ?_⟩
  rintro ⟨-, -, panics⟩
  exact refuse_returns panics

theorem within_eq {addr len base size : ℕ} (fits : addr + len < 2 ^ 64) (top : base + size < 2 ^ 64) :
    within addr len base size = some (.ok (decide (base ≤ addr ∧ addr + len ≤ base + size))) := by
  rw [within]
  split
  · next low =>
    rw [checkedAdd_eq fits]
    dsimp only
    rw [add_eq top, bind_ok _ rfl]
    simp only [low, true_and]
    rfl
  · next above =>
    simp only [above, false_and, decide_false]
    rfl

variable (valid : Valid p)

include valid in
theorem within_ram {addr len : ℕ} (small : addr < 2 ^ 32) (short : len < 2 ^ 32) :
    within addr len p.ramBase p.ramSize =
      some (.ok (decide (p.ramBase ≤ addr ∧ addr + len ≤ p.ramBase + p.ramSize))) := by
  have window := valid.window
  exact within_eq (by omega) (by omega)

variable {bytes : List UInt8} {h : Phdr} {i : ℕ} {s s' : Scan}

include valid in
theorem loadHeader_ok_iff (small : h.Small) (few : s.fileBytes < 2 ^ 32) (inside : h.offset + h.filesz ≤ bytes.length) :
    loadHeader bytes p i h.offset h.vaddr h.paddr h.filesz h.memsz h.align h.flags (h.offset + h.filesz) s =
        some (.ok s') ↔
      Loadable p h ∧ s.fileBytes + h.cost ≤ p.maxFileBytes ∧
        s' = { s with loads := s.loads ++ [h.load bytes i], fileBytes := s.fileBytes + h.cost } := by
  have cost : h.cost < 2 ^ 32 := by
    unfold Phdr.cost
    split
    · exact small.memsz
    · exact small.filesz
  rw [loadHeader]
  simp only [bind_some_ok_iff, refuse_ok, within_ram valid small.vaddr small.memsz, ← Phdr.cost.eq_def,
    add_eq (show s.fileBytes + h.cost < 2 ^ 64 by omega), slice_eq (show h.offset ≤ h.offset + h.filesz by omega) inside,
    Nat.add_sub_cancel_left, pure_ok]
  constructor
  · rintro ⟨-, flags, -, exclusive, -, sizes, -, mapped, inRam, same, -, inside', -, aligned, total, same', -, budget, data,
      same'', rfl⟩
    cases same
    cases same'
    cases same''
    rw [not_or, not_not] at flags
    rw [not_or, not_lt] at sizes
    rw [decide_eq_false_iff_not, not_not] at inside'
    exact ⟨⟨flags.1, flags.2, exclusive, by omega, sizes.2, not_not.mp mapped, inside'.1, inside'.2, aligned⟩,
      not_lt.mp budget, rfl⟩
  · rintro ⟨⟨known, readable, exclusive, some, file, mapped, low, high, aligned⟩, budget, rfl⟩
    refine ⟨(), ?_, (), exclusive, (), by omega, (), not_not.mpr mapped, _, rfl, (), ?_, (), aligned, _, rfl, (),
      not_lt.mpr budget, _, rfl, rfl⟩
    · rw [not_or, not_not]
      exact ⟨known, readable⟩
    · rw [decide_eq_false_iff_not, not_not]
      exact ⟨low, high⟩

include valid in
theorem loadHeader_returns (small : h.Small) (few : s.fileBytes < 2 ^ 32)
    (inside : h.offset + h.filesz ≤ bytes.length) :
    loadHeader bytes p i h.offset h.vaddr h.paddr h.filesz h.memsz h.align h.flags (h.offset + h.filesz) s ≠ none := by
  have cost : h.cost < 2 ^ 32 := by
    unfold Phdr.cost
    split
    · exact small.memsz
    · exact small.filesz
  rw [loadHeader]
  simp only [ne_eq, bind_none_iff, refuse_returns, within_ram valid small.vaddr small.memsz, ← Phdr.cost.eq_def,
    add_eq (show s.fileBytes + h.cost < 2 ^ 64 by omega), slice_eq (show h.offset ≤ h.offset + h.filesz by omega) inside,
    pure_returns, false_or, reduceCtorEq, and_false, exists_false, not_false_eq_true]
end

section
variable {bytes : List UInt8} {p : Policy} {phoff i : ℕ} {s s' : Scan}

theorem field_eq (fits : bytes.length < 2 ^ 64) (inside : phoff + (i + 1) * 32 ≤ bytes.length) {n : ℕ} (row : n ≤ 28) :
    field bytes phoff i n = some (.ok (leAt bytes (phoff + i * 32 + n) 4)) := by
  rw [field, mul_eq (by omega), bind_ok _ rfl, add_eq (by omega), bind_ok _ rfl, add_eq (by omega), bind_ok _ rfl, u32At,
    numberAt_eq fits (by omega)]

/-- The file has the bytes of a header. -/
def Phdr.Fits (h : Phdr) (bytes : List UInt8) : Prop := h.offset + h.filesz ≤ bytes.length

private theorem header_eq (fits : bytes.length < 2 ^ 64) (inside : phoff + (i + 1) * 32 ≤ bytes.length) :
    header bytes p phoff s i =
      (let h := phdr bytes phoff i
       if h.offset + h.filesz ≤ bytes.length then
        if h.kind = ptNull then pure s
        else if h.kind = ptGnuStack then do
          refuse (h.flags &&& pfX ≠ 0) (.executableStack i)
          pure s
        else if h.kind = ptRiscvAttributes then do
          refuse (s.arch.isSome) .attributesTwice
          let arch ← archAttribute (h.blob bytes)
          pure { s with arch := some arch }
        else if h.kind = ptLoad then
          loadHeader bytes p i h.offset h.vaddr h.paddr h.filesz h.memsz h.align h.flags (h.offset + h.filesz) s
        else throw (.unsupported i h.kind)
      else throw (.fileBytesOutside i)) := by
  have small := phdr_small bytes phoff i
  have offset := small.offset
  have filesz := small.filesz
  rw [header, bind_ok _ (field_eq fits inside (by decide)), bind_ok _ (field_eq fits inside (by decide)),
    bind_ok _ (field_eq fits inside (by decide)), bind_ok _ (field_eq fits inside (by decide)),
    bind_ok _ (field_eq fits inside (by decide)), bind_ok _ (field_eq fits inside (by decide)),
    bind_ok _ (field_eq fits inside (by decide)), bind_ok _ (field_eq fits inside (by decide))]
  show (orElse ((checkedAdd (phdr bytes phoff i).offset (phdr bytes phoff i).filesz).filter (· ≤ bytes.length))
    (.fileBytesOutside i) >>= _) = _
  rw [checkedAdd_eq (by omega)]
  dsimp only
  by_cases here : (phdr bytes phoff i).offset + (phdr bytes phoff i).filesz ≤ bytes.length
  · have data : slice bytes (leAt bytes (phoff + i * 32 + 4) 4) ((phdr bytes phoff i).offset + (phdr bytes phoff i).filesz) =
        some (.ok ((phdr bytes phoff i).blob bytes)) := by
      have cut := slice_eq (Nat.le_add_right (phdr bytes phoff i).offset (phdr bytes phoff i).filesz) here
      rw [Nat.add_sub_cancel_left] at cut
      exact cut
    rw [if_pos here, Option.filter_some_pos (by simpa using here), bind_ok _ (orElse_ok.mpr rfl), data]
    rfl
  · rw [if_neg here, Option.filter_some_neg (by simpa using here)]
    rfl

/-- What an accepted header does to what was read so far. -/
inductive Accepted (bytes : List UInt8) (p : Policy) (h : Phdr) (i : ℕ) (s : Scan) : Scan → Prop where
  | skipped (kind : h.kind = ptNull) : Accepted bytes p h i s s
  | stack (kind : h.kind = ptGnuStack) (data : h.flags &&& pfX = 0) : Accepted bytes p h i s s
  | attributes {arch : String} (kind : h.kind = ptRiscvAttributes) (first : s.arch = none)
      (read : archAttribute (h.blob bytes) = some (.ok arch)) : Accepted bytes p h i s { s with arch := some arch }
  | load (kind : h.kind = ptLoad) (loadable : Loadable p h) (budget : s.fileBytes + h.cost ≤ p.maxFileBytes) :
      Accepted bytes p h i s { s with loads := s.loads ++ [h.load bytes i], fileBytes := s.fileBytes + h.cost }

variable (valid : Valid p) (fits : bytes.length < 2 ^ 63) (inside : phoff + (i + 1) * 32 ≤ bytes.length)
  (few : s.fileBytes < 2 ^ 32)

include valid fits inside few in
theorem header_ok_iff : header bytes p phoff s i = some (.ok s') ↔
    (phdr bytes phoff i).Fits bytes ∧ Accepted bytes p (phdr bytes phoff i) i s s' := by
  rw [header_eq (by omega) inside]
  dsimp only
  have small := phdr_small bytes phoff i
  generalize phdr bytes phoff i = h at small
  have apart : ptNull ≠ ptGnuStack ∧ ptNull ≠ ptRiscvAttributes ∧ ptNull ≠ ptLoad ∧ ptGnuStack ≠ ptRiscvAttributes ∧
      ptGnuStack ≠ ptLoad ∧ ptRiscvAttributes ≠ ptLoad := by decide
  constructor
  · intro ran
    split at ran
    · next here =>
      refine ⟨here, ?_⟩
      split at ran
      · next kind =>
        rw [pure_ok] at ran
        subst ran
        exact .skipped kind
      split at ran
      · next kind =>
        rw [bind_some_ok_iff] at ran
        obtain ⟨_, data, same⟩ := ran
        rw [refuse_ok, not_not] at data
        rw [pure_ok] at same
        subst same
        exact .stack kind data
      split at ran
      · next kind =>
        rw [bind_some_ok_iff] at ran
        obtain ⟨_, first, ran⟩ := ran
        rw [bind_some_ok_iff] at ran
        obtain ⟨arch, read, same⟩ := ran
        rw [refuse_ok, Bool.not_eq_true, Option.isSome_eq_false_iff, Option.isNone_iff_eq_none] at first
        rw [pure_ok] at same
        subst same
        exact .attributes kind first read
      split at ran
      · next kind =>
        obtain ⟨loadable, budget, rfl⟩ := (loadHeader_ok_iff valid small few here).mp ran
        exact .load kind loadable budget
      · exact absurd ran (by rw [throw_ok]; exact id)
    · exact absurd ran (by rw [throw_ok]; exact id)
  · rintro ⟨here, accepted⟩
    rw [Phdr.Fits] at here
    rw [if_pos here]
    cases accepted with
    | skipped kind =>
      rw [if_pos kind]
      rfl
    | stack kind data =>
      rw [if_neg (by omega), if_pos kind, refuse_bind (not_not.mpr data)]
      rfl
    | attributes kind first read =>
      rw [if_neg (by omega), if_neg (by omega), if_pos kind, refuse_bind (by simp [first]), bind_ok _ read]
      rfl
    | load kind loadable budget =>
      rw [if_neg (by omega), if_neg (by omega), if_neg (by omega), if_pos kind]
      exact (loadHeader_ok_iff valid small few here).mpr ⟨loadable, budget, rfl⟩

include valid fits inside few in
/-- A pass panics exactly at attributes that overrun their list. -/
theorem header_none_iff : header bytes p phoff s i = none ↔
    (phdr bytes phoff i).Fits bytes ∧ (phdr bytes phoff i).kind = ptRiscvAttributes ∧ s.arch = none ∧
      Overruns ((phdr bytes phoff i).blob bytes) := by
  rw [header_eq (by omega) inside]
  dsimp only
  have small := phdr_small bytes phoff i
  generalize phdr bytes phoff i = h at small
  have short : (h.blob bytes).length < 2 ^ 63 := by
    rw [Phdr.blob, List.length_take, List.length_drop]
    omega
  have apart : ptNull ≠ ptGnuStack ∧ ptNull ≠ ptRiscvAttributes ∧ ptNull ≠ ptLoad ∧ ptGnuStack ≠ ptRiscvAttributes ∧
      ptGnuStack ≠ ptLoad ∧ ptRiscvAttributes ≠ ptLoad := by decide
  constructor
  · intro ran
    split at ran
    · next here =>
      refine ⟨here, ?_⟩
      split at ran
      · exact absurd ran pure_returns
      split at ran
      · obtain ⟨_, -, ran⟩ := bind_stops refuse_returns ran
        exact absurd ran pure_returns
      split at ran
      · next kind =>
        obtain ⟨_, first, ran⟩ := bind_stops refuse_returns ran
        rw [refuse_ok, Bool.not_eq_true, Option.isSome_eq_false_iff, Option.isNone_iff_eq_none] at first
        rw [bind_none_iff, or_iff_left (by rintro ⟨_, -, ran⟩; exact pure_returns ran)] at ran
        exact ⟨kind, first, (archAttribute_none_iff short).mp ran⟩
      split at ran
      · next here kind =>
        exact absurd ran (loadHeader_returns valid small few (by assumption))
      · exact absurd ran throw_returns
    · exact absurd ran throw_returns
  · rintro ⟨here, kind, first, overruns⟩
    rw [Phdr.Fits] at here
    rw [if_pos here, if_neg (by omega), if_neg (by omega), if_pos kind, refuse_bind (by simp [first]), bind_none_iff]
    exact .inl ((archAttribute_none_iff short).mpr overruns)
end

section
variable (bytes : List UInt8) (p : Policy) (phoff : ℕ)

/-- The numbers of the `PT_LOAD` headers among the first `n`. -/
def loadIndices (n : ℕ) : List ℕ := (List.range n).filter fun i => (phdr bytes phoff i).kind = ptLoad

/-- The loads of the first `n` headers. -/
def loadsOf (n : ℕ) : List Load := (loadIndices bytes phoff n).map fun i => (phdr bytes phoff i).load bytes i

/-- The bytes that the first `n` headers count. -/
def costOf (n : ℕ) : ℕ := ((loadIndices bytes phoff n).map fun i => (phdr bytes phoff i).cost).sum

/-- A header that is not of attributes is accepted after those before it. -/
structure Passes (i : ℕ) : Prop where
  fits : (phdr bytes phoff i).Fits bytes
  kind : (phdr bytes phoff i).kind = ptNull ∨
    (phdr bytes phoff i).kind = ptGnuStack ∧ (phdr bytes phoff i).flags &&& pfX = 0 ∨
    (phdr bytes phoff i).kind = ptLoad ∧ Loadable p (phdr bytes phoff i)
  budget : costOf bytes phoff (i + 1) ≤ p.maxFileBytes

/-- The first header of attributes overruns its list, and the headers before it
    are accepted. -/
def Overrun (i : ℕ) : Prop :=
  (∀ j < i, Passes bytes p phoff j) ∧ (phdr bytes phoff i).Fits bytes ∧
    (phdr bytes phoff i).kind = ptRiscvAttributes ∧ Overruns ((phdr bytes phoff i).blob bytes)

/-- What the headers read so far are. -/
structure Scanned (n : ℕ) (s : Scan) : Prop where
  loads : s.loads = loadsOf bytes phoff n
  cost : s.fileBytes = costOf bytes phoff n
  budget : s.fileBytes ≤ p.maxFileBytes
  loadable : ∀ i ∈ loadIndices bytes phoff n, (phdr bytes phoff i).Fits bytes ∧ Loadable p (phdr bytes phoff i)
  passes : s.arch = none → ∀ i < n, Passes bytes p phoff i
end

section
variable {bytes : List UInt8} {p : Policy} {phoff : ℕ}

private theorem loadIndices_succ (n : ℕ) : loadIndices bytes phoff (n + 1) =
    loadIndices bytes phoff n ++ if (phdr bytes phoff n).kind = ptLoad then [n] else [] := by
  rw [loadIndices, List.range_succ, List.filter_append, ← loadIndices]
  congr 1
  by_cases kind : (phdr bytes phoff n).kind = ptLoad
  · simp [kind]
  · simp [kind]

private theorem of_load {n : ℕ} (kind : (phdr bytes phoff n).kind = ptLoad) :
    loadIndices bytes phoff (n + 1) = loadIndices bytes phoff n ++ [n] ∧
      loadsOf bytes phoff (n + 1) = loadsOf bytes phoff n ++ [(phdr bytes phoff n).load bytes n] ∧
      costOf bytes phoff (n + 1) = costOf bytes phoff n + (phdr bytes phoff n).cost := by
  have indices := @loadIndices_succ bytes phoff n
  rw [if_pos kind] at indices
  refine ⟨indices, ?_, ?_⟩
  · rw [loadsOf, indices, List.map_append]
    rfl
  · rw [costOf, indices, List.map_append, List.sum_append]
    simp [costOf]

private theorem of_other {n : ℕ} (kind : (phdr bytes phoff n).kind ≠ ptLoad) :
    loadIndices bytes phoff (n + 1) = loadIndices bytes phoff n ∧
      loadsOf bytes phoff (n + 1) = loadsOf bytes phoff n ∧ costOf bytes phoff (n + 1) = costOf bytes phoff n := by
  have indices := @loadIndices_succ bytes phoff n
  rw [if_neg kind, List.append_nil] at indices
  exact ⟨indices, by rw [loadsOf, loadsOf, indices], by rw [costOf, costOf, indices]⟩

variable (valid : Valid p) (fits : bytes.length < 2 ^ 63)

/-- The pass over the first `n` headers. -/
def scan (bytes : List UInt8) (p : Policy) (phoff n : ℕ) : Run Scan :=
  (List.range n).foldlM (header bytes p phoff) ⟨[], none, 0⟩

private theorem scan_succ (n : ℕ) : scan bytes p phoff (n + 1) = scan bytes p phoff n >>= fun s => header bytes p phoff s n := by
  rw [scan, List.range_succ, List.foldlM_append]
  apply bind_congr
  intro s
  exact bind_pure _

private theorem scanned_succ {n : ℕ} {s s' : Scan} (before : Scanned bytes p phoff n s)
    (here : (phdr bytes phoff n).Fits bytes) (accepted : Accepted bytes p (phdr bytes phoff n) n s s') :
    Scanned bytes p phoff (n + 1) s' := by
  have apart : ptNull ≠ ptLoad ∧ ptGnuStack ≠ ptLoad ∧ ptRiscvAttributes ≠ ptLoad := by decide
  have extend (arch : s'.arch = none → s.arch = none) (last : s'.arch = none → Passes bytes p phoff n) :
      s'.arch = none → ∀ i < n + 1, Passes bytes p phoff i := by
    intro none i bound
    by_cases new : i = n
    · rw [new]
      exact last none
    · exact before.passes (arch none) i (by omega)
  cases accepted with
  | skipped kind =>
    obtain ⟨indices, loads, cost⟩ := @of_other bytes phoff n (by omega)
    refine ⟨by rw [loads, before.loads], by rw [cost, before.cost], before.budget, by rw [indices]; exact before.loadable,
      extend id ?_⟩
    intro _
    exact ⟨here, .inl kind, by rw [cost, ← before.cost]; exact before.budget⟩
  | stack kind data =>
    obtain ⟨indices, loads, cost⟩ := @of_other bytes phoff n (by omega)
    refine ⟨by rw [loads, before.loads], by rw [cost, before.cost], before.budget, by rw [indices]; exact before.loadable,
      extend id ?_⟩
    intro _
    exact ⟨here, .inr (.inl ⟨kind, data⟩), by rw [cost, ← before.cost]; exact before.budget⟩
  | attributes kind first read =>
    obtain ⟨indices, loads, cost⟩ := @of_other bytes phoff n (by omega)
    exact ⟨by rw [loads, before.loads], by rw [cost, before.cost], before.budget, by rw [indices]; exact before.loadable,
      nofun⟩
  | load kind loadable budget =>
    obtain ⟨indices, loads, cost⟩ := of_load kind
    refine ⟨by rw [loads, before.loads], by rw [cost, before.cost], budget, ?_, extend id ?_⟩
    · rw [indices]
      intro i member
      rcases List.mem_append.mp member with old | new
      · exact before.loadable i old
      · rw [List.mem_singleton.mp new]
        exact ⟨here, loadable⟩
    · intro _
      exact ⟨here, .inr (.inr ⟨kind, loadable⟩), by rw [cost, ← before.cost]; exact budget⟩

private theorem few_of {n : ℕ} {s : Scan} (valid : Valid p) (scanned : Scanned bytes p phoff n s) :
    s.fileBytes < 2 ^ 32 := by
  have budget := scanned.budget
  have ceiling := valid.maxFileBytes
  have : ceilingMaxFileBytes = 4194304 := by decide
  omega

include valid fits in
theorem scan_ok {n : ℕ} (rows : phoff + n * 32 ≤ bytes.length) {s : Scan} (ran : scan bytes p phoff n = some (.ok s)) :
    Scanned bytes p phoff n s := by
  induction n generalizing s with
  | zero =>
    cases ran
    exact ⟨rfl, rfl, Nat.zero_le _, by simp [loadIndices], fun _ i bound => absurd bound (Nat.not_lt_zero i)⟩
  | succ n ih =>
    rw [scan_succ, bind_some_ok_iff] at ran
    obtain ⟨before, first, last⟩ := ran
    have scanned := ih (by omega) first
    obtain ⟨here, accepted⟩ := (header_ok_iff valid fits (by omega) (few_of valid scanned)).mp last
    exact scanned_succ scanned here accepted

include valid fits in
theorem scan_passes {n : ℕ} (rows : phoff + n * 32 ≤ bytes.length) (pass : ∀ i < n, Passes bytes p phoff i) :
    scan bytes p phoff n = some (.ok ⟨loadsOf bytes phoff n, none, costOf bytes phoff n⟩) := by
  induction n with
  | zero => rfl
  | succ n ih =>
    have first := ih (by omega) (fun i bound => pass i (by omega))
    have few := few_of valid (scan_ok valid fits (by omega) first)
    obtain ⟨here, kind, budget⟩ := pass n (Nat.lt_succ_self n)
    rw [scan_succ, bind_ok _ first, header_ok_iff valid fits (by omega) few]
    refine ⟨here, ?_⟩
    have apart : ptNull ≠ ptLoad ∧ ptGnuStack ≠ ptLoad := by decide
    rcases kind with kind | ⟨kind, data⟩ | ⟨kind, loadable⟩
    · obtain ⟨-, loads, cost⟩ := @of_other bytes phoff n (by omega)
      rw [loads, cost]
      exact .skipped kind
    · obtain ⟨-, loads, cost⟩ := @of_other bytes phoff n (by omega)
      rw [loads, cost]
      exact .stack kind data
    · obtain ⟨-, loads, cost⟩ := of_load kind
      rw [cost] at budget
      rw [loads, cost]
      exact .load kind loadable budget

include valid fits in
/-- The pass over the headers panics exactly at an overrun of one of them. -/
theorem scan_none_iff {n : ℕ} (rows : phoff + n * 32 ≤ bytes.length) :
    scan bytes p phoff n = none ↔ ∃ i < n, Overrun bytes p phoff i := by
  induction n with
  | zero =>
    constructor
    · rintro ⟨⟩
    · rintro ⟨i, bound, -⟩
      exact absurd bound (Nat.not_lt_zero i)
  | succ n ih =>
    rw [scan_succ, bind_none_iff, ih (by omega)]
    constructor
    · rintro (⟨i, bound, overrun⟩ | ⟨s, first, panics⟩)
      · exact ⟨i, by omega, overrun⟩
      · have scanned := scan_ok valid fits (by omega) first
        obtain ⟨here, kind, none, overruns⟩ := (header_none_iff valid fits (by omega) (few_of valid scanned)).mp panics
        exact ⟨n, Nat.lt_succ_self n, scanned.passes none, here, kind, overruns⟩
    · rintro ⟨i, bound, overrun⟩
      by_cases last : i = n
      · subst last
        obtain ⟨pass, here, kind, overruns⟩ := overrun
        have first := scan_passes valid fits (by omega) pass
        have few := few_of valid (scan_ok valid fits (by omega) first)
        exact .inr ⟨_, first, (header_none_iff valid fits (by omega) few).mpr ⟨here, kind, rfl, overruns⟩⟩
      · exact .inl ⟨i, by omega, overrun⟩
end

end E5r.RamHeaders
