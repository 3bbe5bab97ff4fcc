import E5r.JumpTables
import E5r.LittleEndian
import E5r.MemoryMaps

/-!
When a recovered table is what the branch reads. The checked program stops at the first
shift or product that overflows; where it does not, the entries it reads are those at
the multiples of the stride, and the data region derived from the table covers them
exactly when the stride is the width of an entry (`recover_iff`).
-/
namespace E5r.JumpTableScan
open CheckedWords ArchModel MemoryModel JumpTables
open CacheCodec (JumpTable TableKind)
open RefTracker (isMapped)
open Cursor (leNat)

/-! ### What an entry means -/

/-- The target that an entry stands for, in unbounded numbers. -/
def meaning (s : Shape) (at_ raw : ℕ) : ℕ :=
  let value := if s.entry.signed then signExtend raw s.entry.size else Int.bmod raw (2 ^ 64)
  let from_ := if s.entry.fromElem then at_ else s.base
  match s.kind with
  | .absolute => raw
  | _ => ((from_ + value * 2 ^ s.shift) % 2 ^ 64).toNat

section
variable (p : Plan) (mem : MemoryMap) (section_ : AddrRange) (alignment : ℕ)

def entryAddr (n : ℕ) : ℕ := p.table + n * p.scale

/-- The target of an entry, when it can be read and is one. -/
def acceptedAt (n : ℕ) : Option ℕ := do
  let bytes ← mem.read (entryAddr p n) p.size
  let target := meaning p.shape (entryAddr p n) (leNat bytes)
  if accepts mem section_ (max alignment 1) target then return target else none

def EntryFits (n : ℕ) : Prop :=
  n * p.scale < 2 ^ 64 ∧
    (mem.read (entryAddr p n) p.size ≠ none → p.size ≤ 8 ∧ (p.shape.kind = .absolute ∨ p.shape.shift < 64))

def ScanFits (cap : ℕ) : Prop :=
  ∀ n < p.limit cap, (∀ k < n, acceptedAt p mem section_ alignment k ≠ none) → EntryFits p mem n

/-- A table is made of the entries: the first two are targets, and where no compare
    bounds them some entry is none. -/
def Tabled (cap : ℕ) : Prop :=
  2 ≤ p.limit cap ∧ acceptedAt p mem section_ alignment 0 ≠ none ∧ acceptedAt p mem section_ alignment 1 ≠ none ∧
    (p.bound = none → ∃ n < p.limit cap, acceptedAt p mem section_ alignment n = none)

/-- What a recovered table is held to. -/
structure Good (t : JumpTable) : Prop where
  two : 2 ≤ t.targets.length
  targets : ∀ a ∈ t.targets, section_.contains a = true ∧ isExecutable mem a = true ∧ max alignment 1 ∣ a
  entries : ∀ n a, t.targets[n]? = some a →
    ∃ bytes, mem.read (entryAddr p n) p.size = some bytes ∧ a = meaning p.shape (entryAddr p n) (leNat bytes)
  region : ∃ r, entriesRegion t = some r ∧ ∀ a, r.range.contains a = true ↔
    ∃ n < t.targets.length, entryAddr p n ≤ a ∧ a < entryAddr p n + p.size
end

section
variable (insns : List Insn) (mem : MemoryMap) (section_ : AddrRange) (cap alignment : ℕ)

/-- No arithmetic overflows, and a table that is recovered is good. -/
structure Meets : Prop where
  exact : recover checked insns mem section_ cap alignment ≠ none
  table : ∀ t p, recover wrapping insns mem section_ cap alignment = some (some t) →
    plan wrapping insns mem = some (some p) → Good p mem section_ alignment t

/-- The scales of the value model fit a shift, the scan fits its words, and the stride
    of a table is the width of its entries. -/
structure Fits : Prop where
  scales : plan checked insns mem ≠ none
  scan : ∀ p, plan checked insns mem = some (some p) → ScanFits p mem section_ alignment cap
  stride : ∀ p, plan checked insns mem = some (some p) → Tabled p mem section_ alignment cap → p.scale = p.size
end

/-! ### Reading an entry -/

theorem read_spec {mem : MemoryMap} {a len : ℕ} {bytes : List UInt8} (found : mem.read a len = some bytes) :
    bytes.length = len ∧ a + len < 2 ^ 64 ∧ a < 2 ^ 64 := by
  obtain ⟨s, -, read⟩ := Option.bind_eq_some_iff.mp found
  have fits := s.range.fits
  rw [MemoryMaps.read_eq] at read
  split at read
  · cases read
    exact ⟨by rw [List.length_map, List.length_range], by omega, by omega⟩
  · cases read

theorem orBytes_checked (bs : List UInt8) : ∀ {i v : ℕ}, v < 256 ^ i → i + bs.length ≤ 8 →
    orBytes checked i v bs = some (v + 256 ^ i * leNat bs) := by
  induction bs with
  | nil => exact fun _ _ => by simp [orBytes, leNat]
  | cons b bs ih =>
    intro i v low short
    rw [List.length_cons] at short
    have byte := b.toNat_lt
    have power := LittleEndian.power_two i
    have joined : v ||| b.toNat <<< (8 * i) = v + 256 ^ i * b.toNat := by
      rw [power] at low ⊢
      rw [Nat.or_comm, Nat.shiftLeft_eq, Nat.mul_comm, ← Nat.two_pow_add_eq_or_of_lt low, Nat.add_comm]
    have amount : checked.amount (8 * i) = some (8 * i) := checked_amount.mpr ⟨by omega, rfl⟩
    have next : v + 256 ^ i * b.toNat < 256 ^ (i + 1) := by
      have room : 256 ^ i * b.toNat ≤ 256 ^ i * 255 := Nat.mul_le_mul_left _ (by omega)
      rw [pow_succ]
      omega
    rw [orBytes, amount]
    show orBytes checked (i + 1) (v ||| b.toNat <<< (8 * i)) bs = _
    rw [joined, ih next (by omega), leNat, pow_succ]
    congr 1
    ring

theorem orBytes_stops (bs : List UInt8) : ∀ {i v r : ℕ}, orBytes checked i v bs = some r → bs ≠ [] → i + bs.length ≤ 8 := by
  induction bs with
  | nil => exact fun _ some_ => absurd rfl some_
  | cons b bs ih =>
    intro i v r ran _
    obtain ⟨amount, small, later⟩ := Option.bind_eq_some_iff.mp ran
    obtain ⟨fits, -⟩ := checked_amount.mp small
    rw [List.length_cons]
    by_cases last : bs = []
    · subst last
      simp only [List.length_nil]
      omega
    · have := ih later last
      omega

theorem readPtr_checked {mem : MemoryMap} {a size : ℕ} {r : Option ℕ} :
    readPtr checked mem a size = some r ↔ (mem.read a size ≠ none → size ≤ 8) ∧ r = (mem.read a size).map leNat := by
  unfold readPtr
  cases found : mem.read a size with
  | none => simp [eq_comm]
  | some bytes =>
    obtain ⟨length, -⟩ := read_spec found
    have numbered (short : size ≤ 8) : orBytes checked 0 0 bytes = some (leNat bytes) := by
      rw [orBytes_checked bytes (by decide) (by omega)]
      simp
    constructor
    · intro ran
      obtain ⟨raw, ored, same⟩ := Option.bind_eq_some_iff.mp ran
      have short : size ≤ 8 := by
        by_cases none_ : bytes = []
        · subst none_
          simp only [List.length_nil] at length
          omega
        · have := orBytes_stops bytes ored none_
          omega
      rw [numbered short] at ored
      cases ored
      cases same
      exact ⟨fun _ => short, rfl⟩
    · rintro ⟨fits, rfl⟩
      exact Option.bind_eq_some_iff.mpr ⟨_, numbered (fits (by simp)), rfl⟩

theorem targetOf_checked {s : Shape} {a raw r : ℕ} :
    targetOf checked s a raw = some r ↔ (s.kind = .absolute ∨ s.shift < 64) ∧ r = meaning s a raw := by
  unfold targetOf meaning
  cases kind : s.kind with
  | absolute => simp [eq_comm]
  | relativeToBase | relativeToEntry =>
    simp only [Option.bind_eq_bind, Option.bind_eq_some_iff, checked_amount, reduceCtorEq, false_or]
    constructor
    · rintro ⟨amount, ⟨small, rfl⟩, same⟩
      cases same
      exact ⟨small, rfl⟩
    · rintro ⟨small, rfl⟩
      exact ⟨s.shift, ⟨small, rfl⟩, rfl⟩

/-! ### The scan -/

section
variable {p : Plan} {mem : MemoryMap} {section_ : AddrRange} {alignment : ℕ}

theorem scan_turn (left n : ℕ) {l : List ℕ} :
    scanFrom checked p.shape mem section_ (max alignment 1) (left + 1) n = some l ↔
      EntryFits p mem n ∧
        match acceptedAt p mem section_ alignment n with
        | none => l = []
        | some a => ∃ rest, l = a :: rest ∧
            scanFrom checked p.shape mem section_ (max alignment 1) left (n + 1) = some rest := by
  have unread (past : 2 ^ 64 ≤ entryAddr p n) : mem.read (entryAddr p n) p.size = none := by
    refine Option.eq_none_iff_forall_ne_some.mpr fun bytes found => ?_
    have := (read_spec found).2.2
    omega
  rw [scanFrom]
  unfold EntryFits acceptedAt
  simp only [Option.bind_eq_bind, Option.bind_eq_some_iff, checked_mul]
  constructor
  · rintro ⟨_, ⟨product, rfl⟩, ran⟩
    change (if 2 ^ 64 ≤ entryAddr p n then _ else _) = _ at ran
    split at ran
    · next past =>
      rw [unread past]
      cases ran
      exact ⟨⟨product, fun some_ => absurd rfl some_⟩, rfl⟩
    · obtain ⟨raw, read, ran⟩ := Option.bind_eq_some_iff.mp ran
      obtain ⟨narrow, rfl⟩ := readPtr_checked.mp read
      change mem.read (entryAddr p n) p.size ≠ none → p.size ≤ 8 at narrow
      change (match (mem.read (entryAddr p n) p.size).map leNat with | none => _ | some raw => _) = _ at ran
      cases found : mem.read (entryAddr p n) p.size with
      | none =>
        rw [found] at ran
        cases ran
        exact ⟨⟨product, fun some_ => absurd rfl some_⟩, rfl⟩
      | some bytes =>
        rw [found] at ran narrow
        obtain ⟨target, means, ran⟩ := Option.bind_eq_some_iff.mp ran
        obtain ⟨shifts, rfl⟩ := targetOf_checked.mp means
        refine ⟨⟨product, fun _ => ⟨narrow (by simp), shifts⟩⟩, ?_⟩
        change (if accepts mem section_ (max alignment 1) (meaning p.shape (entryAddr p n) (leNat bytes)) = true then _
          else _) = _ at ran
        rw [Option.bind_some]
        split at ran
        · next accepted =>
          obtain ⟨rest, later, same⟩ := Option.bind_eq_some_iff.mp ran
          cases same
          rw [if_pos accepted]
          exact ⟨rest, rfl, later⟩
        · next refused =>
          cases ran
          rw [if_neg refused]
  · rintro ⟨⟨product, fits⟩, ends⟩
    refine ⟨_, ⟨product, rfl⟩, ?_⟩
    change (if 2 ^ 64 ≤ entryAddr p n then _ else _) = _
    split
    · next past =>
      rw [unread past] at ends
      exact congrArg some ends.symm
    · have read : readPtr checked mem (entryAddr p n) p.size = some ((mem.read (entryAddr p n) p.size).map leNat) :=
        readPtr_checked.mpr ⟨fun some_ => (fits some_).1, rfl⟩
      refine Option.bind_eq_some_iff.mpr ⟨_, read, ?_⟩
      cases found : mem.read (entryAddr p n) p.size with
      | none =>
        rw [found] at ends
        exact congrArg some ends.symm
      | some bytes =>
        rw [found] at ends fits
        refine Option.bind_eq_some_iff.mpr ⟨_, targetOf_checked.mpr ⟨(fits (by simp)).2, rfl⟩, ?_⟩
        change (if accepts mem section_ (max alignment 1) (meaning p.shape (entryAddr p n) (leNat bytes)) = true then _
          else _) = _
        rw [Option.bind_some] at ends
        split
        · next accepted =>
          rw [if_pos accepted] at ends
          obtain ⟨rest, rfl, later⟩ := ends
          exact Option.bind_eq_some_iff.mpr ⟨rest, later, rfl⟩
        · next refused =>
          rw [if_neg refused] at ends
          exact congrArg some ends.symm

theorem scan_returns (left : ℕ) : ∀ {n : ℕ}, (∀ m, n ≤ m → m < n + left →
      (∀ k, n ≤ k → k < m → acceptedAt p mem section_ alignment k ≠ none) → EntryFits p mem m) →
    ∃ l, scanFrom checked p.shape mem section_ (max alignment 1) left n = some l := by
  induction left with
  | zero => exact fun _ => ⟨[], rfl⟩
  | succ left ih =>
    intro n fits
    have here := fits n le_rfl (by omega) (fun k low high => by omega)
    cases found : acceptedAt p mem section_ alignment n with
    | none => exact ⟨[], (scan_turn left n).mpr ⟨here, by rw [found]⟩⟩
    | some a =>
      obtain ⟨rest, later⟩ := @ih (n + 1) fun m low high before => fits m (by omega) (by omega) fun k from_ below => by
        by_cases first : k = n
        · subst first
          rw [found]
          exact nofun
        · exact before k (by omega) below
      exact ⟨a :: rest, (scan_turn left n).mpr ⟨here, by rw [found]; exact ⟨rest, rfl, later⟩⟩⟩

theorem scan_reads (left : ℕ) : ∀ {n : ℕ} {l : List ℕ},
    scanFrom checked p.shape mem section_ (max alignment 1) left n = some l →
      (∀ m, n ≤ m → m < n + left → (∀ k, n ≤ k → k < m → acceptedAt p mem section_ alignment k ≠ none) →
        EntryFits p mem m) ∧
      l.length ≤ left ∧ (∀ i a, l[i]? = some a → acceptedAt p mem section_ alignment (n + i) = some a) ∧
      (l.length < left → acceptedAt p mem section_ alignment (n + l.length) = none) := by
  induction left with
  | zero =>
    intro n l ran
    cases ran
    exact ⟨fun m low high => by omega, le_rfl, fun i a found => by simp at found, fun short => by simp at short⟩
  | succ left ih =>
    intro n l ran
    obtain ⟨here, ends⟩ := (scan_turn left n).mp ran
    cases found : acceptedAt p mem section_ alignment n with
    | none =>
      rw [found] at ends
      subst ends
      refine ⟨fun m low high before => ?_, Nat.zero_le _, fun i a got => by simp at got, fun _ => found⟩
      by_cases first : m = n
      · subst first
        exact here
      · exact absurd found (before n le_rfl (by omega))
    | some a =>
      rw [found] at ends
      obtain ⟨rest, rfl, later⟩ := ends
      obtain ⟨fits, short, entries, stops⟩ := ih later
      refine ⟨fun m low high before => ?_, by rw [List.length_cons]; omega, fun i b got => ?_, fun below => ?_⟩
      · by_cases first : m = n
        · subst first
          exact here
        · exact fits m (by omega) (by omega) fun k from_ under => before k (by omega) under
      · cases i with
        | zero =>
          cases got
          exact found
        | succ i =>
          rw [List.getElem?_cons_succ] at got
          rw [← entries i b got]
          congr 1
          omega
      · rw [List.length_cons] at below ⊢
        rw [← stops (by omega)]
        congr 1
        omega

theorem le_scan_iff {left k : ℕ} {l : List ℕ} (ran : scanFrom checked p.shape mem section_ (max alignment 1) left 0 = some l) :
    k ≤ l.length ↔ k ≤ left ∧ ∀ j < k, acceptedAt p mem section_ alignment j ≠ none := by
  obtain ⟨-, short, entries, stops⟩ := scan_reads left ran
  constructor
  · intro long
    refine ⟨by omega, fun j below => ?_⟩
    have got : l[j]? = some (l.get ⟨j, by omega⟩) := List.getElem?_eq_getElem _
    have := entries j _ got
    rw [Nat.zero_add] at this
    rw [this]
    exact nofun
  · rintro ⟨room, all⟩
    by_contra less
    have none_ := stops (by omega)
    rw [Nat.zero_add] at none_
    exact all _ (by omega) none_
end

/-! ### Words of the release build -/

theorem wrapping_orBytes (bs : List UInt8) : ∀ {i v r : ℕ}, orBytes checked i v bs = some r →
    orBytes wrapping i v bs = some r := by
  induction bs with
  | nil => exact fun ran => ran
  | cons b bs ih => exact fun ran => bind_same (fun _ => wrapping_amount) (fun _ _ later => ih later) ran

theorem wrapping_readPtr {mem : MemoryMap} {a size : ℕ} {r : Option ℕ} (ran : readPtr checked mem a size = some r) :
    readPtr wrapping mem a size = some r := by
  unfold readPtr at ran ⊢
  cases found : mem.read a size with
  | none =>
    rw [found] at ran
    exact ran
  | some bytes =>
    rw [found] at ran
    exact bind_same (fun _ => wrapping_orBytes bytes) (fun _ _ last => last) ran

theorem wrapping_targetOf {s : Shape} {a raw r : ℕ} (ran : targetOf checked s a raw = some r) :
    targetOf wrapping s a raw = some r := by
  unfold targetOf at ran ⊢
  cases kind : s.kind with
  | absolute =>
    rw [kind] at ran
    exact ran
  | relativeToBase | relativeToEntry =>
    rw [kind] at ran
    exact bind_same (fun _ => wrapping_amount) (fun _ _ last => last) ran

theorem wrapping_scanFrom {s : Shape} {mem : MemoryMap} {section_ : AddrRange} {alignment : ℕ} (left : ℕ) :
    ∀ {n : ℕ} {l : List ℕ}, scanFrom checked s mem section_ alignment left n = some l →
      scanFrom wrapping s mem section_ alignment left n = some l := by
  induction left with
  | zero => exact fun ran => ran
  | succ left ih =>
    intro n l ran
    refine bind_same (fun _ => wrapping_mul) (fun off r ran => ?_) ran
    dsimp only at ran ⊢
    split at ran
    · next past =>
      rw [if_pos past]
      exact ran
    · next inside =>
      rw [if_neg inside]
      refine bind_same (fun _ => wrapping_readPtr) (fun read r ran => ?_) ran
      cases read with
      | none => exact ran
      | some raw =>
        refine bind_same (fun _ => wrapping_targetOf) (fun target r ran => ?_) ran
        split at ran
        · next accepted =>
          rw [if_pos accepted]
          exact bind_same (fun _ => ih) (fun _ _ last => last) ran
        · next refused =>
          rw [if_neg refused]
          exact ran

theorem wrapping_power {n r : ℕ} (ran : (do return 2 ^ (← checked.amount n)) = some r) :
    (do return 2 ^ (← wrapping.amount n)) = some r :=
  bind_same (fun _ => wrapping_amount) (fun _ _ last => last) ran

/-! ### The value model in wrapping arithmetic -/

section
variable {i : Insn} {regs : Regs}

theorem wrapping_elem {ops : List Operand} {table shift : ℕ} {v : Val}
    (ran : (match scaledIndex ops with
      | some index => if 0 < shift then do return .elem table (2 ^ (← checked.amount shift)) index else some .unknown
      | none => some .unknown) = some v) :
    (match scaledIndex ops with
      | some index => if 0 < shift then do return .elem table (2 ^ (← wrapping.amount shift)) index else some .unknown
      | none => some .unknown) = some v := by
  split at ran
  · split at ran
    · next positive =>
      rw [if_pos positive]
      exact bind_same (fun _ => wrapping_amount) (fun _ _ last => last) ran
    · next zero =>
      rw [if_neg zero]
      exact ran
  · exact ran

theorem wrapping_addValue {ops : List Operand} {v : Val} (ran : addValue checked ops regs = some v) :
    addValue wrapping ops regs = some v := by
  unfold addValue at ran ⊢
  dsimp only at ran ⊢
  split at ran
  · exact ran
  · exact wrapping_elem ran
  · exact wrapping_elem ran
  all_goals exact ran

theorem wrapping_loadValue {v : Val} (ran : loadValue checked i regs = some v) : loadValue wrapping i regs = some v := by
  unfold loadValue at ran ⊢
  split at ran
  · next m here =>
    split at ran
    · exact ran
    · dsimp only at ran ⊢
      split at ran
      · refine bind_same (fun scale scaled => ?_) (fun _ _ last => last) ran
        split at scaled
        · next zero =>
          rw [if_pos zero]
          exact scaled
        · next positive =>
          rw [if_neg positive]
          exact wrapping_power scaled
      · exact ran
      · exact ran
  · exact ran
  · exact ran

theorem wrapping_valueOf {v : Val} (ran : valueOf checked i regs = some v) : valueOf wrapping i regs = some v := by
  unfold valueOf at ran ⊢
  split at ran
  · next page =>
    rw [if_pos page]
    exact ran
  · next page =>
    rw [if_neg page]
    split at ran
    · next lea =>
      rw [if_pos lea]
      exact ran
    · next lea =>
      rw [if_neg lea]
      split at ran
      · next add =>
        rw [if_pos add]
        exact wrapping_addValue ran
      · next add =>
        rw [if_neg add]
        split at ran
        · next load =>
          rw [if_pos load]
          exact wrapping_loadValue ran
        · next load =>
          rw [if_neg load]
          exact ran

theorem wrapping_step {after : Regs} (ran : step checked i regs = some after) : step wrapping i regs = some after := by
  unfold step at ran ⊢
  split at ran
  · next flags =>
    rw [if_pos flags]
    exact ran
  · next flags =>
    rw [if_neg flags]
    exact bind_same (fun _ => wrapping_valueOf) (fun _ _ last => last) ran
end

theorem wrapping_simulate (insns : List Insn) : ∀ {regs after : Regs},
    insns.foldlM (fun regs i => step checked i regs) regs = some after →
      insns.foldlM (fun regs i => step wrapping i regs) regs = some after := by
  induction insns with
  | nil => exact fun ran => ran
  | cons i insns ih =>
    intro regs after ran
    rw [List.foldlM_cons] at ran ⊢
    exact bind_same (fun _ => wrapping_step) (fun _ _ later => ih later) ran

theorem wrapping_branchValue {last : Insn} {regs : Regs} {v : Option Val}
    (ran : branchValue checked last regs = some v) : branchValue wrapping last regs = some v := by
  unfold branchValue at ran ⊢
  split at ran
  · exact ran
  · split at ran
    · next segment =>
      rw [if_pos segment]
      exact ran
    · next flat =>
      rw [if_neg flat]
      split at ran
      · exact bind_same (fun _ => wrapping_amount) (fun _ _ last => last) ran
      · exact ran
  · exact ran

theorem wrapping_plan {insns : List Insn} {mem : MemoryMap} {p : Option Plan} (ran : plan checked insns mem = some p) :
    plan wrapping insns mem = some p := by
  unfold plan at ran ⊢
  split at ran
  · exact ran
  · split at ran
    · next other =>
      rw [if_pos other]
      exact ran
    · next indirect =>
      rw [if_neg indirect]
      refine bind_same (fun _ => wrapping_simulate insns.dropLast) (fun regs _ later => ?_) ran
      exact bind_same (fun _ => wrapping_branchValue) (fun _ _ last => last) later

section
variable {insns : List Insn} {mem : MemoryMap} {section_ : AddrRange} {cap alignment : ℕ}

theorem wrapping_recover {t : Option JumpTable} (ran : recover checked insns mem section_ cap alignment = some t) :
    recover wrapping insns mem section_ cap alignment = some t := by
  refine bind_same (fun _ => wrapping_plan) (fun p r later => ?_) ran
  cases p with
  | none => exact later
  | some p => exact bind_same (fun _ => wrapping_scanFrom _) (fun _ _ last => last) later

theorem plan_positive {ar : Arith} {p : Plan} (planned : plan ar insns mem = some (some p)) : 0 < p.size ∧ 0 < p.scale := by
  unfold plan at planned
  split at planned
  · cases planned
  · split at planned
    · cases planned
    · obtain ⟨regs, -, planned⟩ := Option.bind_eq_some_iff.mp planned
      obtain ⟨v, -, planned⟩ := Option.bind_eq_some_iff.mp planned
      split at planned
      · cases planned
      · next shape _ =>
        split at planned
        · cases planned
        · next mapped =>
          obtain ⟨bound, -, planned⟩ := Option.bind_eq_some_iff.mp planned
          split at planned
          · cases planned
          · cases planned
            push Not at mapped
            exact ⟨Nat.pos_of_ne_zero mapped.1, Nat.pos_of_ne_zero mapped.2.1⟩

theorem recover_of_plan {ar : Arith} {p : Plan} {r : Option JumpTable} (planned : plan ar insns mem = some (some p)) :
    recover ar insns mem section_ cap alignment = some r ↔
      ∃ targets, scanFrom ar p.shape mem section_ (max alignment 1) (p.limit cap) 0 = some targets ∧
        r = if targets.length < 2 ∨ (p.bound = none ∧ p.limit cap ≤ targets.length) then none
          else some ⟨(insns.getLast?.map Insn.addr).getD 0, p.table, p.size, p.shape.kind, p.shape.base, p.shape.shift,
            targets, p.bound.isNone⟩ := by
  unfold recover
  rw [planned, Option.bind_eq_bind, Option.bind_some]
  dsimp only
  rw [Option.bind_eq_bind, Option.bind_eq_some_iff]
  refine exists_congr fun targets => and_congr_right fun _ => ?_
  split
  · exact ⟨fun is => (Option.some.inj is).symm, fun is => congrArg some is.symm⟩
  · exact ⟨fun is => (Option.some.inj is).symm, fun is => congrArg some is.symm⟩
end

/-! ### Recovered tables -/

section
variable {p : Plan} {mem : MemoryMap} {section_ : AddrRange} {cap alignment : ℕ} {targets : List ℕ}

theorem acceptedAt_eq_some {n a : ℕ} : acceptedAt p mem section_ alignment n = some a ↔
    ∃ bytes, mem.read (entryAddr p n) p.size = some bytes ∧ a = meaning p.shape (entryAddr p n) (leNat bytes) ∧
      accepts mem section_ (max alignment 1) a = true := by
  unfold acceptedAt
  simp only [Option.bind_eq_bind, Option.bind_eq_some_iff]
  refine exists_congr fun bytes => and_congr_right fun _ => ?_
  split
  · next accepted =>
    constructor
    · intro is
      cases is
      exact ⟨rfl, accepted⟩
    · rintro ⟨rfl, -⟩
      rfl
  · next refused =>
    constructor
    · intro is
      cases is
    · rintro ⟨rfl, accepted⟩
      exact absurd accepted refused

theorem tabled_iff (ran : scanFrom checked p.shape mem section_ (max alignment 1) (p.limit cap) 0 = some targets) :
    Tabled p mem section_ alignment cap ↔ ¬ (targets.length < 2 ∨ (p.bound = none ∧ p.limit cap ≤ targets.length)) := by
  have two : 2 ≤ targets.length ↔ _ := le_scan_iff ran
  have whole : p.limit cap ≤ targets.length ↔ _ := le_scan_iff ran
  unfold Tabled
  rw [not_or, not_and, not_lt]
  constructor
  · rintro ⟨room, first, second, bounded⟩
    refine ⟨two.mpr ⟨room, fun j below => ?_⟩, fun unbounded full => ?_⟩
    · rcases Nat.le_one_iff_eq_zero_or_eq_one.mp (Nat.le_of_lt_succ below) with rfl | rfl
      · exact first
      · exact second
    · obtain ⟨n, below, none_⟩ := bounded unbounded
      exact (whole.mp full).2 n below none_
  · rintro ⟨long, bounded⟩
    obtain ⟨room, accepted⟩ := two.mp long
    refine ⟨room, accepted 0 (by decide), accepted 1 (by decide), fun unbounded => ?_⟩
    by_contra none_
    push Not at none_
    exact bounded unbounded (whole.mpr ⟨le_rfl, none_⟩)

theorem scanFits_iff : ScanFits p mem section_ alignment cap ↔
    ∃ l, scanFrom checked p.shape mem section_ (max alignment 1) (p.limit cap) 0 = some l := by
  constructor
  · intro fits
    exact scan_returns _ fun m _ below before => fits m (by omega) fun k under => before k (Nat.zero_le k) under
  · rintro ⟨l, ran⟩ n below before
    exact (scan_reads _ ran).1 n (Nat.zero_le n) (by omega) fun k _ under => before k under

theorem entriesRegion_eq_some {t : JumpTable} {r : DataRegions.Region} : entriesRegion t = some r ↔
    ∃ range, AddrRange.sized t.table (t.entrySize * t.targets.length) = some range ∧ r = ⟨range, .jumpTable t.at_⟩ := by
  unfold entriesRegion
  split
  · rw [Option.bind_eq_bind, Option.bind_eq_some_iff]
    refine exists_congr fun range => and_congr_right fun _ => ?_
    exact ⟨fun is => (Option.some.inj is).symm, fun is => congrArg some is.symm⟩
  · next wide =>
    constructor
    · intro is
      cases is
    · rintro ⟨range, sized, -⟩
      rw [AddrRange.sized, dif_neg (by omega)] at sized
      cases sized

theorem good_iff {t : JumpTable} (size : 0 < p.size)
    (ran : scanFrom checked p.shape mem section_ (max alignment 1) (p.limit cap) 0 = some t.targets)
    (two : 2 ≤ t.targets.length) (table : t.table = p.table) (width : t.entrySize = p.size) :
    Good p mem section_ alignment t ↔ p.scale = p.size := by
  obtain ⟨-, -, entries, -⟩ := scan_reads _ ran
  have accepted (n : ℕ) (a : ℕ) (found : t.targets[n]? = some a) : acceptedAt p mem section_ alignment n = some a := by
    have := entries n a found
    rwa [Nat.zero_add] at this
  constructor
  · intro good
    obtain ⟨r, is, covers⟩ := good.region
    obtain ⟨range, sized, rfl⟩ := entriesRegion_eq_some.mp is
    obtain ⟨start, stop⟩ := MemoryMaps.sized_eq_some sized
    rw [table] at start
    rw [table, width] at stop
    simp only [AddrRanges.contains_iff, start, stop, entryAddr] at covers
    obtain ⟨before, is⟩ := Nat.exists_eq_succ_of_ne_zero (show t.targets.length ≠ 0 by omega)
    simp only [is, Nat.succ_eq_add_one, Nat.mul_succ] at covers two
    have narrow : before * p.scale ≤ before * p.size := by
      have := (covers (p.table + before * p.scale + (p.size - 1))).mpr ⟨before, by omega, by omega, by omega⟩
      rw [Nat.mul_comm p.size before] at this
      omega
    have wide : before * p.size ≤ before * p.scale := by
      obtain ⟨n, below, from_, under⟩ := (covers (p.table + (p.size * before + p.size) - 1)).mp ⟨by omega, by omega⟩
      have least : n * p.scale ≤ before * p.scale := Nat.mul_le_mul_right _ (by omega)
      rw [Nat.mul_comm p.size before] at under
      omega
    have some_ : 0 < before := by omega
    exact Nat.le_antisymm (Nat.le_of_mul_le_mul_left narrow some_) (Nat.le_of_mul_le_mul_left wide some_)
  · intro same
    have read (n : ℕ) (a : ℕ) (found : t.targets[n]? = some a) := acceptedAt_eq_some.mp (accepted n a found)
    refine ⟨two, fun a member => ?_, fun n a found => ?_, ?_⟩
    · obtain ⟨n, found⟩ := List.mem_iff_getElem?.mp member
      obtain ⟨bytes, -, -, good⟩ := read n a found
      simp only [accepts, Bool.and_eq_true, decide_eq_true_eq] at good
      exact ⟨good.1.1, good.1.2, Nat.dvd_of_mod_eq_zero good.2⟩
    · obtain ⟨bytes, found, means, -⟩ := read n a found
      exact ⟨bytes, found, means⟩
    · obtain ⟨before, is⟩ := Nat.exists_eq_succ_of_ne_zero (show t.targets.length ≠ 0 by omega)
      obtain ⟨bytes, found, -⟩ := read before _ (List.getElem?_eq_getElem (by omega))
      have room := (read_spec found).2.1
      rw [entryAddr, same] at room
      have inside : t.table + t.entrySize * t.targets.length < 2 ^ 64 := by
        rw [table, width, is, Nat.succ_eq_add_one, Nat.mul_succ, Nat.mul_comm]
        omega
      refine ⟨_, entriesRegion_eq_some.mpr ⟨_, dif_pos inside, rfl⟩, fun a => ?_⟩
      simp only [AddrRanges.contains_iff, entryAddr, same, table, width]
      constructor
      · rintro ⟨from_, below⟩
        have whole := Nat.div_add_mod (a - p.table) p.size
        have part := Nat.mod_lt (a - p.table) size
        rw [Nat.mul_comm] at whole
        exact ⟨(a - p.table) / p.size, Nat.div_lt_of_lt_mul (by omega), by omega, by omega⟩
      · rintro ⟨n, below, from_, under⟩
        have most : (n + 1) * p.size ≤ t.targets.length * p.size := Nat.mul_le_mul_right _ below
        rw [Nat.add_mul, Nat.one_mul, Nat.mul_comm t.targets.length] at most
        omega
end

section
variable {insns : List Insn} {mem : MemoryMap} {section_ : AddrRange} {cap alignment : ℕ} {p : Plan}

theorem recover_scanned (planned : plan checked insns mem = some (some p))
    (fits : ScanFits p mem section_ alignment cap) :
    ∃ r, recover checked insns mem section_ cap alignment = some r ∧ (r ≠ none ↔ Tabled p mem section_ alignment cap) ∧
      ∀ t, r = some t → scanFrom checked p.shape mem section_ (max alignment 1) (p.limit cap) 0 = some t.targets ∧
        2 ≤ t.targets.length ∧ t.table = p.table ∧ t.entrySize = p.size := by
  obtain ⟨targets, ran⟩ := scanFits_iff.mp fits
  refine ⟨_, (recover_of_plan planned).mpr ⟨targets, ran, rfl⟩, ?_, ?_⟩
  · rw [tabled_iff ran]
    split
    · next few => exact ⟨fun some_ => absurd rfl some_, fun enough => absurd few enough⟩
    · next enough => exact ⟨fun _ => enough, fun _ => nofun⟩
  · intro t is
    split at is
    · cases is
    · cases is
      exact ⟨ran, by dsimp only; omega, rfl, rfl⟩

theorem exact_iff : recover checked insns mem section_ cap alignment ≠ none ↔
    plan checked insns mem ≠ none ∧ ∀ p, plan checked insns mem = some (some p) → ScanFits p mem section_ alignment cap := by
  constructor
  · intro exact_
    obtain ⟨r, ran⟩ := Option.ne_none_iff_exists'.mp exact_
    obtain ⟨planned, is, -⟩ := Option.bind_eq_some_iff.mp ran
    refine ⟨by rw [is]; exact nofun, fun p same => ?_⟩
    obtain ⟨targets, scanned, -⟩ := (recover_of_plan same).mp ran
    exact scanFits_iff.mpr ⟨targets, scanned⟩
  · rintro ⟨planned, scans⟩
    obtain ⟨r, is⟩ := Option.ne_none_iff_exists'.mp planned
    cases r with
    | none =>
      rw [recover, is]
      exact nofun
    | some p =>
      obtain ⟨r, ran, -⟩ := recover_scanned is (scans p is)
      rw [ran]
      exact nofun

theorem table_iff (planned : plan checked insns mem = some (some p)) (fits : ScanFits p mem section_ alignment cap) :
    (∀ t q, recover wrapping insns mem section_ cap alignment = some (some t) →
      plan wrapping insns mem = some (some q) → Good q mem section_ alignment t) ↔
      (Tabled p mem section_ alignment cap → p.scale = p.size) := by
  obtain ⟨size, -⟩ := plan_positive planned
  obtain ⟨r, ran, tabled, spec⟩ := recover_scanned planned fits
  rw [← tabled]
  constructor
  · intro good some_
    obtain ⟨t, rfl⟩ := Option.ne_none_iff_exists'.mp some_
    obtain ⟨scanned, two, table, width⟩ := spec t rfl
    exact (good_iff size scanned two table width).mp (good t p (wrapping_recover ran) (wrapping_plan planned))
  · intro stride t q recovered same
    rw [wrapping_recover ran] at recovered
    rw [wrapping_plan planned] at same
    cases recovered
    cases same
    obtain ⟨scanned, two, table, width⟩ := spec t rfl
    exact (good_iff size scanned two table width).mpr (stride nofun)
end

/-- Recovery does what it is held to exactly when the value model scales by shifts of a
    word, no entry it comes to overflows, and the stride of a table is the width of an
    entry. -/
theorem recover_iff (insns : List Insn) (mem : MemoryMap) (section_ : AddrRange) (cap alignment : ℕ) :
    Meets insns mem section_ cap alignment ↔ Fits insns mem section_ cap alignment := by
  constructor
  · rintro ⟨exact_, table⟩
    obtain ⟨planned, scans⟩ := exact_iff.mp exact_
    exact ⟨planned, scans, fun p is => (table_iff is (scans p is)).mp table⟩
  · rintro ⟨planned, scans, stride⟩
    refine ⟨exact_iff.mpr ⟨planned, scans⟩, ?_⟩
    obtain ⟨r, is⟩ := Option.ne_none_iff_exists'.mp planned
    cases r with
    | none =>
      intro t q _ same
      rw [wrapping_plan is] at same
      cases same
    | some p => exact (table_iff is (scans p is)).mpr (stride p is)

section
def rax : Reg := ⟨.gpr, 0, .w64⟩
def rcx : Reg := ⟨.gpr, 1, .w64⟩
def rdx : Reg := ⟨.gpr, 2, .w64⟩

/-- A switch over two entries of four bytes that stand eight bytes apart. -/
def spaced : List Insn :=
  [⟨0x1000, 7, "lea", .next, none, [.reg rdx, .mem ⟨none, some ⟨.pc, 0, .w64⟩, none, 0x19, .offset, 8⟩]⟩,
    ⟨0x1007, 4, "cmp", .next, none, [.reg rcx, .imm 1]⟩,
    ⟨0x100b, 4, "movsxd", .next, none, [.reg rax, .mem ⟨none, some rdx, some (rcx, .lsl, 3), 0, .offset, 4⟩]⟩,
    ⟨0x100f, 3, "add", .next, none, [.reg rax, .reg rdx]⟩, ⟨0x1012, 2, "jmp", .indirectBranch, none, [.reg rax]⟩]

def text : Segment where
  range := ⟨0x1000, 0x1040, by decide, by decide⟩
  perms := ⟨true, false, true⟩
  name := ".text"
  fileOffset := 0
  data := List.replicate 0x20 0x90 ++ [0xe0, 0xff, 0xff, 0xff, 0, 0, 0, 0, 0xe7, 0xff, 0xff, 0xff]
  backed := by decide

def image : MemoryMap := ⟨[text], List.pairwise_singleton _ _⟩

def spacedPlan : Plan := ⟨⟨⟨0x1020, 4, true, some (0, 1), 8, false⟩, .relativeToBase, 0x1020, 0⟩, some 2⟩
end

theorem plan_spaced : plan checked spaced image = some (some spacedPlan) := by decide

/-- The region of the spaced table does not cover the second entry. -/
theorem spaced_table_uncovered : ¬ ∀ insns mem section_ cap alignment, Meets insns mem section_ cap alignment := by
  intro meets
  have scanned : scanFrom checked spacedPlan.shape image text.range (max 1 1) (spacedPlan.limit 512) 0 =
      some [0x1000, 0x1007] := by decide
  have fits : ScanFits spacedPlan image text.range 1 512 := scanFits_iff.mpr ⟨_, scanned⟩
  have tabled : Tabled spacedPlan image text.range 1 512 := (tabled_iff scanned).mpr (by decide)
  have stride := (table_iff plan_spaced fits).mp (meets spaced image text.range 512 1).table tabled
  exact absurd stride (by decide)

end E5r.JumpTableScan
