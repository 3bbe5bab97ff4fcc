import Mathlib.Data.Set.Card
import Mathlib.Order.Interval.Finset.Nat
import Mathlib.Order.Interval.Set.Infinite
import E5r.AddrRanges

/-!
The map of what is known to be data. It is assembled from candidate regions, of which
those that share an address with walked code are refused, and answers its questions
from the merged list of what is left.
-/
namespace E5r.DataRegions
open SortedRecords MemoryModel AddrRanges

/-- Why a region is known to hold data. -/
inductive Proof where
  | jumpTable (branch : ℕ)
  | vtable
  | declaredObject
  | literalPool (readBy : ℕ)
  | pointer
deriving DecidableEq

/-- The derived order: by variant, then by what it carries. -/
def Proof.rank : Proof → ℕ ×ₗ ℕ
  | .jumpTable branch => toLex (0, branch)
  | .vtable => toLex (1, 0)
  | .declaredObject => toLex (2, 0)
  | .literalPool readBy => toLex (3, readBy)
  | .pointer => toLex (4, 0)

structure Region where
  range : AddrRange
  proof : Proof
deriving DecidableEq

def Region.key (r : Region) : ℕ ×ₗ ℕ ×ₗ ℕ ×ₗ ℕ := toLex (r.range.start, toLex (r.range.stop, r.proof.rank))

/-- Every region that is known to hold data. The same bytes are covered by a merged list. -/
structure DataMap where
  regions : List Region
  covered : List AddrRange
  refused : ℕ

/-- One of each run of equal elements. -/
def dedup {α : Type} [DecidableEq α] : List α → List α
  | [] => []
  | [a] => [a]
  | a :: b :: rest => if a = b then dedup (b :: rest) else a :: dedup (b :: rest)

namespace DataMap

/-- Assemble from candidate regions, refusing anything that overlaps code that was
    walked. The code is sorted and disjoint. -/
def assemble (candidates : List Region) (code : List AddrRange) : DataMap :=
  let kept := candidates.filter fun r => !AddrRange.isEmpty r.range && !overlaps r.range code
  let regions := dedup (sortByKey Region.key kept)
  { regions, covered := coalesce (regions.map Region.range), refused := candidates.length - kept.length }

def runAt (m : DataMap) (a : ℕ) : Option AddrRange := AddrRanges.runAt m.covered a

/-- Whether an address is inside a region that is known to be data. -/
def contains (m : DataMap) (a : ℕ) : Bool := (m.runAt a).isSome

/-- One past the last byte of the unbroken data run that holds an address. -/
def endOfRun (m : DataMap) (a : ℕ) : Option ℕ := (m.runAt a).map AddrRange.stop

/-- The part of a range inside another. -/
def clip (span r : AddrRange) : Option AddrRange :=
  AddrRange.new (max r.start span.start) (min r.stop span.stop) (lt_of_le_of_lt (min_le_left _ _) r.fits)

def bytes (m : DataMap) : ℕ := (m.covered.map AddrRange.len).sum % 2 ^ 64

def bytesIn (m : DataMap) (span : AddrRange) : ℕ :=
  ((m.covered.filterMap (clip span)).map AddrRange.len).sum % 2 ^ 64

end DataMap

theorem mem_dedup {α : Type} [DecidableEq α] {l : List α} {a : α} : a ∈ dedup l ↔ a ∈ l := by
  induction l with
  | nil => rfl
  | cons b rest ih =>
    cases rest with
    | nil => rfl
    | cons c rest =>
      rw [dedup]
      split
      next same =>
        subst same
        rw [ih]
        simp
      next => rw [List.mem_cons, ih, ← List.mem_cons]

theorem dedup_sublist {α : Type} [DecidableEq α] (l : List α) : (dedup l).Sublist l := by
  induction l with
  | nil => exact .slnil
  | cons b rest ih =>
    cases rest with
    | nil => exact List.Sublist.refl _
    | cons c rest =>
      rw [dedup]
      split
      · exact ih.cons b
      · exact ih.cons_cons b

theorem ncard_contains (r : AddrRange) : Set.ncard {a | r.contains a = true} = r.len := by
  have interval : {a | r.contains a = true} = ↑(Finset.Ico r.start r.stop) := by
    ext a
    simp [contains_iff]
  rw [interval, Set.ncard_coe_finset, Nat.card_Ico, AddrRange.len]

theorem finite_covers (ranges : List AddrRange) : {a | Covers ranges a}.Finite := by
  refine (Set.finite_Iio (2 ^ 64)).subset ?_
  rintro a ⟨r, -, inside⟩
  exact (contains_iff.mp inside).2.trans r.fits

/-- The lengths of ranges that follow each other count each address that they hold once. -/
theorem sum_len {ranges : List AddrRange} (ordered : ranges.Pairwise (fun a b => a.stop ≤ b.start)) :
    (ranges.map AddrRange.len).sum = Set.ncard {a | Covers ranges a} := by
  induction ranges with
  | nil => simp [Covers]
  | cons r rest ih =>
    obtain ⟨first, tail⟩ := List.pairwise_cons.mp ordered
    have split : {a | Covers (r :: rest) a} = {a | r.contains a = true} ∪ {a | Covers rest a} := by
      ext a
      simp [Covers]
    have apart : Disjoint {a | r.contains a = true} {a | Covers rest a} := by
      rw [Set.disjoint_left]
      rintro a inside ⟨s, member, other⟩
      have later := first s member
      have here := (contains_iff.mp inside).2
      have there := (contains_iff.mp other).1
      omega
    have finite : {a | r.contains a = true}.Finite :=
      (finite_covers [r]).subset fun a inside => ⟨r, List.mem_singleton_self r, inside⟩
    rw [List.map_cons, List.sum_cons, ih tail, split, Set.ncard_union_eq apart finite (finite_covers rest),
      ncard_contains]

variable {marked : ℕ → Prop}

theorem ncard_small (small : ∀ a, marked a → a < 2 ^ 64 - 1) : Set.ncard {a | marked a} < 2 ^ 64 := by
  have below : {a | marked a} ⊆ ↑(Finset.range (2 ^ 64 - 1)) := by
    intro a inside
    simpa using small a inside
  have few := Set.ncard_le_ncard below (Finset.finite_toSet _)
  rw [Set.ncard_coe_finset, Finset.card_range] at few
  omega

theorem covers_small {ranges : List AddrRange} {a : ℕ} (covered : Covers ranges a) : a < 2 ^ 64 - 1 := by
  obtain ⟨r, -, inside⟩ := covered
  have below := (contains_iff.mp inside).2
  have fits := r.fits
  omega

theorem contains_clip {span r s : AddrRange} (cut : DataMap.clip span r = some s) (a : ℕ) :
    s.contains a = true ↔ r.contains a = true ∧ span.contains a = true := by
  rw [DataMap.clip, AddrRange.new] at cut
  split at cut
  · obtain rfl := Option.some.inj cut
    simp only [contains_iff, max_le_iff, lt_min_iff]
    tauto
  · cases cut

/-- A range of which nothing lies inside the other may be left out of it. -/
theorem clip_none {span r : AddrRange} (none_ : DataMap.clip span r = none) (a : ℕ) :
    ¬(r.contains a = true ∧ span.contains a = true) := by
  rintro ⟨first, second⟩
  obtain ⟨low, high⟩ := contains_iff.mp first
  obtain ⟨low', high'⟩ := contains_iff.mp second
  rw [DataMap.clip, AddrRange.new, dif_pos (by omega)] at none_
  cases none_

theorem covers_clip (ranges : List AddrRange) (span : AddrRange) (a : ℕ) :
    Covers (ranges.filterMap (DataMap.clip span)) a ↔ Covers ranges a ∧ span.contains a = true := by
  constructor
  · rintro ⟨s, member, inside⟩
    obtain ⟨r, source, cut⟩ := List.mem_filterMap.mp member
    obtain ⟨first, second⟩ := (contains_clip cut a).mp inside
    exact ⟨⟨r, source, first⟩, second⟩
  · rintro ⟨⟨r, source, first⟩, second⟩
    cases cut : DataMap.clip span r with
    | none => exact absurd ⟨first, second⟩ (clip_none cut a)
    | some s => exact ⟨s, List.mem_filterMap.mpr ⟨r, source, cut⟩, (contains_clip cut a).mpr ⟨first, second⟩⟩

theorem clip_ordered {ranges : List AddrRange} (ordered : ranges.Pairwise (fun a b => a.stop ≤ b.start))
    (span : AddrRange) : (ranges.filterMap (DataMap.clip span)).Pairwise (fun a b => a.stop ≤ b.start) := by
  refine List.Pairwise.filterMap _ ?_ ordered
  intro r s before r' cut s' cut'
  rw [DataMap.clip, AddrRange.new] at cut cut'
  split at cut
  · split at cut'
    · obtain rfl := Option.some.inj cut
      obtain rfl := Option.some.inj cut'
      exact (min_le_left _ _).trans (before.trans (le_max_left _ _))
    · cases cut'
  · cases cut

/-- Some candidate that shares no address with the code holds the address. -/
def Marked (candidates : List Region) (code : List AddrRange) (a : ℕ) : Prop :=
  ∃ r ∈ candidates, r.range.contains a = true ∧
    ∀ c ∈ code, ∀ b, ¬(r.range.contains b = true ∧ c.contains b = true)

/-- A map whose merged list is separated and covers what is marked. -/
structure Holds (m : DataMap) (marked : ℕ → Prop) : Prop where
  separated : Separated m.covered
  covers : ∀ a, Covers m.covered a ↔ marked a

theorem mem_regions {candidates : List Region} {code : List AddrRange} {r : Region} :
    r ∈ (DataMap.assemble candidates (mergeRanges code)).regions ↔
      r ∈ candidates ∧ r.range.start < r.range.stop ∧
        ∀ c ∈ code, ∀ b, ¬(r.range.contains b = true ∧ c.contains b = true) := by
  obtain ⟨apart, codeCovered⟩ := mergeRanges_correct code
  rw [DataMap.assemble, mem_dedup, mem_sortByKey, List.mem_filter, Bool.and_eq_true, AddrRanges.isEmpty_iff]
  refine and_congr_right fun _ => and_congr_right fun filled => ?_
  rw [Bool.not_eq_true', ← Bool.not_eq_true, overlaps_iff apart filled]
  constructor
  · rintro free c inCode b ⟨inside, holds⟩
    exact free ⟨b, inside, (codeCovered b).mpr ⟨c, inCode, holds⟩⟩
  · rintro free ⟨b, inside, covered⟩
    obtain ⟨c, inCode, holds⟩ := (codeCovered b).mp covered
    exact free c inCode b ⟨inside, holds⟩

theorem covered_regions (candidates : List Region) (code : List AddrRange) :
    let m := DataMap.assemble candidates (mergeRanges code)
    Separated m.covered ∧ ∀ a, Covers m.covered a ↔ ∃ r ∈ m.regions, r.range.contains a = true := by
  intro m
  have sorted : (m.regions.map Region.range).Pairwise (fun a b => a.start ≤ b.start) := by
    refine List.pairwise_map.mpr (List.Pairwise.sublist (dedup_sublist _) ?_)
    refine List.Pairwise.imp (fun {a b} less => ?_) (sortByKey_sorted Region.key _)
    rcases (Prod.Lex.le_iff).mp less with below | ⟨same, -⟩
    · exact Nat.le_of_lt below
    · exact Nat.le_of_eq same
  have filled : ∀ r ∈ m.regions.map Region.range, r.start < r.stop := by
    intro r inRegions
    obtain ⟨region, inside, rfl⟩ := List.mem_map.mp inRegions
    exact (mem_regions.mp inside).2.1
  obtain ⟨separated, covered⟩ := coalesce_correct sorted filled
  refine ⟨separated, fun a => (covered a).trans ?_⟩
  simp [Covers]

theorem assemble_holds (candidates : List Region) (code : List AddrRange) :
    Holds (DataMap.assemble candidates (mergeRanges code)) (Marked candidates code) := by
  obtain ⟨separated, covered⟩ := covered_regions candidates code
  refine ⟨separated, fun a => (covered a).trans ?_⟩
  constructor
  · rintro ⟨region, inside, holds⟩
    obtain ⟨candidate, -, free⟩ := mem_regions.mp inside
    exact ⟨region, candidate, holds, free⟩
  · rintro ⟨region, candidate, holds, free⟩
    obtain ⟨low, high⟩ := contains_iff.mp holds
    exact ⟨region, mem_regions.mpr ⟨candidate, by omega, free⟩, holds⟩

theorem Holds.contains_iff {m : DataMap} (holds : Holds m marked) (a : ℕ) : m.contains a = true ↔ marked a := by
  rw [DataMap.contains, Option.isSome_iff_exists, ← holds.covers]
  constructor
  · rintro ⟨r, found⟩
    exact ⟨r, (runAt_eq_some holds.separated a r).mp found⟩
  · rintro ⟨r, inside⟩
    exact ⟨r, (runAt_eq_some holds.separated a r).mpr inside⟩

theorem Holds.endOfRun_iff {m : DataMap} (holds : Holds m marked) (a stop : ℕ) :
    m.endOfRun a = some stop ↔ marked a ∧ IsLeast {b | a < b ∧ ¬marked b} stop := by
  have ends : ∀ r ∈ m.covered, r.contains a = true → IsLeast {b | a < b ∧ ¬marked b} r.stop := by
    intro r member inside
    obtain ⟨low, high⟩ := AddrRanges.contains_iff.mp inside
    constructor
    · refine ⟨high, fun marked => ?_⟩
      obtain ⟨s, other, holdsStop⟩ := (holds.covers _).mpr marked
      obtain ⟨low', high'⟩ := AddrRanges.contains_iff.mp holdsStop
      -- A range that holds the end of another would touch it.
      by_cases same : r = s
      · subst same
        omega
      · rcases List.pairwise_iff_get.mp holds.separated.1 with separated
        obtain ⟨i, rfl⟩ := List.mem_iff_get.mp member
        obtain ⟨j, rfl⟩ := List.mem_iff_get.mp other
        rcases lt_trichotomy i j with before | equal | after
        · have gap := separated i j before
          omega
        · exact same (by rw [equal])
        · have gap := separated j i after
          omega
    · rintro b ⟨behind, unmarked⟩
      by_contra inRun
      exact unmarked ((holds.covers b).mp ⟨r, member, AddrRanges.contains_iff.mpr ⟨by omega, by omega⟩⟩)
  rw [DataMap.endOfRun, Option.map_eq_some_iff]
  constructor
  · rintro ⟨r, found, rfl⟩
    obtain ⟨member, inside⟩ := (runAt_eq_some holds.separated a r).mp found
    exact ⟨(holds.covers a).mp ⟨r, member, inside⟩, ends r member inside⟩
  · rintro ⟨marked, least⟩
    obtain ⟨r, member, inside⟩ := (holds.covers a).mpr marked
    exact ⟨r, (runAt_eq_some holds.separated a r).mpr ⟨member, inside⟩, (ends r member inside).unique least⟩

theorem Separated.follows {ranges : List AddrRange} (separated : Separated ranges) :
    ranges.Pairwise (fun a b => a.stop ≤ b.start) := separated.1.imp Nat.le_of_lt

theorem Holds.bytes_eq {m : DataMap} (holds : Holds m marked) : m.bytes = Set.ncard {a | marked a} := by
  have same : {a | Covers m.covered a} = {a | marked a} := Set.ext fun a => holds.covers a
  have small := ncard_small fun a (covered : Covers m.covered a) => covers_small covered
  rw [DataMap.bytes, sum_len (Separated.follows holds.separated), Nat.mod_eq_of_lt small, same]

theorem Holds.bytesIn_eq {m : DataMap} (holds : Holds m marked) (span : AddrRange) :
    m.bytesIn span = Set.ncard {a | marked a ∧ span.contains a = true} := by
  have same : {a | Covers (m.covered.filterMap (DataMap.clip span)) a} = {a | marked a ∧ span.contains a = true} := by
    ext a
    rw [Set.mem_ofPred_eq, covers_clip, holds.covers]
    rfl
  have small := ncard_small fun a (covered : Covers (m.covered.filterMap (DataMap.clip span)) a) => covers_small covered
  rw [DataMap.bytesIn, sum_len (clip_ordered (Separated.follows holds.separated) span), Nat.mod_eq_of_lt small, same]

/-- A map built from candidates and code marks the bytes of the candidates that share
    none with the code, and every question about it is answered for exactly these. -/
theorem assemble_correct (candidates : List Region) (code : List AddrRange) :
    let m := DataMap.assemble candidates (mergeRanges code)
    let marked := Marked candidates code
    (∀ a, m.contains a = true ↔ marked a) ∧
    (∀ a stop, m.endOfRun a = some stop ↔ marked a ∧ IsLeast {b | a < b ∧ ¬marked b} stop) ∧
    m.bytes = Set.ncard {a | marked a} ∧
    (∀ span, m.bytesIn span = Set.ncard {a | marked a ∧ span.contains a = true}) ∧
    ∀ c ∈ code, ∀ a, c.contains a = true → m.contains a = false := by
  intro m marked
  have holds := assemble_holds candidates code
  refine ⟨holds.contains_iff, holds.endOfRun_iff, holds.bytes_eq, holds.bytesIn_eq, fun c inCode a inside => ?_⟩
  rw [← Bool.not_eq_true, holds.contains_iff]
  rintro ⟨r, -, held, free⟩
  exact free c inCode a ⟨held, inside⟩

end E5r.DataRegions
