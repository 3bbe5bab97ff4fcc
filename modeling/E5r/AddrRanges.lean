import Mathlib.Data.Prod.Lex
import Mathlib.Data.List.TakeWhile
import E5r.MemoryModel

/-!
Lists of address ranges. Sorted ranges are coalesced into separated ones, which have an
unmarked address between any two of them, and in which one binary search finds the
range of an address.
-/
namespace E5r.AddrRanges
open SortedRecords MemoryModel

/-- Build from a start and an end, or none if the end lies before the start. -/
def AddrRange.new (start stop : ℕ) (fits : stop < 2 ^ 64) : Option AddrRange :=
  if ordered : start ≤ stop then some ⟨start, stop, ordered, fits⟩ else none

def AddrRange.isEmpty (r : AddrRange) : Bool := r.start = r.stop

/-- One range enters the merged ones, which are held backwards: it lengthens the last
    one that it touches. -/
def absorb : List AddrRange → AddrRange → List AddrRange
  | [], r => [r]
  | last :: out, r =>
    if r.start ≤ last.stop then
      if last.stop < r.stop then (AddrRange.new last.start r.stop r.fits).getD last :: out else last :: out
    else r :: last :: out

def coalesce (ranges : List AddrRange) : List AddrRange := (ranges.foldl absorb []).reverse

def rangeKey (r : AddrRange) : ℕ ×ₗ ℕ := toLex (r.start, r.stop)

/-- Sort and coalesce ranges into a disjoint list. -/
def mergeRanges (ranges : List AddrRange) : List AddrRange :=
  coalesce (sortByKey rangeKey (ranges.filter fun r => !AddrRange.isEmpty r))

/-- Some range of the list holds the address. -/
def Covers (ranges : List AddrRange) (a : ℕ) : Prop := ∃ r ∈ ranges, r.contains a = true

instance (ranges : List AddrRange) (a : ℕ) : Decidable (Covers ranges a) :=
  inferInstanceAs (Decidable (∃ r ∈ ranges, r.contains a = true))

/-- In order, with an address between any two that neither holds, and none of them empty. -/
def Separated (ranges : List AddrRange) : Prop :=
  ranges.Pairwise (fun a b => a.stop < b.start) ∧ ∀ r ∈ ranges, r.start < r.stop

/-- The range that holds an address, found at the partition point. -/
def runAt (ranges : List AddrRange) (a : ℕ) : Option AddrRange :=
  (ranges[partitionPoint (fun r => decide (r.stop ≤ a)) ranges]?).filter fun r => r.contains a

/-- Whether a range shares an address with a sorted disjoint list. -/
def overlaps (r : AddrRange) (sorted : List AddrRange) : Bool :=
  match sorted[partitionPoint (fun c => decide (c.stop ≤ r.start)) sorted]? with
  | some c => decide (c.start < r.stop)
  | none => false

theorem contains_iff {r : AddrRange} {a : ℕ} : r.contains a = true ↔ r.start ≤ a ∧ a < r.stop := by
  simp [AddrRange.contains]

theorem isEmpty_iff {r : AddrRange} : (!AddrRange.isEmpty r) = true ↔ r.start < r.stop := by
  have ordered := r.ordered
  simp only [AddrRange.isEmpty, Bool.not_eq_true', decide_eq_false_iff_not]
  omega

/-- What merging keeps true of the merged ranges, held backwards, while every range to
    come starts at `low` or after it. -/
structure Merged (out : List AddrRange) (low : ℕ) : Prop where
  separated : out.Pairwise (fun a b => b.stop < a.start)
  filled : ∀ r ∈ out, r.start < r.stop
  before : ∀ r ∈ out, r.start ≤ low

theorem lengthened {last r : AddrRange} (longer : last.stop < r.stop) :
    (AddrRange.new last.start r.stop r.fits).getD last =
      ⟨last.start, r.stop, last.ordered.trans longer.le, r.fits⟩ := by
  rw [AddrRange.new, dif_pos (last.ordered.trans longer.le)]
  rfl

theorem Merged.absorb {out : List AddrRange} {r : AddrRange} (merged : Merged out r.start) (filled : r.start < r.stop) :
    Merged (absorb out r) r.start := by
  cases out with
  | nil =>
    refine ⟨List.pairwise_singleton _ _, ?_, ?_⟩
    · rintro s member
      rwa [List.mem_singleton.mp member]
    · rintro s member
      rw [List.mem_singleton.mp member]
  | cons last out =>
    obtain ⟨separated, nonempty, before⟩ := merged
    obtain ⟨first, rest⟩ := List.pairwise_cons.mp separated
    have lastFilled := nonempty last List.mem_cons_self
    have lastBefore := before last List.mem_cons_self
    rw [AddrRanges.absorb]
    by_cases touching : r.start ≤ last.stop
    · rw [if_pos touching]
      by_cases longer : last.stop < r.stop
      · rw [if_pos longer, lengthened longer]
        refine ⟨List.pairwise_cons.mpr ⟨first, rest⟩, ?_, ?_⟩
        · intro s member
          rcases List.mem_cons.mp member with rfl | old
          · exact lastFilled.trans longer
          · exact nonempty s (List.mem_cons_of_mem _ old)
        · intro s member
          rcases List.mem_cons.mp member with rfl | old
          · exact lastBefore
          · exact before s (List.mem_cons_of_mem _ old)
      · rw [if_neg longer]
        exact ⟨separated, nonempty, before⟩
    · rw [if_neg touching]
      refine ⟨List.pairwise_cons.mpr ⟨fun s member => ?_, separated⟩, ?_, ?_⟩
      · rcases List.mem_cons.mp member with rfl | old
        · omega
        · have earlier := first s old
          omega
      · intro s member
        rcases List.mem_cons.mp member with rfl | old
        · exact filled
        · exact nonempty s old
      · intro s member
        rcases List.mem_cons.mp member with rfl | old
        · exact le_rfl
        · exact before s old

theorem covers_absorb {out : List AddrRange} {r : AddrRange} (merged : Merged out r.start) (a : ℕ) :
    Covers (absorb out r) a ↔ Covers out a ∨ r.contains a = true := by
  have ordered := r.ordered
  cases out with
  | nil => simp [absorb, Covers]
  | cons last out =>
    have before := merged.before last List.mem_cons_self
    have filled := merged.filled last List.mem_cons_self
    rw [absorb]
    by_cases touching : r.start ≤ last.stop
    · rw [if_pos touching]
      by_cases longer : last.stop < r.stop
      · rw [if_pos longer, lengthened longer]
        simp only [Covers, List.exists_mem_cons_iff, contains_iff]
        constructor
        · rintro (⟨low, high⟩ | later)
          · by_cases old : a < last.stop
            · exact .inl (.inl ⟨low, old⟩)
            · exact .inr ⟨by omega, high⟩
          · exact .inl (.inr later)
        · rintro ((⟨low, high⟩ | later) | ⟨low, high⟩)
          · exact .inl ⟨low, by omega⟩
          · exact .inr later
          · exact .inl ⟨by omega, high⟩
      · rw [if_neg longer]
        constructor
        · exact .inl
        · rintro (old | new)
          · exact old
          · rw [contains_iff] at new
            exact ⟨last, List.mem_cons_self, contains_iff.mpr ⟨by omega, by omega⟩⟩
    · rw [if_neg touching]
      simp only [Covers, List.exists_mem_cons_iff]
      exact or_comm

theorem coalesce_correct {ranges : List AddrRange} (sorted : ranges.Pairwise (fun a b => a.start ≤ b.start))
    (filled : ∀ r ∈ ranges, r.start < r.stop) :
    Separated (coalesce ranges) ∧ ∀ a, Covers (coalesce ranges) a ↔ Covers ranges a := by
  -- By induction on the ranges that are left, over every list merged so far.
  have run : ∀ (rest out : List AddrRange) (low : ℕ), Merged out low → (∀ r ∈ rest, low ≤ r.start) →
      rest.Pairwise (fun a b => a.start ≤ b.start) → (∀ r ∈ rest, r.start < r.stop) →
      (∃ high, Merged (rest.foldl absorb out) high) ∧
        ∀ a, Covers (rest.foldl absorb out) a ↔ Covers out a ∨ Covers rest a := by
    intro rest
    induction rest with
    | nil =>
      intro out low merged _ _ _
      exact ⟨⟨low, merged⟩, fun a => by simp [Covers]⟩
    | cons r rest ih =>
      intro out low merged above sorted filled
      obtain ⟨first, tail⟩ := List.pairwise_cons.mp sorted
      have low_le := above r List.mem_cons_self
      have here : Merged out r.start :=
        ⟨merged.separated, merged.filled, fun s member => (merged.before s member).trans low_le⟩
      obtain ⟨last, covered⟩ := ih (absorb out r) r.start (here.absorb (filled r List.mem_cons_self)) first tail
        (fun s member => filled s (List.mem_cons_of_mem _ member))
      refine ⟨last, fun a => ?_⟩
      rw [List.foldl_cons, covered, covers_absorb here]
      simp only [Covers, List.exists_mem_cons_iff]
      exact or_assoc
  obtain ⟨⟨high, merged⟩, covered⟩ := run ranges [] 0 ⟨.nil, by simp, by simp⟩ (fun r _ => Nat.zero_le _) sorted filled
  refine ⟨⟨List.pairwise_reverse.mpr merged.separated, fun r member => ?_⟩, fun a => ?_⟩
  · exact merged.filled r (List.mem_reverse.mp member)
  · have both := covered a
    simp only [Covers, coalesce, List.mem_reverse] at both ⊢
    simpa using both

theorem sorted_starts {ranges : List AddrRange} (sorted : Sorted rangeKey ranges) :
    ranges.Pairwise (fun a b => a.start ≤ b.start) := by
  refine List.Pairwise.imp (fun {a b} less => ?_) sorted
  rcases (Prod.Lex.le_iff).mp less with below | ⟨same, -⟩
  · exact Nat.le_of_lt below
  · exact Nat.le_of_eq same

theorem mergeRanges_correct (ranges : List AddrRange) :
    Separated (mergeRanges ranges) ∧ ∀ a, Covers (mergeRanges ranges) a ↔ Covers ranges a := by
  have sorted := sortByKey_sorted rangeKey (ranges.filter fun r => !AddrRange.isEmpty r)
  have members : ∀ r, r ∈ sortByKey rangeKey (ranges.filter fun r => !AddrRange.isEmpty r) ↔
      r ∈ ranges ∧ r.start < r.stop := by
    intro r
    rw [mem_sortByKey, List.mem_filter, isEmpty_iff]
  obtain ⟨separated, covered⟩ := coalesce_correct (sorted_starts sorted) (fun r member => ((members r).mp member).2)
  refine ⟨separated, fun a => ?_⟩
  rw [mergeRanges, covered]
  constructor
  · rintro ⟨r, member, inside⟩
    exact ⟨r, ((members r).mp member).1, inside⟩
  · rintro ⟨r, member, inside⟩
    obtain ⟨low, high⟩ := contains_iff.mp inside
    exact ⟨r, (members r).mpr ⟨member, by omega⟩, inside⟩

theorem Separated.tail {r : AddrRange} {ranges : List AddrRange} (separated : Separated (r :: ranges)) :
    Separated ranges :=
  ⟨(List.pairwise_cons.mp separated.1).2, fun s member => separated.2 s (List.mem_cons_of_mem _ member)⟩

theorem get_partitionPoint {ranges : List AddrRange} (separated : Separated ranges) (a : ℕ) (r : AddrRange) :
    ranges[partitionPoint (fun r => decide (r.stop ≤ a)) ranges]? = some r ↔
      r ∈ ranges ∧ a < r.stop ∧ ∀ s ∈ ranges, a < s.stop → r.start ≤ s.start := by
  induction ranges with
  | nil => simp [partitionPoint]
  | cons t rest ih =>
    obtain ⟨above, -⟩ := List.pairwise_cons.mp separated.1
    by_cases passed : t.stop ≤ a
    · have next : partitionPoint (fun r => decide (r.stop ≤ a)) (t :: rest) =
          partitionPoint (fun r => decide (r.stop ≤ a)) rest + 1 := by
        simp [partitionPoint, passed]
      rw [next, List.getElem?_cons_succ, ih separated.tail]
      constructor
      · rintro ⟨member, behind, least⟩
        refine ⟨List.mem_cons_of_mem _ member, behind, fun s inside later => ?_⟩
        rcases List.mem_cons.mp inside with rfl | old
        · omega
        · exact least s old later
      · rintro ⟨member, behind, least⟩
        rcases List.mem_cons.mp member with rfl | old
        · omega
        · exact ⟨old, behind, fun s inside later => least s (List.mem_cons_of_mem _ inside) later⟩
    · have here : partitionPoint (fun r => decide (r.stop ≤ a)) (t :: rest) = 0 := by
        simp [partitionPoint, passed]
      rw [here, List.getElem?_cons_zero]
      have ordered := t.ordered
      constructor
      · intro same
        obtain rfl : t = r := Option.some.inj same
        refine ⟨List.mem_cons_self, by omega, fun s inside _ => ?_⟩
        rcases List.mem_cons.mp inside with rfl | old
        · exact le_rfl
        · have later := above s old
          omega
      · rintro ⟨member, behind, least⟩
        rcases List.mem_cons.mp member with rfl | old
        · rfl
        · have later := above r old
          have first := least t List.mem_cons_self (by omega)
          omega

theorem Separated.unique {ranges : List AddrRange} (separated : Separated ranges) {r s : AddrRange} {a : ℕ}
    (first : r ∈ ranges) (second : s ∈ ranges) (inFirst : r.contains a = true) (inSecond : s.contains a = true) :
    r = s := by
  obtain ⟨low, high⟩ := contains_iff.mp inFirst
  obtain ⟨low', high'⟩ := contains_iff.mp inSecond
  induction ranges with
  | nil => cases first
  | cons t rest ih =>
    obtain ⟨above, -⟩ := List.pairwise_cons.mp separated.1
    rcases List.mem_cons.mp first with rfl | old
    · rcases List.mem_cons.mp second with rfl | old'
      · rfl
      · have later := above s old'
        omega
    · rcases List.mem_cons.mp second with rfl | old'
      · have later := above r old
        omega
      · exact ih separated.tail old old'

theorem runAt_eq_some {ranges : List AddrRange} (separated : Separated ranges) (a : ℕ) (r : AddrRange) :
    runAt ranges a = some r ↔ r ∈ ranges ∧ r.contains a = true := by
  rw [runAt, Option.filter_eq_some_iff, get_partitionPoint separated]
  constructor
  · rintro ⟨⟨member, -⟩, inside⟩
    exact ⟨member, inside⟩
  · rintro ⟨member, inside⟩
    obtain ⟨low, high⟩ := contains_iff.mp inside
    refine ⟨⟨member, high, fun s other behind => ?_⟩, inside⟩
    by_cases below : s.start ≤ a
    · rw [separated.unique member other inside (contains_iff.mpr ⟨below, behind⟩)]
    · omega

theorem overlaps_iff {ranges : List AddrRange} (separated : Separated ranges) {r : AddrRange}
    (filled : r.start < r.stop) : overlaps r ranges = true ↔ ∃ a, r.contains a = true ∧ Covers ranges a := by
  rw [overlaps]
  constructor
  · intro found
    split at found
    next c here =>
      obtain ⟨member, behind, -⟩ := (get_partitionPoint separated r.start c).mp here
      have ahead : c.start < r.stop := of_decide_eq_true found
      have nonempty := separated.2 c member
      refine ⟨max r.start c.start, contains_iff.mpr ⟨le_max_left _ _, by omega⟩, c, member, ?_⟩
      exact contains_iff.mpr ⟨le_max_right _ _, by omega⟩
    next => cases found
  · rintro ⟨a, inside, c, member, holds⟩
    obtain ⟨low, high⟩ := contains_iff.mp inside
    obtain ⟨low', high'⟩ := contains_iff.mp holds
    split
    next d here =>
      obtain ⟨-, -, least⟩ := (get_partitionPoint separated r.start d).mp here
      have first := least c member (by omega)
      exact decide_eq_true (by omega)
    next none =>
      exfalso
      have all : ∀ s ∈ ranges, s.stop ≤ r.start := by
        intro s inList
        have short := List.getElem?_eq_none_iff.mp none
        have whole : ranges.takeWhile (fun c => decide (c.stop ≤ r.start)) = ranges :=
          List.IsPrefix.eq_of_length (List.takeWhile_prefix _)
            (le_antisymm (List.takeWhile_prefix _).length_le short)
        exact of_decide_eq_true (List.takeWhile_eq_self_iff.mp whole s inList)
      have passed := all c member
      omega

/-- A run of marked addresses that is extended by neither of its neighbours. -/
structure Longest (marked : ℕ → Prop) (r : AddrRange) : Prop where
  filled : r.start < r.stop
  inside : ∀ a, r.start ≤ a → a < r.stop → marked a
  before : ∀ a, a + 1 = r.start → ¬marked a
  behind : ¬marked r.stop

variable {ranges : List AddrRange} {r s : AddrRange}

theorem longest_of_mem (separated : Separated ranges) (member : r ∈ ranges) : Longest (Covers ranges) r := by
  have symm : Std.Symm fun r s : AddrRange => r.stop < s.start ∨ s.stop < r.start := ⟨fun _ _ => Or.symm⟩
  have either : ranges.Pairwise fun r s => r.stop < s.start ∨ s.stop < r.start := separated.1.imp Or.inl
  have apart : ∀ s ∈ ranges, r ≠ s → r.stop < s.start ∨ s.stop < r.start := fun s other =>
    either.forall member other
  have filled := separated.2 r member
  refine ⟨filled, fun a low high => ⟨r, member, contains_iff.mpr ⟨low, high⟩⟩, ?_, ?_⟩
  · rintro a next ⟨s, other, holds⟩
    obtain ⟨low, high⟩ := contains_iff.mp holds
    have := apart s other (by rintro rfl; omega)
    omega
  · rintro ⟨s, other, holds⟩
    obtain ⟨low, high⟩ := contains_iff.mp holds
    have := apart s other (by rintro rfl; omega)
    omega

theorem Longest.eq {marked : ℕ → Prop} (first : Longest marked r) (second : Longest marked s) {a : ℕ}
    (inFirst : r.contains a = true) (inSecond : s.contains a = true) : r = s := by
  obtain ⟨low, high⟩ := contains_iff.mp inFirst
  obtain ⟨low', high'⟩ := contains_iff.mp inSecond
  have starts : ∀ {r s : AddrRange}, Longest marked r → Longest marked s → s.start ≤ a → a < r.stop →
      s.start ≤ r.start := by
    intro r s first second low high
    by_contra later
    exact second.before (s.start - 1) (by omega) (first.inside _ (by omega) (by omega))
  have stops : ∀ {r s : AddrRange}, Longest marked r → Longest marked s → s.start ≤ a → a < r.stop →
      s.stop ≤ r.stop := by
    intro r s first second low high
    by_contra later
    exact first.behind (second.inside _ (by omega) (by omega))
  have start := le_antisymm (starts second first low high') (starts first second low' high)
  have stop := le_antisymm (stops second first low high') (stops first second low' high)
  obtain ⟨⟩ := r
  obtain ⟨⟩ := s
  congr

theorem covers_mergeRanges (ranges : List AddrRange) : Covers (mergeRanges ranges) = Covers ranges :=
  funext fun a => propext ((mergeRanges_correct ranges).2 a)

theorem mem_mergeRanges : r ∈ mergeRanges ranges ↔ Longest (Covers ranges) r := by
  have separated := (mergeRanges_correct ranges).1
  have found : ∀ s ∈ mergeRanges ranges, Longest (Covers ranges) s := fun s member =>
    covers_mergeRanges ranges ▸ longest_of_mem separated member
  constructor
  · exact found r
  · intro longest
    obtain ⟨s, member, holds⟩ := ((mergeRanges_correct ranges).2 r.start).mpr
      (longest.inside _ le_rfl longest.filled)
    rwa [longest.eq (found s member) (contains_iff.mpr ⟨le_rfl, longest.filled⟩) holds]

/-- Merging leaves the longest runs of covered addresses, and nothing else shows in its result. -/
theorem mergeRanges_canonical (ranges others : List AddrRange) :
    (∀ r, r ∈ mergeRanges ranges ↔ Longest (Covers ranges) r) ∧
      (mergeRanges ranges = mergeRanges others ↔ ∀ a, Covers ranges a ↔ Covers others a) := by
  refine ⟨fun r => mem_mergeRanges, fun same a => ?_, fun same => ?_⟩
  · rw [← covers_mergeRanges, same, covers_mergeRanges]
  · have strict : ∀ rs, StrictlySorted AddrRange.start (mergeRanges rs) := fun rs =>
      (mergeRanges_correct rs).1.1.imp fun {a b} before => a.ordered.trans_lt before
    refine (strict ranges).ext _ (strict others) fun r => ?_
    rw [mem_mergeRanges, mem_mergeRanges, funext fun a => propext (same a)]

end E5r.AddrRanges
