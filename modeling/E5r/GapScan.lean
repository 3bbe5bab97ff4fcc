import E5r.Cursor
import E5r.DataRegions
import E5r.StridedScan

/-!
The scan for function prologues in executable bytes that no function covers. It walks
the gaps between the known blocks of each executable segment with a cursor that wraps
at the top of the address space, so it ends, and reports what it should, exactly when
no address that it looks at leads it there.
-/
namespace E5r.GapScan
open SortedRecords MemoryModel AddrRanges DataRegions StridedScan
open Cursor (leNat)

inductive Arch where
  | aarch64 | thumb | other
deriving DecidableEq

/-- The stride of the scan, on the two architectures that it scans. -/
def Arch.step : Arch → Option ℕ
  | .aarch64 => some 4
  | .thumb => some 2
  | .other => none

/-! ### Prologues -/

/-- File-backed bytes of a segment, or none if any would come from the zero tail. -/
def sliceSegment (s : Segment) (addr len : ℕ) : Option (List UInt8) :=
  if s.range.start ≤ addr ∧ addr - s.range.start + len < 2 ^ 64 ∧ addr - s.range.start + len ≤ s.data.length then
    some ((s.data.drop (addr - s.range.start)).take len)
  else none

def slice (mem : MemoryMap) (addr len : ℕ) : Option (List UInt8) :=
  (mem.segmentAt addr).bind fun s => sliceSegment s addr len

/-- The start of a Thumb function: a push of the link register, narrow or wide. -/
def isThumbPrologue (mem : MemoryMap) (at_ : ℕ) : Bool :=
  match slice mem at_ 2 with
  | none => false
  | some w =>
    let half := BitVec.ofNat 16 (leNat w)
    if half &&& 0xff00 = 0xb500 then true
    else
      match slice mem at_ 4 with
      | none => false
      | some w =>
        let hi := BitVec.ofNat 16 (leNat (w.take 2))
        let lo := BitVec.ofNat 16 (leNat (w.drop 2))
        decide (hi = 0xe92d) && decide (lo &&& 0x4000 ≠ 0)

def isPrologue (mem : MemoryMap) (arch : Arch) (at_ : ℕ) : Bool :=
  if arch = .thumb then isThumbPrologue mem at_
  else
    match slice mem at_ 4 with
    | none => false
    | some w =>
      let word := BitVec.ofNat 32 (leNat w)
      let stpFrame := decide (word &&& 0xffc07fff = 0xa9807bfd)
      let pac := decide (word = 0xd503233f) || decide (word = 0xd503237f)
      let bti := decide (word = 0xd503245f) || decide (word = 0xd503247f)
      let subSp := decide (word &&& 0xffc003ff = 0xd10003ff)
      stpFrame || pac || bti || subSp

/-! ### Gaps -/

/-- The parts of `span` from an address on that a sorted disjoint list leaves. -/
def gapsFrom (span : AddrRange) : ℕ → List AddrRange → List AddrRange
  | at_, [] => if at_ < span.stop then (AddrRange.new at_ span.stop span.fits).toList else []
  | at_, r :: rest =>
    if span.stop ≤ r.start then
      if at_ < span.stop then (AddrRange.new at_ span.stop span.fits).toList else []
    else
      (if at_ < r.start then
        ((AddrRange.new at_ (min r.start span.stop) (lt_of_le_of_lt (min_le_right _ _) span.fits)).filter
          fun g => !AddrRange.isEmpty g).toList
      else []) ++ gapsFrom span (max at_ r.stop) rest

/-- The parts of `span` that `covered` does not cover. -/
def gapsIn (span : AddrRange) (covered : List AddrRange) : List AddrRange :=
  gapsFrom span span.start (covered.drop (partitionPoint (fun r => decide (r.stop ≤ span.start)) covered))

/-! ### The scan -/

/-- The stride, the covered ranges, the data and the prologues of one scan. -/
structure Setting where
  step : ℕ
  covered : List AddrRange
  data : DataMap
  prologue : ℕ → Bool

variable (s : Setting) (cap : ℕ)

def scanGapList (fuel : ℕ) : List AddrRange → List ℕ → Scan
  | [], out => .done out
  | gap :: rest, out =>
    match scanFrom s.step s.data.endOfRun s.prologue gap.stop fuel gap.start out with
    | .done out => scanGapList fuel rest out
    | other => other

/-- The executable segments one after another, until more is found than the cap allows. -/
def scanSegments (fuel : ℕ) : List Segment → List ℕ → Scan
  | [], out => .done out
  | seg :: rest, out =>
    if seg.perms.exec = true then
      match scanGapList s fuel (gapsIn seg.range s.covered) out with
      | .done out => if cap < out.length then .done out else scanSegments fuel rest out
      | other => other
    else scanSegments fuel rest out

/-- Look for function prologues in executable bytes that no function covers. The known
    functions are given by the ranges of their blocks. -/
def scanGaps (fuel : ℕ) (arch : Arch) (mem : MemoryMap) (known : List (List AddrRange)) (cap : ℕ) (data : DataMap) :
    Scan :=
  match arch.step with
  | none => .done []
  | some step =>
    match scanSegments ⟨step, mergeRanges known.flatten, data, isPrologue mem arch⟩ cap fuel mem.segments [] with
    | .done out => .done (dedup (sortByKey id out))
    | other => other

/-! ### What gaps hold -/

theorem mem_new {start stop : ℕ} {fits : stop < 2 ^ 64} {g : AddrRange}
    (made : g ∈ (AddrRange.new start stop fits).toList) : g.start = start ∧ g.stop = stop := by
  rw [AddrRange.new] at made
  split at made
  · obtain rfl : g = _ := by simpa using made
    exact ⟨rfl, rfl⟩
  · cases made

theorem gapsFrom_free (span : AddrRange) {covered : List AddrRange} (separated : Separated covered) {at_ : ℕ} {g : AddrRange}
    (member : g ∈ gapsFrom span at_ covered) {a : ℕ} (inside : g.contains a = true) :
    at_ ≤ a ∧ a < span.stop ∧ ∀ r ∈ covered, r.contains a = false := by
  obtain ⟨low, high⟩ := contains_iff.mp inside
  induction covered generalizing at_ with
  | nil =>
    rw [gapsFrom] at member
    split at member
    · obtain ⟨first, last⟩ := mem_new member
      exact ⟨by omega, by omega, by simp⟩
    · cases member
  | cons r rest ih =>
    obtain ⟨above, -⟩ := List.pairwise_cons.mp separated.1
    have outside : a < r.start → ∀ t ∈ r :: rest, t.contains a = false := by
      intro before t inList
      rw [← Bool.not_eq_true, contains_iff]
      rintro ⟨from_, -⟩
      have ordered := r.ordered
      rcases List.mem_cons.mp inList with rfl | later
      · omega
      · have far := above t later
        omega
    rw [gapsFrom] at member
    split at member
    next =>
      split at member
      · obtain ⟨first, last⟩ := mem_new member
        exact ⟨by omega, by omega, outside (by omega)⟩
      · cases member
    next =>
      rcases List.mem_append.mp member with here | later
      · split at here
        · have made : g ∈ (AddrRange.new at_ (min r.start span.stop)
              (lt_of_le_of_lt (min_le_right _ _) span.fits)).toList := by
            obtain ⟨kept, -⟩ := Option.filter_eq_some_iff.mp (Option.mem_toList.mp here)
            exact Option.mem_toList.mpr kept
          obtain ⟨first, last⟩ := mem_new made
          exact ⟨by omega, by omega, outside (by omega)⟩
        · cases here
      · obtain ⟨from_, below, free⟩ := ih separated.tail later
        refine ⟨by omega, below, fun t inList => ?_⟩
        rcases List.mem_cons.mp inList with rfl | old
        · rw [← Bool.not_eq_true, contains_iff]
          omega
        · exact free t old

theorem gapsIn_free {span : AddrRange} {covered : List AddrRange} (separated : Separated covered) {g : AddrRange}
    (member : g ∈ gapsIn span covered) {a : ℕ} (inside : g.contains a = true) :
    span.contains a = true ∧ ¬Covers covered a := by
  obtain ⟨rest, whole⟩ := List.takeWhile_prefix (l := covered) (fun r => decide (r.stop ≤ span.start))
  have passed : ∀ r ∈ covered.takeWhile (fun r => decide (r.stop ≤ span.start)), r.stop ≤ span.start :=
    fun r early => of_decide_eq_true (List.mem_takeWhile_imp (p := fun r : AddrRange => decide (r.stop ≤ span.start)) early)
  rw [gapsIn, partitionPoint] at member
  generalize covered.takeWhile (fun r => decide (r.stop ≤ span.start)) = first at member whole passed
  subst whole
  rw [List.drop_left] at member
  have later : Separated rest :=
    ⟨(List.pairwise_append.mp separated.1).2.1, fun r inRest => separated.2 r (List.mem_append_right _ inRest)⟩
  obtain ⟨low, high, free⟩ := gapsFrom_free span later member inside
  refine ⟨contains_iff.mpr ⟨low, high⟩, ?_⟩
  rintro ⟨r, inList, holds⟩
  rcases List.mem_append.mp inList with early | late
  · have behind := (contains_iff.mp holds).2
    have before := passed r early
    omega
  · rw [free r late] at holds
    cases holds

/-! ### Whole scans -/

/-- What the scan reports from one segment's gaps. -/
def FoundIn (gap : AddrRange) : ℕ → Prop := Found s.step s.data.endOfRun s.prologue gap.stop gap.start

/-- No address that the scan of a gap looks at leads it past the top of the address space. -/
def GapPasses (gap : AddrRange) : Prop :=
  ∀ a, Grid s.step s.data.endOfRun gap.start a → a < gap.stop → Passes s.step s.data.endOfRun a

/-- How many prologues the scan finds in a segment. -/
noncomputable def hits (seg : Segment) : ℕ :=
  ((gapsIn seg.range s.covered).map fun gap => Set.ncard {a | FoundIn s gap a}).sum

/-- The same of every executable segment that comes before the cap is passed. -/
def SegmentsPass (segments : List Segment) (found : ℕ) : Prop :=
  ∀ before seg after, segments = before ++ seg :: after → seg.perms.exec = true →
    found + ((before.filter fun t => t.perms.exec).map (hits s)).sum ≤ cap →
      ∀ gap ∈ gapsIn seg.range s.covered, GapPasses s gap

variable {s cap} {fuel : ℕ}

theorem scanGap_done (even : Stride s.step) (runs : Runs s.data.endOfRun) (enough : 2 ^ 64 ≤ fuel) {gap : AddrRange}
    (passes : GapPasses s gap) (out : List ℕ) :
    ∃ more, scanFrom s.step s.data.endOfRun s.prologue gap.stop fuel gap.start out = .done (out ++ more) ∧
      more.length = Set.ncard {a | FoundIn s gap a} ∧ ∀ a ∈ more, FoundIn s gap a := by
  have fits := gap.fits
  obtain ⟨more, ends, ordered, member⟩ := @scanFrom_done s.step s.data.endOfRun s.prologue gap.stop gap.start even
    runs fits fuel gap.start out (show gap.stop - gap.start < fuel by omega) (grid_start _ _ _) (fun a onGrid _ below => passes a onGrid below)
  refine ⟨more, ends, ?_, fun a inMore => ((member a).mp inMore).2⟩
  have distinct : more.Nodup := ordered.imp Nat.ne_of_lt
  have same : {a | FoundIn s gap a} = ↑more.toFinset := by
    ext a
    simp only [Set.mem_ofPred_eq, Finset.mem_coe, List.mem_toFinset, member]
    exact ⟨fun found => ⟨found.1.1, found⟩, fun both => both.2⟩
  rw [same, Set.ncard_coe_finset, List.toFinset_card_of_nodup distinct]

theorem scanGapList_done (even : Stride s.step) (runs : Runs s.data.endOfRun) (enough : 2 ^ 64 ≤ fuel)
    {gaps : List AddrRange} (passes : ∀ gap ∈ gaps, GapPasses s gap) (out : List ℕ) :
    ∃ more, scanGapList s fuel gaps out = .done (out ++ more) ∧
      more.length = (gaps.map fun gap => Set.ncard {a | FoundIn s gap a}).sum ∧
      ∀ a ∈ more, ∃ gap ∈ gaps, FoundIn s gap a := by
  induction gaps generalizing out with
  | nil => exact ⟨[], by rw [scanGapList, List.append_nil], rfl, by simp⟩
  | cons gap rest ih =>
    obtain ⟨first, ends, few, member⟩ := scanGap_done even runs enough (passes gap List.mem_cons_self) out
    obtain ⟨more, ends', few', member'⟩ := ih (fun g inRest => passes g (List.mem_cons_of_mem _ inRest)) (out ++ first)
    refine ⟨first ++ more, ?_, ?_, fun a inBoth => ?_⟩
    · simp only [scanGapList, ends, ends', List.append_assoc]
    · rw [List.length_append, few, few', List.map_cons, List.sum_cons]
    · rcases List.mem_append.mp inBoth with early | late
      · exact ⟨gap, List.mem_cons_self, member a early⟩
      · obtain ⟨g, inRest, found⟩ := member' a late
        exact ⟨g, List.mem_cons_of_mem _ inRest, found⟩

theorem scanGapList_endless (even : Stride s.step) (runs : Runs s.data.endOfRun) {gaps : List AddrRange}
    (wraps : ¬∀ gap ∈ gaps, GapPasses s gap) (out found : List ℕ) : scanGapList s fuel gaps out ≠ .done found := by
  induction gaps generalizing out with
  | nil => exact absurd (fun gap inNone => by cases inNone) wraps
  | cons gap rest ih =>
    rw [scanGapList]
    by_cases here : GapPasses s gap
    · have later : ¬∀ gap ∈ rest, GapPasses s gap := fun all =>
        wraps (List.forall_mem_cons.mpr ⟨here, all⟩)
      cases first : scanFrom s.step s.data.endOfRun s.prologue gap.stop fuel gap.start out with
      | done more => exact ih later more
      | running => exact Scan.noConfusion
      | overflow => exact Scan.noConfusion
    · obtain ⟨a, onGrid, below, past⟩ : ∃ a, Grid s.step s.data.endOfRun gap.start a ∧ a < gap.stop ∧
          ¬Passes s.step s.data.endOfRun a := by
        simpa [GapPasses] using here
      cases first : scanFrom s.step s.data.endOfRun s.prologue gap.stop fuel gap.start out with
      | done more =>
        exact absurd first (scanFrom_endless even runs gap.fits onGrid below past (grid_start _ _ _) onGrid.1 fuel out more)
      | running => exact Scan.noConfusion
      | overflow => exact Scan.noConfusion

theorem scanSegments_spec (even : Stride s.step) (runs : Runs s.data.endOfRun) (enough : 2 ^ 64 ≤ fuel)
    (segments : List Segment) (out : List ℕ) (few : out.length ≤ cap) :
    (SegmentsPass s cap segments out.length → ∃ more, scanSegments s cap fuel segments out = .done (out ++ more) ∧
      ∀ a ∈ more, ∃ seg ∈ segments, seg.perms.exec = true ∧ ∃ gap ∈ gapsIn seg.range s.covered, FoundIn s gap a) ∧
    (¬SegmentsPass s cap segments out.length → ∀ found, scanSegments s cap fuel segments out ≠ .done found) := by
  induction segments generalizing out with
  | nil =>
    constructor
    · intro _
      exact ⟨[], by rw [scanSegments, List.append_nil], by simp⟩
    · intro blocked
      refine absurd (fun before seg after whole => ?_) blocked
      exact absurd whole.symm (List.append_ne_nil_of_right_ne_nil _ (List.cons_ne_nil _ _))
  | cons seg rest ih =>
    by_cases exec : seg.perms.exec = true
    · -- What the segments behind this one need, once it is scanned.
      have later : ∀ more : List ℕ, more.length = hits s seg →
          (SegmentsPass s cap (seg :: rest) out.length ↔
            (∀ gap ∈ gapsIn seg.range s.covered, GapPasses s gap) ∧
              (SegmentsPass s cap rest (out ++ more).length)) := by
        intro more count
        constructor
        · intro all
          refine ⟨all [] seg rest rfl exec (by simpa using few), fun before t after whole exec' room => ?_⟩
          refine all (seg :: before) t after (by rw [whole, List.cons_append]) exec' ?_
          rw [List.filter_cons_of_pos (by simpa using exec), List.map_cons, List.sum_cons]
          rw [List.length_append, count] at room
          omega
        · rintro ⟨here, behind⟩ before t after whole exec' room
          cases before with
          | nil =>
            obtain ⟨rfl, rfl⟩ := List.cons_eq_cons.mp whole
            exact here
          | cons u before =>
            obtain ⟨rfl, rfl⟩ := List.cons_eq_cons.mp whole
            refine behind before t after rfl exec' ?_
            rw [List.filter_cons_of_pos (by simpa using exec), List.map_cons, List.sum_cons] at room
            rw [List.length_append, count]
            omega
      by_cases here : ∀ gap ∈ gapsIn seg.range s.covered, GapPasses s gap
      · obtain ⟨more, ends, count, member⟩ := scanGapList_done even runs enough here out
        have next := later more count
        have inSegment : ∀ a ∈ more, ∃ t ∈ seg :: rest, t.perms.exec = true ∧
            ∃ gap ∈ gapsIn t.range s.covered, FoundIn s gap a := fun a inMore =>
          ⟨seg, List.mem_cons_self, exec, member a inMore⟩
        by_cases full : cap < (out ++ more).length
        · constructor
          · intro _
            refine ⟨more, ?_, inSegment⟩
            rw [scanSegments, if_pos exec, ends]
            exact if_pos full
          · intro blocked
            refine absurd (next.mpr ⟨here, fun before t after _ _ room => ?_⟩) blocked
            omega
        · obtain ⟨passes, blocks⟩ := ih (out ++ more) (Nat.not_lt.mp full)
          constructor
          · intro all
            obtain ⟨tail, ends', member'⟩ := passes (next.mp all).2
            refine ⟨more ++ tail, ?_, fun a inBoth => ?_⟩
            · rw [scanSegments, if_pos exec, ends]
              show (if cap < (out ++ more).length then _ else _) = _
              rw [if_neg full, ends', List.append_assoc]
            · rcases List.mem_append.mp inBoth with early | late
              · exact inSegment a early
              · obtain ⟨t, inRest, found⟩ := member' a late
                exact ⟨t, List.mem_cons_of_mem _ inRest, found⟩
          · intro blocked found
            have behind : ¬SegmentsPass s cap rest (out ++ more).length := fun all => blocked (next.mpr ⟨here, all⟩)
            rw [scanSegments, if_pos exec, ends]
            show (if cap < (out ++ more).length then _ else _) ≠ _
            rw [if_neg full]
            exact blocks behind found
      · constructor
        · intro all
          exact absurd (all [] seg rest rfl exec (by simpa using few)) here
        · intro _ found
          rw [scanSegments, if_pos exec]
          cases first : scanGapList s fuel (gapsIn seg.range s.covered) out with
          | done more => exact absurd first (scanGapList_endless even runs here out more)
          | running => exact Scan.noConfusion
          | overflow => exact Scan.noConfusion
    · have skip : SegmentsPass s cap (seg :: rest) out.length ↔ SegmentsPass s cap rest out.length := by
        constructor
        · intro all before t after whole exec' room
          refine all (seg :: before) t after (by rw [whole, List.cons_append]) exec' ?_
          rwa [List.filter_cons_of_neg (by simpa using exec)]
        · intro all before t after whole exec' room
          cases before with
          | nil =>
            obtain ⟨rfl, rfl⟩ := List.cons_eq_cons.mp whole
            exact absurd exec' exec
          | cons u before =>
            obtain ⟨rfl, rfl⟩ := List.cons_eq_cons.mp whole
            rw [List.filter_cons_of_neg (by simpa using exec)] at room
            exact all before t after rfl exec' room
      rw [skip, scanSegments, if_neg exec]
      obtain ⟨passes, blocks⟩ := ih out few
      refine ⟨fun all => ?_, blocks⟩
      obtain ⟨more, ends, member⟩ := passes all
      refine ⟨more, ends, fun a inMore => ?_⟩
      obtain ⟨t, inRest, found⟩ := member a inMore
      exact ⟨t, List.mem_cons_of_mem _ inRest, found⟩

/-! ### More fuel -/

theorem scanFrom_more {step stop x : ℕ} {run : ℕ → Option ℕ} {hit : ℕ → Bool} {fuel fuel' : ℕ} {out found : List ℕ}
    (more : fuel ≤ fuel') (ends : scanFrom step run hit stop fuel x out = .done found) :
    scanFrom step run hit stop fuel' x out = .done found := by
  induction fuel generalizing fuel' x out with
  | zero =>
    rw [scanFrom] at ends
    cases ends
  | succ fuel ih =>
    obtain ⟨k, rfl⟩ : ∃ k, fuel' = k + 1 := ⟨fuel' - 1, by omega⟩
    rw [scanFrom] at ends ⊢
    by_cases inside : x < stop
    · rw [if_pos inside] at ends ⊢
      cases met : run x with
      | none =>
        simp only [met] at ends ⊢
        exact ih (by omega) ends
      | some last =>
        simp only [met] at ends ⊢
        cases next : nextMultipleOf last step with
        | none =>
          simp only [next] at ends
          cases ends
        | some past =>
          simp only [next] at ends ⊢
          exact ih (by omega) ends
    · rw [if_neg inside] at ends ⊢
      exact ends

theorem scanGapList_more {fuel fuel' : ℕ} (more : fuel ≤ fuel') {gaps : List AddrRange} {out found : List ℕ}
    (ends : scanGapList s fuel gaps out = .done found) : scanGapList s fuel' gaps out = .done found := by
  induction gaps generalizing out with
  | nil => exact ends
  | cons gap rest ih =>
    rw [scanGapList] at ends ⊢
    cases first : scanFrom s.step s.data.endOfRun s.prologue gap.stop fuel gap.start out with
    | done next =>
      rw [first] at ends
      rw [scanFrom_more more first]
      exact ih ends
    | running =>
      rw [first] at ends
      cases ends
    | overflow =>
      rw [first] at ends
      cases ends

theorem scanSegments_more {fuel fuel' : ℕ} (more : fuel ≤ fuel') {segments : List Segment} {out found : List ℕ}
    (ends : scanSegments s cap fuel segments out = .done found) : scanSegments s cap fuel' segments out = .done found := by
  induction segments generalizing out with
  | nil => exact ends
  | cons seg rest ih =>
    rw [scanSegments] at ends ⊢
    by_cases exec : seg.perms.exec = true
    · rw [if_pos exec] at ends ⊢
      cases first : scanGapList s fuel (gapsIn seg.range s.covered) out with
      | done next =>
        rw [first] at ends
        rw [scanGapList_more more first]
        by_cases full : cap < next.length
        · simp only [if_pos full] at ends ⊢
          exact ends
        · simp only [if_neg full] at ends ⊢
          exact ih ends
      | running =>
        rw [first] at ends
        cases ends
      | overflow =>
        rw [first] at ends
        cases ends
    · rw [if_neg exec] at ends ⊢
      exact ih ends

/-! ### The reports -/

/-- Every reported address is in an executable segment, in no known block and in no data
    region, and the reports are in increasing order. -/
def Reports (mem : MemoryMap) (known : List (List AddrRange)) (data : DataMap) (found : List ℕ) : Prop :=
  found.Pairwise (· < ·) ∧ ∀ a ∈ found,
    (∃ seg ∈ mem.segments, seg.perms.exec = true ∧ seg.range.contains a = true) ∧
    (∀ blocks ∈ known, ∀ b ∈ blocks, b.contains a = false) ∧
    ∀ r ∈ data.regions, r.range.contains a = false

/-- The scan ends without an overflow and reports only what it should. -/
def Meets (arch : Arch) (mem : MemoryMap) (known : List (List AddrRange)) (cap : ℕ) (data : DataMap) : Prop :=
  ∃ fuel found, scanGaps fuel arch mem known cap data = .done found ∧ Reports mem known data found

/-- The data map is one that `assemble` builds. -/
theorem runs_of_holds {m : DataMap} {marked : ℕ → Prop} (holds : Holds m marked) : Runs m.endOfRun := by
  constructor
  · intro a last met
    obtain ⟨r, found, rfl⟩ := Option.map_eq_some_iff.mp met
    obtain ⟨member, inside⟩ := (runAt_eq_some holds.separated a r).mp found
    exact ⟨(contains_iff.mp inside).2, r.fits⟩
  · intro a last met b low high
    obtain ⟨r, found, rfl⟩ := Option.map_eq_some_iff.mp met
    obtain ⟨member, inside⟩ := (runAt_eq_some holds.separated a r).mp found
    have onwards := (contains_iff.mp inside).1
    exact Option.map_eq_some_iff.mpr
      ⟨r, (runAt_eq_some holds.separated b r).mpr ⟨member, contains_iff.mpr ⟨by omega, high⟩⟩, rfl⟩

theorem Arch.step_even {arch : Arch} {step : ℕ} (known : arch.step = some step) : Stride step := by
  cases arch with
  | aarch64 =>
    obtain rfl := Option.some.inj known
    exact ⟨by decide, by decide⟩
  | thumb =>
    obtain rfl := Option.some.inj known
    exact ⟨by decide, by decide⟩
  | other => cases known

theorem dedup_sorted {l : List ℕ} (sorted : l.Pairwise (· ≤ ·)) : (dedup l).Pairwise (· < ·) := by
  induction l with
  | nil => exact .nil
  | cons a rest ih =>
    obtain ⟨above, tail⟩ := List.pairwise_cons.mp sorted
    cases rest with
    | nil => exact List.pairwise_singleton _ _
    | cons b rest =>
      rw [dedup]
      split
      · exact ih tail
      next differ =>
        refine List.pairwise_cons.mpr ⟨fun c member => ?_, ih tail⟩
        have first := above b List.mem_cons_self
        rcases List.mem_cons.mp (mem_dedup.mp member) with rfl | later
        · omega
        · have far := (List.pairwise_cons.mp tail).1 c later
          omega

/-- The scan of the gaps ends without an overflow and reports what it should exactly when
    in every segment that it comes to nothing leads it past the top of the address space. -/
theorem scan_iff (arch : Arch) (mem : MemoryMap) (known : List (List AddrRange)) (cap : ℕ) (candidates : List Region)
    (code : List AddrRange) :
    let data := DataMap.assemble candidates (mergeRanges code)
    Meets arch mem known cap data ↔ ∀ step, arch.step = some step →
      SegmentsPass ⟨step, mergeRanges known.flatten, data, isPrologue mem arch⟩ cap mem.segments 0 := by
  intro data
  have holds : Holds data (Marked candidates code) := assemble_holds candidates code
  obtain ⟨-, regions⟩ := covered_regions candidates code
  obtain ⟨apart, covered⟩ := mergeRanges_correct known.flatten
  cases supported : arch.step with
  | none =>
    refine iff_of_true ⟨0, [], ?_, .nil, by simp⟩ (fun step impossible => by cases impossible)
    rw [scanGaps, supported]
  | some step =>
    have even := Arch.step_even supported
    let s : Setting := ⟨step, mergeRanges known.flatten, data, isPrologue mem arch⟩
    have runs : Runs s.data.endOfRun := runs_of_holds holds
    constructor
    · rintro ⟨fuel, found, ends, -⟩ step' same
      obtain rfl := Option.some.inj same
      by_contra blocked
      have endless := (@scanSegments_spec s cap _ even runs (le_max_right fuel (2 ^ 64)) mem.segments []
        (Nat.zero_le cap)).2 blocked
      rw [scanGaps, supported] at ends
      simp only at ends
      cases whole : scanSegments s cap fuel mem.segments [] with
      | done out => exact endless out (scanSegments_more (le_max_left _ _) whole)
      | running =>
        rw [whole] at ends
        cases ends
      | overflow =>
        rw [whole] at ends
        cases ends
    · intro passes
      obtain ⟨more, ends, member⟩ := (@scanSegments_spec s cap _ even runs (le_refl (2 ^ 64)) mem.segments []
        (Nat.zero_le cap)).1 (passes step rfl)
      refine ⟨2 ^ 64, dedup (sortByKey id more), ?_, dedup_sorted (sortByKey_sorted id more), fun a inFound => ?_⟩
      · rw [scanGaps, supported]
        show (match scanSegments s cap (2 ^ 64) mem.segments [] with
          | .done out => Scan.done (dedup (sortByKey id out))
          | other => other) = _
        rw [ends, List.nil_append]
      · obtain ⟨seg, inMap, exec, gap, inGaps, onGrid, below, free, -⟩ :=
          member a ((mem_sortByKey id).mp (mem_dedup.mp inFound))
        obtain ⟨inSpan, uncovered⟩ := gapsIn_free apart inGaps (contains_iff.mpr ⟨onGrid.1, below⟩)
        refine ⟨⟨seg, inMap, exec, inSpan⟩, fun blocks inKnown b inBlocks => ?_, fun r inRegions => ?_⟩
        · rw [← Bool.not_eq_true]
          intro inside
          exact uncovered ((covered a).mpr ⟨b, List.mem_flatten.mpr ⟨blocks, inKnown, inBlocks⟩, inside⟩)
        · rw [← Bool.not_eq_true]
          intro inside
          obtain ⟨t, inCovered, holdsA⟩ := (regions a).mpr ⟨r, inRegions, inside⟩
          have met : data.endOfRun a = some t.stop :=
            Option.map_eq_some_iff.mpr ⟨t, (runAt_eq_some holds.separated a t).mpr ⟨inCovered, holdsA⟩, rfl⟩
          have free : data.endOfRun a = none := free
          rw [free] at met
          cases met

/-- An image of 255 bytes that ends at the last address. -/
def topSegment : Segment :=
  ⟨⟨2 ^ 64 - 256, 2 ^ 64 - 1, by decide, by decide⟩, ⟨true, true, true⟩, "image", 0, List.replicate 255 0,
    by rw [List.length_replicate]; decide⟩

/-- The scan of an image that ends at the top of the address space does not end. -/
theorem topSegment_endless : ¬∀ arch mem known cap candidates code,
    Meets arch mem known cap (DataMap.assemble candidates (mergeRanges code)) := by
  intro meets
  obtain ⟨fuel, found, ends, -⟩ := meets .aarch64 (MemoryMap.add .new topSegment) [] 0 [] []
  have holds := assemble_holds [] []
  have even : Stride 4 := ⟨by decide, by decide⟩
  let s : Setting := ⟨4, mergeRanges [], DataMap.assemble [] (mergeRanges []), isPrologue (MemoryMap.add .new topSegment) .aarch64⟩
  have noData : ∀ b, s.data.endOfRun b = none := by
    intro b
    cases met : s.data.endOfRun b with
    | none => rfl
    | some last =>
      obtain ⟨⟨r, inNone, -⟩, -⟩ := (holds.endOfRun_iff b last).mp met
      cases inNone
  have blocked : ¬SegmentsPass s 0 [topSegment] 0 := by
    intro all
    have uncovered : mergeRanges [] = [] := by simp [mergeRanges, coalesce, sortByKey]
    have whole : topSegment.range ∈ gapsIn topSegment.range (mergeRanges []) := by
      rw [uncovered]
      decide
    have passes := all [] topSegment [] rfl rfl le_rfl topSegment.range whole (2 ^ 64 - 4)
      ⟨by decide, .inl ⟨by decide, fun b _ _ _ => noData b⟩⟩ (by decide)
    rw [Passes, noData] at passes
    exact absurd passes (lt_irrefl _)
  have endless := (scanSegments_spec (s := s) even (runs_of_holds holds) (le_max_right fuel (2 ^ 64)) [topSegment] []
    (le_refl 0)).2 blocked
  rw [scanGaps] at ends
  cases whole : scanSegments s 0 fuel [topSegment] [] with
  | done out => exact endless out (scanSegments_more (le_max_left _ _) whole)
  | running =>
    have ends : (match scanSegments s 0 fuel [topSegment] [] with
      | .done out => Scan.done (dedup (sortByKey id out))
      | other => other) = .done found := ends
    rw [whole] at ends
    cases ends
  | overflow =>
    have ends : (match scanSegments s 0 fuel [topSegment] [] with
      | .done out => Scan.done (dedup (sortByKey id out))
      | other => other) = .done found := ends
    rw [whole] at ends
    cases ends

end E5r.GapScan
