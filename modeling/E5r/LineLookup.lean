import E5r.LineHeaders

/-!
The source position of an address, `line_for` in the rows of all sequences, sorted by
their addresses alone: it is the row that the sequences give exactly when the row that
ends one of them is in the way of no other.
-/
namespace E5r.LineLookup
open Cursor DwarfModel LineProgram LineMachine LineReads LineHeaders SortedRecords

/-- No end of a sequence is the last row at its address within another sequence: an end in
    the range of another one comes earlier in the section, and the other has a row there. -/
def Ordered (seqs : List Sequence) : Prop :=
  seqs.Pairwise (fun s t => ¬s.contains t.stop ∧ (t.contains s.stop → ∃ r ∈ t.rows, r.address = s.stop))

theorem contains_iff {s : Sequence} {a : ℕ} :
    s.contains a ↔ ∃ r rest, s.rows = r :: rest ∧ r.address ≤ a ∧ a < s.stop := by
  unfold Sequence.contains
  cases s.rows with
  | nil => simp
  | cons r rest => simp

theorem row_range {s : Sequence} (monotone : s.Monotone) {r : Row} (member : r ∈ s.rows) :
    s.contains r.address ∨ r.address = s.stop := by
  obtain ⟨first, rest, split⟩ := List.exists_cons_of_ne_nil (List.ne_nil_of_mem member)
  obtain ⟨rows, -, last⟩ := List.pairwise_append.mp monotone
  have stop : r.address ≤ s.stop := last r member s.last (List.mem_singleton_self _)
  rcases Nat.lt_or_eq_of_le stop with inside | at_
  · refine .inl (contains_iff.mpr ⟨first, rest, split, ?_, inside⟩)
    rw [split] at rows member
    rcases List.mem_cons.mp member with rfl | later
    · exact le_refl _
    · exact (List.pairwise_cons.mp rows).1 r later
  · exact .inr at_

theorem mem_sequenceRows {s : Sequence} {x : LineRow} :
    x ∈ sequenceRows s ↔ (∃ r ∈ s.rows, lineRow false r = x) ∨ x = lineRow true s.last := by
  simp [sequenceRows]

theorem sequenceRow_range {s : Sequence} (monotone : s.Monotone) {x : LineRow} (member : x ∈ sequenceRows s) :
    s.contains x.addr ∨ x.addr = s.stop := by
  rcases mem_sequenceRows.mp member with ⟨r, inside, rfl⟩ | rfl
  · exact row_range monotone inside
  · exact .inr rfl

theorem last_end {seqs : List Sequence} {a : ℕ} {x : LineRow} (monotone : ∀ s ∈ seqs, s.Monotone)
    (outside : ∀ s ∈ seqs, s.contains a → ∀ r ∈ s.rows, r.address ≠ a)
    (last : (withKey LineRow.addr a (seqs.flatMap sequenceRows)).getLast? = some x) : x.end_ = true := by
  induction seqs with
  | nil => cases last
  | cons s seqs ih =>
    rw [List.flatMap_cons, withKey, List.filter_append, List.getLast?_append] at last
    cases later : (withKey LineRow.addr a (seqs.flatMap sequenceRows)).getLast? with
    | some y =>
      rw [withKey] at later
      rw [later] at last
      cases last
      exact ih (fun s member => monotone s (List.mem_cons_of_mem _ member))
        (fun s member => outside s (List.mem_cons_of_mem _ member)) later
    | none =>
      rw [withKey] at later
      rw [later, Option.none_or] at last
      by_cases stop : s.stop = a
      · have ends : (lineRow true s.last).addr = a := stop
        simp [sequenceRows, ends] at last
        rw [← last]
        rfl
      · have member := List.mem_filter.mp (List.mem_of_getLast? last)
        have at_ : x.addr = a := by simpa using member.2
        rcases mem_sequenceRows.mp member.1 with ⟨r, inside, rfl⟩ | rfl
        · rcases row_range (monotone s List.mem_cons_self) inside with within | ends
          · rw [show r.address = a from at_] at within
            exact absurd at_ (outside s List.mem_cons_self within r inside)
          · exact absurd (ends.symm.trans at_) stop
        · rfl

theorem lineFor_eq (lines : List LineRow) (a : ℕ) :
    lineFor lines a = (lines.takeWhile (fun r => decide (r.addr ≤ a))).getLast?.filter (fun r => !r.end_) := by
  have inside : ∀ n < (lines.takeWhile (fun r => decide (r.addr ≤ a))).length,
      (lines.takeWhile (fun r => decide (r.addr ≤ a)))[n]? = lines[n]? := by
    intro n within
    obtain ⟨rest, split⟩ := List.takeWhile_prefix (l := lines) (fun r => decide (r.addr ≤ a))
    conv_rhs => rw [← split]
    exact (List.getElem?_append_left within).symm
  unfold lineFor partitionPoint
  cases length : (lines.takeWhile (fun r => decide (r.addr ≤ a))).length with
  | zero =>
    rw [List.length_eq_zero_iff] at length
    rw [length]
    rfl
  | succ n =>
    rw [List.getLast?_eq_getElem?, length, Nat.add_sub_cancel, inside n (by omega)]

/-- The lookup gives the floor of an address, unless it is an end. -/
theorem lineFor_some {rows : List LineRow} {a : ℕ} {x : LineRow} :
    lineFor (sortByKey LineRow.addr rows) a = some x ↔ IsFloor LineRow.addr rows a x ∧ x.end_ = false := by
  rw [lineFor_eq, Option.filter_eq_some_iff, floor_sortByKey]
  simp

theorem rowAt_split {s : Sequence} (monotone : s.Monotone) {a : ℕ} (within : s.contains a) :
    ∃ before r after, s.rows = before ++ r :: after ∧ s.rowAt a = some r ∧ s.contains r.address ∧ r.address ≤ a ∧
      (∀ x ∈ before, x.address ≤ r.address) ∧ ∀ x ∈ after, a < x.address := by
  obtain ⟨first, rest, split, low, high⟩ := contains_iff.mp within
  obtain ⟨rows, -, -⟩ := List.pairwise_append.mp monotone
  have some : s.rows.filter (fun r => r.address ≤ a) ≠ [] :=
    List.ne_nil_of_mem (List.mem_filter.mpr ⟨split ▸ List.mem_cons_self, decide_eq_true low⟩)
  obtain ⟨r, last⟩ := Option.isSome_iff_exists.mp (List.getLast?_isSome.mpr some)
  obtain ⟨init, filtered⟩ := List.getLast?_eq_some_iff.mp last
  obtain ⟨l₁, l₂, whole, -, second⟩ := List.filter_eq_append_iff.mp filtered
  obtain ⟨l₃, l₄, rfl, -, below, none⟩ := List.filter_eq_cons_iff.mp second
  have below : r.address ≤ a := of_decide_eq_true below
  have parts : s.rows = (l₁ ++ l₃) ++ r :: l₄ := by rw [whole, List.append_assoc]
  rw [parts] at rows
  obtain ⟨-, -, earlier⟩ := List.pairwise_append.mp rows
  have member : r ∈ s.rows := parts ▸ List.mem_append_right _ List.mem_cons_self
  refine ⟨l₁ ++ l₃, r, l₄, parts, last, ?_, below, fun x inside => earlier x inside r List.mem_cons_self, ?_⟩
  · refine contains_iff.mpr ⟨first, rest, split, ?_, by omega⟩
    rw [← parts, split] at rows
    rw [split] at member
    rcases List.mem_cons.mp member with rfl | later
    · exact le_refl _
    · exact (List.pairwise_cons.mp rows).1 r later
  · intro x inside
    have := List.filter_eq_nil_iff.mp none x inside
    simpa using this

theorem sourceOf_split {before after : List Sequence} {s : Sequence} {a : ℕ} (within : s.contains a)
    (outside : ∀ t ∈ before, ¬t.contains a) : sourceOf (before ++ s :: after) a = s.rowAt a := by
  unfold sourceOf
  have none : before.find? (fun t => t.contains a) = none := List.find?_eq_none.mpr outside
  have first : (s :: after).find? (fun t => t.contains a) = some s := by simp [within]
  rw [List.find?_append, none, Option.none_or, first]
  rfl

theorem sourceOf_none {seqs : List Sequence} {a : ℕ} (outside : ∀ t ∈ seqs, ¬t.contains a) : sourceOf seqs a = none := by
  unfold sourceOf
  rw [List.find?_eq_none.mpr outside]
  rfl

section
variable {seqs : List Sequence} (monotone : ∀ s ∈ seqs, s.Monotone) {a : ℕ}
include monotone

theorem lookup_outside (outside : ∀ s ∈ seqs, ¬s.contains a) :
    lineFor (sortByKey LineRow.addr (seqs.flatMap sequenceRows)) a = none := by
  cases found : lineFor (sortByKey LineRow.addr (seqs.flatMap sequenceRows)) a with
  | none => rfl
  | some x =>
    obtain ⟨floor, unended⟩ := lineFor_some.mp found
    obtain ⟨below, greatest, last⟩ := (isFloor_iff LineRow.addr).mp floor
    have ends := last_end monotone (fun s member within => ?_) last
    · rw [ends] at unended
      cases unended
    · -- a sequence around the row ends at or before the address, after the row
      exfalso
      obtain ⟨first, rest, split, low, high⟩ := contains_iff.mp within
      have stop : s.stop ≤ a := by
        by_contra beyond
        exact outside s member (contains_iff.mpr ⟨first, rest, split, by omega, by omega⟩)
      have endRow : lineRow true s.last ∈ seqs.flatMap sequenceRows :=
        List.mem_flatMap.mpr ⟨s, member, mem_sequenceRows.mpr (.inr rfl)⟩
      have := greatest _ endRow stop
      change s.stop ≤ x.addr at this
      omega

theorem lookup_inside {before after : List Sequence} {s : Sequence} (split : seqs = before ++ s :: after)
    (disjoint : Disjoint seqs) (ordered : Ordered seqs) (within : s.contains a) :
    lineFor (sortByKey LineRow.addr (seqs.flatMap sequenceRows)) a = (s.rowAt a).map (lineRow false) := by
  subst split
  obtain ⟨-, disjointLater, disjointEarlier⟩ := List.pairwise_append.mp disjoint
  obtain ⟨-, orderedLater, orderedEarlier⟩ := List.pairwise_append.mp ordered
  have disjointLater := (List.pairwise_cons.mp disjointLater).1
  have orderedLater := (List.pairwise_cons.mp orderedLater).1
  have ownMonotone : s.Monotone := monotone s (List.mem_append_right _ List.mem_cons_self)
  obtain ⟨earlier, r, later, rows, found, within', below, low, high⟩ := rowAt_split ownMonotone within
  obtain ⟨first, rest, start, -, stop⟩ := contains_iff.mp within
  obtain ⟨first', rest', start', first_le, -⟩ := contains_iff.mp within'
  rw [start] at start'
  obtain ⟨rfl, -⟩ := List.cons.inj start'
  rw [found]
  refine lineFor_some.mpr ⟨⟨before.flatMap sequenceRows ++ earlier.map (lineRow false),
    later.map (lineRow false) ++ lineRow true s.last :: after.flatMap sequenceRows, ?_, below, ?_, ?_⟩, rfl⟩
  · simp [sequenceRows, rows, List.append_assoc]
  · intro x member under
    rcases List.mem_append.mp member with inside | inside
    · -- a row of an earlier sequence above the row would be its end, within the range
      obtain ⟨t, tMember, inside⟩ := List.mem_flatMap.mp inside
      by_contra above
      have between : s.contains x.addr := contains_iff.mpr ⟨first, rest, start, by simp [lineRow] at above; omega, by omega⟩
      rcases sequenceRow_range (monotone t (List.mem_append_left _ tMember)) inside with contained | ends
      · exact disjointEarlier t tMember s List.mem_cons_self x.addr ⟨contained, between⟩
      · rw [ends] at between
        obtain ⟨q, qMember, at_⟩ := (orderedEarlier t tMember s List.mem_cons_self).2 between
        rw [rows] at qMember
        simp only [lineRow] at above
        rcases List.mem_append.mp qMember with before | after
        · have := low q before
          omega
        · rcases List.mem_cons.mp after with rfl | after
          · omega
          · have := high q after
            omega
    · obtain ⟨q, qMember, rfl⟩ := List.mem_map.mp inside
      exact low q qMember
  · intro x member under
    rcases List.mem_append.mp member with inside | inside
    · obtain ⟨q, qMember, rfl⟩ := List.mem_map.mp inside
      exact absurd under (Nat.not_le.mpr (high q qMember))
    · rcases List.mem_cons.mp inside with rfl | inside
      · exact absurd under (Nat.not_le.mpr stop)
      · obtain ⟨t, tMember, inside⟩ := List.mem_flatMap.mp inside
        by_contra above
        have between : s.contains x.addr := contains_iff.mpr ⟨first, rest, start, by simp [lineRow] at above; omega, by omega⟩
        have inSeqs : t ∈ before ++ s :: after := List.mem_append_right _ (List.mem_cons_of_mem _ tMember)
        rcases sequenceRow_range (monotone t inSeqs) inside with contained | ends
        · exact disjointLater t tMember x.addr ⟨between, contained⟩
        · exact (orderedLater t tMember).1 (ends ▸ between)

/-- When the lookup finds a row at an address where sequences without one there come
    last, none of them has an end there. -/
theorem floor_rows {before after : List Sequence} (split : seqs = before ++ after) {x : LineRow}
    (outside : ∀ s ∈ after, s.contains a → ∀ r ∈ s.rows, r.address ≠ a)
    (found : lineFor (sortByKey LineRow.addr (seqs.flatMap sequenceRows)) a = some x) : ∀ s ∈ after, s.stop ≠ a := by
  intro s member stop
  obtain ⟨floor, unended⟩ := lineFor_some.mp found
  obtain ⟨below, greatest, last⟩ := (isFloor_iff LineRow.addr).mp floor
  subst split
  have endRow : lineRow true s.last ∈ after.flatMap sequenceRows :=
    List.mem_flatMap.mpr ⟨s, member, mem_sequenceRows.mpr (.inr rfl)⟩
  have at_ : x.addr = a := by
    have := greatest (lineRow true s.last) (by
      rw [List.flatMap_append]
      exact List.mem_append_right _ endRow) (le_of_eq stop)
    change s.stop ≤ x.addr at this
    omega
  rw [at_, List.flatMap_append, withKey, List.filter_append, List.getLast?_append] at last
  have some : (after.flatMap sequenceRows).filter (fun r => decide (r.addr = a)) ≠ [] :=
    List.ne_nil_of_mem (List.mem_filter.mpr ⟨endRow, decide_eq_true stop⟩)
  obtain ⟨y, is⟩ := Option.isSome_iff_exists.mp (List.getLast?_isSome.mpr some)
  rw [is] at last
  obtain rfl : y = x := Option.some.inj last
  have ends := last_end (fun s member => monotone s (List.mem_append_right _ member)) outside is
  rw [ends] at unended
  cases unended

theorem lookup_iff (disjoint : Disjoint seqs) (fits : ∀ s ∈ seqs, s.stop < 2 ^ 64) :
    (∀ a < 2 ^ 64, lineFor (sortByKey LineRow.addr (seqs.flatMap sequenceRows)) a = (sourceOf seqs a).map (lineRow false)) ↔
      Ordered seqs := by
  constructor
  · intro right
    refine List.pairwise_iff_forall_sublist.mpr fun {s t} pair => ?_
    obtain ⟨head, tail, rfl, sMember, inTail⟩ := List.cons_sublist_iff.mp pair
    obtain ⟨before, middle, rfl⟩ := List.append_of_mem sMember
    obtain ⟨between, after, rfl⟩ := List.append_of_mem (List.singleton_sublist.mp inTail)
    have whole : before ++ s :: middle ++ (between ++ t :: after) = before ++ s :: (middle ++ between ++ t :: after) := by
      simp [List.append_assoc]
    rw [whole] at right disjoint fits monotone
    obtain ⟨-, apart, apartBefore⟩ := List.pairwise_append.mp disjoint
    obtain ⟨apartS, apart⟩ := List.pairwise_cons.mp apart
    obtain ⟨-, apartT, apartMiddle⟩ := List.pairwise_append.mp apart
    have apartT := (List.pairwise_cons.mp apartT).1
    have inT : t ∈ middle ++ between ++ t :: after := List.mem_append_right _ List.mem_cons_self
    constructor
    · -- the end of `t` is the last row at its address
      intro within
      have position := right t.stop (fits t (List.mem_append_right _ (List.mem_cons_of_mem _ inT)))
      rw [sourceOf_split within fun u member both => apartBefore u member s List.mem_cons_self t.stop ⟨both, within⟩] at position
      obtain ⟨-, r, -, -, found, -⟩ := rowAt_split (monotone s (List.mem_append_right _ List.mem_cons_self)) within
      rw [found] at position
      refine @floor_rows _ monotone _ (before ++ s :: (middle ++ between)) (t :: after) (by simp [List.append_assoc]) _
        (fun u member both => ?_) position t List.mem_cons_self rfl
      rcases List.mem_cons.mp member with rfl | later
      · obtain ⟨-, -, -, -, high⟩ := contains_iff.mp both
        exact absurd high (Nat.lt_irrefl _)
      · exact absurd ⟨within, both⟩ (apartS u (List.mem_append_right _ (List.mem_cons_of_mem _ later)) t.stop)
    · -- without a row of `t` there, the last row at the end of `s` is an end
      intro within
      by_contra none
      have none : ∀ r ∈ t.rows, r.address ≠ s.stop := fun r member at_ => none ⟨r, member, at_⟩
      have position := right s.stop (fits s (List.mem_append_right _ List.mem_cons_self))
      have whole : before ++ s :: (middle ++ between ++ t :: after) = (before ++ s :: (middle ++ between)) ++ t :: after := by
        simp [List.append_assoc]
      have apartEarlier : ∀ u ∈ before ++ s :: (middle ++ between), ¬u.contains s.stop := by
        intro u member both
        rcases List.mem_append.mp member with earlier | later
        · exact apartBefore u earlier t (List.mem_cons_of_mem _ inT) s.stop ⟨both, within⟩
        · rcases List.mem_cons.mp later with rfl | later
          · exact apartS t inT u.stop ⟨both, within⟩
          · exact apartMiddle u later t List.mem_cons_self s.stop ⟨both, within⟩
      have monotoneT := monotone t (List.mem_append_right _ (List.mem_cons_of_mem _ inT))
      obtain ⟨-, r, -, -, found, -⟩ := rowAt_split monotoneT within
      rw [show sourceOf _ s.stop = t.rowAt s.stop from whole ▸ sourceOf_split within apartEarlier, found] at position
      refine @floor_rows _ monotone _ before (s :: (middle ++ between ++ t :: after)) rfl _
        (fun u member both => ?_) position s List.mem_cons_self rfl
      rcases List.mem_cons.mp member with rfl | later
      · exact absurd both (apartEarlier u (List.mem_append_right _ List.mem_cons_self))
      · rcases List.mem_append.mp later with later | later
        · exact absurd both (apartEarlier u (List.mem_append_right _ (List.mem_cons_of_mem _ later)))
        · rcases List.mem_cons.mp later with rfl | later
          · exact none
          · exact absurd ⟨within, both⟩ (apartT u later s.stop)
  · intro ordered a _
    by_cases inside : ∃ s ∈ seqs, s.contains a
    · obtain ⟨s, member, within⟩ := inside
      obtain ⟨before, after, rfl⟩ := List.append_of_mem member
      obtain ⟨-, -, disjointEarlier⟩ := List.pairwise_append.mp disjoint
      rw [lookup_inside monotone rfl disjoint ordered within,
        sourceOf_split within fun t earlier within' => disjointEarlier t earlier s List.mem_cons_self a ⟨within', within⟩]
    · have outside : ∀ s ∈ seqs, ¬s.contains a := fun s member within => inside ⟨s, member, within⟩
      rw [lookup_outside monotone outside, sourceOf_none outside]
      rfl
end

theorem stops_fit {h : Header} {ops : List Op} : ∀ {m : Machine}, m.registers.address < 2 ^ 64 →
    (∀ s ∈ m.done, s.stop < 2 ^ 64) → RunFits h m ops → ∀ s ∈ (ops.foldl (Machine.exec h) m).done, s.stop < 2 ^ 64 := by
  induction ops with
  | nil => exact fun _ done _ => done
  | cons op ops ih =>
    intro m address done fits
    obtain ⟨-, fit, later⟩ := fits
    refine ih fit.1 ?_ later
    cases op with
    | endSequence =>
      intro s member
      rcases List.mem_append.mp member with before | last
      · exact done s before
      · rw [List.mem_singleton.mp last]
        exact address
    | _ => exact done

theorem parseLines_eq (sections : Sections) (e : Endian) :
    parseLines sections e = sortByKey LineRow.addr (LineProgram.lines sections e) := by
  have empty : sections.line = [] → sortByKey LineRow.addr (LineProgram.lines sections e) = [] := by
    intro none
    unfold LineProgram.lines
    rw [none]
    show sortByKey LineRow.addr [] = []
    simp [sortByKey]
  unfold parseLines
  by_cases none : sections.line = []
  · rw [empty none]
    simp [none]
  · simp [none]

def header : Header := ⟨1, true, -5, 14, 13, [0, 1, 1, 1, 1, 0, 0, 0, 1, 0, 0, 1], [""]⟩

/-- Sixteen bytes at an address, one row. -/
def sequenceOps (low : UInt8) : List Op := [.setAddress (0x1000 + low.toNat) 8, .copy, .advancePc 16, .endSequence]

def sequenceCode (low : UInt8) : List UInt8 := [0, 9, 2, low, 0x10, 0, 0, 0, 0, 0, 0, 1, 2, 16, 0, 1, 1]

def twoSequences (low low' : UInt8) : Sections :=
  ⟨[], [], [], [], [], [], [60, 0, 0, 0, 4, 0, 20, 0, 0, 0, 1, 1, 1, 251, 14, 13, 0, 1, 1, 1, 1, 0, 0, 0, 1, 0, 0, 1, 0, 0] ++
    (sequenceCode low ++ sequenceCode low')⟩

theorem code_sequence {low : UInt8} {ops : List Op} {bs : List UInt8} (rest : Code .little header ops bs) :
    Code .little header (sequenceOps low ++ ops) (sequenceCode low ++ bs) := by
  have number : ∀ b : UInt8, b.toNat < 128 → Number [b] b.toNat := fun b small => ⟨.last small, by simp, by omega⟩
  have address := @Spells.setAddress .little header _ [low, 0x10, 0, 0, 0, 0, 0, 0] (number 9 (by decide))
    (by simp)
  have is : toNat .little [low, 0x10, 0, 0, 0, 0, 0, 0] = 0x1000 + low.toNat := by
    simp [Cursor.toNat, leNat]
    omega
  rw [is] at address
  have whole := Code.cons address (.cons (.copy (by decide)) (.cons (.advancePc (by decide) (number 16 (by decide)))
    (.cons (.endSequence (number 1 (by decide))) rest)))
  exact whole

def twoSequencesPrograms (low low' : UInt8) : List (Header × List Op) := [(header, sequenceOps low ++ sequenceOps low')]

theorem twoSequences_programs (low low' : UInt8) :
    Programs .little (twoSequences low low') (twoSequencesPrograms low low') (twoSequences low low').line := by
  have operations : Code .little header (sequenceOps low ++ (sequenceOps low' ++ []))
      (sequenceCode low ++ (sequenceCode low' ++ [])) := code_sequence (code_sequence .nil)
  have tables : FileTables .little (twoSequences low low') false 4 [""] ([0] ++ [0]) := .old (by decide) .nil .nil
  have value : toNat .little [60, 0, 0, 0] = 60 := by decide
  have length : InitialLength .little false 60 [60, 0, 0, 0] := value ▸ .short rfl (by decide)
  have program := @Program.program .little (twoSequences low low') false 1 1 251 14 13 4 [""] [60, 0, 0, 0] [4, 0] []
    [20, 0, 0, 0] [0, 1, 1, 1, 1, 0, 0, 0, 1, 0, 0, 1] ([0] ++ [0]) [] (sequenceCode low ++ (sequenceCode low' ++ []))
    rfl rfl (by decide) rfl (by decide) (by decide) (by decide) rfl tables ⟨rfl, rfl⟩ (by simpa [sequenceCode] using length)
  have same : (⟨(1 : UInt8).toNat, (1 : UInt8) ≠ 0, toI8 (251 : UInt8).toNat, (14 : UInt8).toNat, (13 : UInt8).toNat,
      [0, 1, 1, 1, 1, 0, 0, 0, 1, 0, 0, 1].map UInt8.toNat, [""]⟩ : Header) = header := by decide
  rw [same] at program
  have whole := Programs.cons program operations (.inr rfl) .nil
  exact whole

def sequenceAt (low : UInt8) : Sequence :=
  ⟨[⟨0x1000 + low.toNat, "", 1, 0, true⟩], ⟨0x1000 + low.toNat + 16, "", 1, 0, true⟩⟩

theorem twoSequences_sequences (low low' : UInt8) :
    allSequences (twoSequencesPrograms low low') = [sequenceAt low, sequenceAt low'] := by
  simp [allSequences, twoSequencesPrograms, sequences, sequenceOps, Machine.exec, Machine.append, Registers.start,
    Registers.row, Registers.advance, header, sequenceAt]

theorem twoSequences_fits (low low' : UInt8) :
    ∀ p ∈ twoSequencesPrograms low low', RunFits p.1 ⟨.start p.1 p.1.files, [], []⟩ p.2 := by
  intro p member
  rw [List.mem_singleton.mp member]
  have small := low.toNat_lt
  have small' := low'.toNat_lt
  simp [sequenceOps, RunFits, Op.Fits, Registers.Fit, Machine.exec, Machine.append, Registers.start, Registers.advance, header]
  omega

theorem twoSequences_monotone (low low' : UInt8) : ∀ s ∈ allSequences (twoSequencesPrograms low low'), s.Monotone := by
  rw [twoSequences_sequences]
  simp [Sequence.Monotone, sequenceAt]

theorem twoSequences_disjoint {low low' : UInt8} (apart : low.toNat + 16 ≤ low'.toNat ∨ low'.toNat + 16 ≤ low.toNat) :
    Disjoint (allSequences (twoSequencesPrograms low low')) := by
  rw [twoSequences_sequences]
  simp only [LineMachine.Disjoint, sequenceAt, List.pairwise_pair, contains_iff, Sequence.stop]
  rintro a ⟨⟨r, rest, rows, above, below⟩, ⟨r', rest', rows', above', below'⟩⟩
  obtain ⟨rfl, -⟩ := List.cons.inj rows
  obtain ⟨rfl, -⟩ := List.cons.inj rows'
  dsimp only at above above'
  omega

/-- The source positions that a section of programs gives are those of its sequences
    exactly when the ends of the sequences are ordered. -/
theorem lineFor_iff {sections : Sections} {e : Endian} {programs : List (Header × List Op)}
    (well : Programs e sections programs sections.line) (memory : sections.line.length < 2 ^ 64)
    (fits : ∀ p ∈ programs, RunFits p.1 ⟨.start p.1 p.1.files, [], []⟩ p.2)
    (monotone : ∀ s ∈ allSequences programs, s.Monotone) (disjoint : Disjoint (allSequences programs)) :
    (∀ a < 2 ^ 64, lineFor (parseLines sections e) a = (sourceOf (allSequences programs) a).map (lineRow false)) ↔
      Ordered (allSequences programs) := by
  rw [parseLines_eq, lines_eq well fits memory]
  refine lookup_iff monotone disjoint fun s member => ?_
  obtain ⟨p, inside, member⟩ := List.mem_flatMap.mp member
  exact stops_fit (show (0 : ℕ) < 2 ^ 64 by decide) (by simp) (fits p inside) s member

/-- Two sequences that follow each other in the section. -/
theorem lineFor_iff_ascending :
    ((∀ a < 2 ^ 64, lineFor (parseLines (twoSequences 0 16) .little) a =
      (sourceOf (allSequences (twoSequencesPrograms 0 16)) a).map (lineRow false)) ↔
        Ordered (allSequences (twoSequencesPrograms 0 16))) ∧ Ordered (allSequences (twoSequencesPrograms 0 16)) := by
  refine ⟨lineFor_iff (twoSequences_programs 0 16) (by decide) (twoSequences_fits 0 16) (twoSequences_monotone 0 16)
    (twoSequences_disjoint (by decide)), ?_⟩
  rw [twoSequences_sequences]
  simp [Ordered, sequenceAt, Sequence.contains, Sequence.stop]

/-- A sequence that ends where one before it starts hides the first row of that one. -/
theorem touching_misses :
    Programs .little (twoSequences 16 0) (twoSequencesPrograms 16 0) (twoSequences 16 0).line ∧
      (∀ s ∈ allSequences (twoSequencesPrograms 16 0), s.Monotone) ∧ Disjoint (allSequences (twoSequencesPrograms 16 0)) ∧
      sourceOf (allSequences (twoSequencesPrograms 16 0)) 0x1010 = some ⟨0x1010, "", 1, 0, true⟩ ∧
      lineFor (parseLines (twoSequences 16 0) .little) 0x1010 = none := by
  refine ⟨twoSequences_programs 16 0, twoSequences_monotone 16 0, twoSequences_disjoint (by decide), ?_, ?_⟩
  · rw [twoSequences_sequences]
    decide
  · rw [parseLines_eq, lines_eq (twoSequences_programs 16 0) (twoSequences_fits 16 0) (by decide), twoSequences_sequences]
    have floor : IsFloor LineRow.addr ([sequenceAt 16, sequenceAt 0].flatMap sequenceRows) 0x1010
        (lineRow true (sequenceAt 0).last) := 
      ⟨sequenceRows (sequenceAt 16) ++ (sequenceAt 0).rows.map (lineRow false), [], rfl, by decide, by decide, by decide⟩
    rw [lineFor_eq, (floor_sortByKey LineRow.addr).mpr floor]
    rfl

end E5r.LineLookup
