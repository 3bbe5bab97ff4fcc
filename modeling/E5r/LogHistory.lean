import E5r.AnnotationText

/-!
Logs as their histories build them: from nothing or from an accepted text, by
assertions, undo, redo and merges with other such logs. The records are always
sorted by id and sequence number (`built_sorted`). No place occurs twice as long
as every record enters at a fresh one (`built_strictlySorted`), the last writer
wins as long as no sequence number reaches the top of its range
(`lastWriterWins_iff`), and merging is a semilattice exactly on compatible logs
(`semilattice_iff`).
-/
namespace E5r.LogHistory
open SortedRecords AnnotationLog AnnotationText

/-- One step of a history, with the logs it starts from. -/
inductive Event where
  | fromText (log : Log)
  | assert (log : Log) (target : Anchor) (field : Field) (value : Option String) (who : String)
  | undo (log : Log)
  | redo (log : Log)
  | merge (log other : Log)

/-- The logs of histories all of whose steps are allowed. -/
inductive Built (Allowed : Event → Prop) : Log → Prop where
  | new : Built Allowed Log.new
  | fromText {text : String} {log : Log} (accepted : fromText text = .ok log)
      (allowed : Allowed (.fromText log)) : Built Allowed log
  | assert {log : Log} (target : Anchor) (field : Field) (value : Option String) (who : String)
      (built : Built Allowed log) (allowed : Allowed (.assert log target field value who)) :
      Built Allowed (log.assert target field value who).1
  | undo {log : Log} (built : Built Allowed log) (allowed : Allowed (.undo log)) : Built Allowed log.undo.1
  | redo {log : Log} (built : Built Allowed log) (allowed : Allowed (.redo log)) : Built Allowed log.redo.1
  | merge {log other : Log} (built : Built Allowed log) (builtOther : Built Allowed other)
      (allowed : Allowed (.merge log other)) : Built Allowed (log.merge other)

/-- The logs of all histories. -/
abbrev Reachable : Log → Prop := Built (fun _ => True)

theorem built_sorted {Allowed : Event → Prop} {log : Log} (built : Built Allowed log) :
    Sorted Assertion.place log.records := by
  induction built with
  | new => exact .nil
  | fromText accepted _ => exact (fromText_ok accepted).1.sorted _
  | assert _ _ _ _ _ _ ih => exact put_sorted _ ih
  | @undo log _ _ ih =>
    rcases undo_cases log with same | ⟨i, a, -, taken⟩
    · rwa [same]
    · rw [taken]
      exact ih.sublist (List.eraseIdx_sublist _ i)
  | @redo log _ _ ih =>
    rcases redo_cases log with ⟨-, same⟩ | ⟨a, -, back⟩
    · rwa [same]
    · rw [back]
      exact put_sorted _ ih
  | merge _ _ _ ih _ => exact absorb_sorted _ ih _

/-- The record that an assertion or a redo enters is at a fresh place. -/
def EntersFresh : Event → Prop
  | .assert log target field value who =>
    Fresh Assertion.place
      (toLex ((Assertion.contentId target field value log.nextSeq who).toNat, log.nextSeq.toNat)) log.records
  | .redo log => ∀ a, log.redoStack.getLast? = some a → Fresh Assertion.place a.place log.records
  | _ => True

theorem assert_strictlySorted_iff {log : Log} (strict : StrictlySorted Assertion.place log.records)
    (target : Anchor) (field : Field) (value : Option String) (who : String) :
    StrictlySorted Assertion.place (log.assert target field value who).1.records ↔
      EntersFresh (.assert log target field value who) :=
  put_strictlySorted _ strict

theorem redo_strictlySorted_iff {log : Log} (strict : StrictlySorted Assertion.place log.records) :
    StrictlySorted Assertion.place log.redo.1.records ↔ EntersFresh (.redo log) := by
  rcases redo_cases log with ⟨empty, same⟩ | ⟨a, top, back⟩
  · rw [same]
    simp [EntersFresh, empty, strict]
  · rw [back]
    simp [EntersFresh, top, put_strictlySorted _ strict]

theorem undo_strictlySorted {log : Log} (strict : StrictlySorted Assertion.place log.records) :
    StrictlySorted Assertion.place log.undo.1.records := by
  rcases undo_cases log with same | ⟨i, a, -, taken⟩
  · rwa [same]
  · rw [taken]
    exact strict.sublist (List.eraseIdx_sublist _ i)

/-- A history in which every record enters at a fresh place keeps the records
    strictly sorted, with none of them twice. -/
theorem built_strictlySorted {log : Log} (built : Built EntersFresh log) :
    StrictlySorted Assertion.place log.records ∧ log.records.Nodup := by
  have strict : StrictlySorted Assertion.place log.records := by
    induction built with
    | new => exact .nil
    | fromText accepted _ => exact (fromText_ok accepted).1
    | assert target field value who _ fresh ih =>
      exact (assert_strictlySorted_iff ih target field value who).mpr fresh
    | undo _ _ ih => exact undo_strictlySorted ih
    | redo _ fresh ih => exact (redo_strictlySorted_iff ih).mpr fresh
    | merge _ _ _ ih _ => exact absorb_strictlySorted _ ih _
  exact ⟨strict, strict.nodup⟩

def oneAssertion : Log := (Log.new.assert ⟨1, 2, 4, 0x1000, 0⟩ .name (some "f") "alice").1

/-- Undoing the assertion of a fresh log and putting it back enters it afresh. -/
theorem undo_redo_strictlySorted :
    StrictlySorted Assertion.place oneAssertion.undo.1.redo.1.records ∧
      oneAssertion.undo.1.redo.1.records.Nodup := by
  refine built_strictlySorted (.redo (.undo (.assert _ _ _ _ .new ?_) trivial) ?_)
  · intro r member
    cases member
  · intro a top
    have empty : oneAssertion.undo.1.records = [] := by decide
    rw [empty]
    exact fun r member => by cases member

/-- Taking an assertion back, merging the copy that still holds it and redoing
    enters the record a second time. -/
theorem redo_after_merge_repeats :
    ¬ ∀ log, Reachable log → StrictlySorted Assertion.place log.records ∧ log.records.Nodup := by
  intro always
  have asserted : Reachable oneAssertion := .assert _ _ _ _ .new trivial
  have merged : Reachable (oneAssertion.undo.1.merge oneAssertion) :=
    .merge (.undo asserted trivial) asserted trivial
  have twice : ¬ (oneAssertion.undo.1.merge oneAssertion).redo.1.records.Nodup := by decide +kernel
  exact twice (always _ (.redo merged trivial)).2

/-- The sequence numbers of a step stay below the top of their range: those of
    the records an accepted text holds, and the one an assertion takes. -/
def InRange : Event → Prop
  | .fromText log => ∀ r ∈ log.records, r.seq.toNat + 1 < 2 ^ 64
  | .assert log _ _ _ _ => log.nextSeq.toNat + 1 < 2 ^ 64
  | _ => True

/-- An addition to a sequence number wraps in this step. -/
def Overflows : Event → Prop
  | .fromText log => ∃ r ∈ log.records, 2 ^ 64 ≤ r.seq.toNat + 1
  | .assert log _ _ _ _ => 2 ^ 64 ≤ log.nextSeq.toNat + 1
  | .merge log other => ∃ r ∈ (log.merge other).records, 2 ^ 64 ≤ r.seq.toNat + 1
  | .undo _ | .redo _ => False

/-- The clock is later than every record that is stored or can be redone. -/
def ClockAhead (log : Log) : Prop :=
  (∀ r ∈ log.records, r.seq < log.nextSeq) ∧ ∀ r ∈ log.redoStack, r.seq < log.nextSeq

private theorem toNat_succ {n : UInt64} (fits : n.toNat + 1 < 2 ^ 64) : (n + 1).toNat = n.toNat + 1 := by
  rw [UInt64.toNat_add]
  exact Nat.mod_eq_of_lt fits

private theorem fits_of_lt {n top : UInt64} (less : n < top) : n.toNat + 1 < 2 ^ 64 := by
  have below := UInt64.lt_iff_toNat_lt.mp less
  have bound := top.toNat_lt
  omega

private theorem lt_ceiling {r : Assertion} {records : List Assertion} (member : r ∈ records)
    (fits : r.seq.toNat + 1 < 2 ^ 64) : r.seq < ceiling records := by
  have above := le_ceiling member
  rw [toNat_succ fits] at above
  exact UInt64.lt_iff_toNat_lt.mpr above

private theorem assert_clockAhead {log : Log} (ahead : ClockAhead log) (fits : log.nextSeq.toNat + 1 < 2 ^ 64)
    (target : Anchor) (field : Field) (value : Option String) (who : String) :
    ClockAhead (log.assert target field value who).1 := by
  have next : log.nextSeq < log.nextSeq + 1 := by
    rw [UInt64.lt_iff_toNat_lt, toNat_succ fits]
    omega
  refine ⟨fun r member => ?_, fun r member => by simp [Log.assert] at member⟩
  rcases (mem_put _).mp member with rfl | old
  · exact next
  · exact UInt64.lt_trans (ahead.1 r old) next

private theorem undo_clockAhead {log : Log} (ahead : ClockAhead log) : ClockAhead log.undo.1 := by
  rcases undo_cases log with same | ⟨i, a, held, taken⟩
  · rwa [same]
  · rw [taken]
    refine ⟨fun r member => ahead.1 r (List.mem_of_mem_eraseIdx member), fun r member => ?_⟩
    rcases List.mem_append.mp member with old | last
    · exact ahead.2 r old
    · rw [List.mem_singleton.mp last]
      exact ahead.1 a (List.mem_of_getElem? held)

private theorem redo_clockAhead {log : Log} (ahead : ClockAhead log) : ClockAhead log.redo.1 := by
  rcases redo_cases log with ⟨-, same⟩ | ⟨a, top, back⟩
  · rwa [same]
  · rw [back]
    refine ⟨fun r member => ?_, fun r member => ahead.2 r (List.mem_of_mem_dropLast member)⟩
    rcases (mem_put _).mp member with rfl | old
    · exact ahead.2 r (List.mem_of_getLast? top)
    · exact ahead.1 r old

private theorem merge_clockAhead {log other : Log} (ahead : ClockAhead log) (aheadOther : ClockAhead other) :
    ClockAhead (log.merge other) := by
  have fits : ∀ r ∈ (log.merge other).records, r.seq.toNat + 1 < 2 ^ 64 := by
    intro r member
    rcases mem_absorb _ member with own | theirs
    · exact fits_of_lt (ahead.1 r own)
    · exact fits_of_lt (aheadOther.1 r theirs)
  constructor
  · intro r member
    have below := UInt64.lt_iff_toNat_lt.mp (lt_ceiling member (fits r member))
    refine UInt64.lt_iff_toNat_lt.mpr ?_
    show r.seq.toNat < (max (ceiling (log.merge other).records) log.nextSeq).toNat
    rw [UInt64.toNat_max]
    omega
  · intro r member
    have below := UInt64.lt_iff_toNat_lt.mp (ahead.2 r member)
    refine UInt64.lt_iff_toNat_lt.mpr ?_
    show r.seq.toNat < (max (ceiling (log.merge other).records) log.nextSeq).toNat
    rw [UInt64.toNat_max]
    omega

theorem built_clockAhead {log : Log} (built : Built InRange log) : ClockAhead log := by
  induction built with
  | new => simp [ClockAhead, Log.new]
  | @fromText text log accepted inRange =>
    obtain ⟨-, clock, noRedo⟩ := fromText_ok accepted
    refine ⟨fun r member => ?_, fun r member => by simp [noRedo] at member⟩
    rw [clock]
    exact lt_ceiling member (inRange r member)
  | assert target field value who _ fits ih => exact assert_clockAhead ih fits target field value who
  | undo _ _ ih => exact undo_clockAhead ih
  | redo _ _ ih => exact redo_clockAhead ih
  | merge _ _ _ ih ihOther => exact merge_clockAhead ih ihOther

/-- An assertion decides what its location and field fold to. -/
def LastWriterWins (log : Log) (target : Anchor) (field : Field) (who : String) : Prop :=
  (∀ v, ((log.assert target field (some v) who).1.fold[keyOf target field]?).map (·.value) = some (some v)) ∧
    (log.assert target field none who).1.fold[keyOf target field]? = none

theorem fold_assert {log : Log} (ahead : ClockAhead log) (target : Anchor) (field : Field)
    (value : Option String) (who : String) :
    ((log.assert target field value who).1.fold[keyOf target field]?).map (·.value) = value.map some := by
  obtain ⟨a, made⟩ : ∃ a, (log.assert target field value who).2 = a := ⟨_, rfl⟩
  have parts : a.seq = log.nextSeq ∧ a.key = keyOf target field ∧ a.value = value := by
    subst made
    exact ⟨rfl, rfl, rfl⟩
  have records : (log.assert target field value who).1.records = put Assertion.place a log.records := by
    subst made
    rfl
  have won : ((put Assertion.place a log.records).foldl foldStep ∅)[a.key]? = some a := by
    refine foldl_foldStep_newest _ ∅ (.inr ⟨(mem_put _).mpr (.inl rfl), by simp⟩) (fun r member _ => ?_)
    rcases (mem_put _).mp member with same | old
    · exact .inl same
    · exact .inr (Assertion.clock_lt_of_seq (parts.1 ▸ ahead.1 r old))
  rw [Log.fold, records, ← parts.2.1, Std.ExtTreeMap.getElem?_filter]
  cases value with
  | none => simp [won, parts.2.2]
  | some v => simp [won, parts.2.2]

theorem lastWriterWins {log : Log} (ahead : ClockAhead log) (target : Anchor) (field : Field) (who : String) :
    LastWriterWins log target field who := by
  constructor
  · intro v
    rw [fold_assert ahead]
    rfl
  · simpa using fold_assert ahead target field none who

private theorem built_mono {Allowed Other : Event → Prop} (sub : ∀ step, Allowed step → Other step) {log : Log}
    (built : Built Allowed log) : Built Other log := by
  induction built with
  | new => exact .new
  | fromText accepted allowed => exact .fromText accepted (sub _ allowed)
  | assert target field value who _ allowed ih => exact .assert target field value who ih (sub _ allowed)
  | undo _ allowed ih => exact .undo ih (sub _ allowed)
  | redo _ allowed ih => exact .redo ih (sub _ allowed)
  | merge _ _ allowed ih ihOther => exact .merge ih ihOther (sub _ allowed)

private theorem inRange_of_no_overflow (step : Event) (fits : ¬ Overflows step) : InRange step := by
  cases step with
  | fromText log => exact fun r member => not_le.mp (fun top => fits ⟨r, member, top⟩)
  | assert log target field value who => exact not_le.mp fits
  | undo | redo | merge => trivial

private theorem built_no_overflow {log : Log} (built : Built InRange log) :
    Built (fun step => ¬ Overflows step) log := by
  induction built with
  | new => exact .new
  | fromText accepted inRange =>
    exact .fromText accepted (fun ⟨r, member, top⟩ => not_le.mpr (inRange r member) top)
  | assert target field value who _ inRange ih =>
    exact .assert target field value who ih (not_le.mpr inRange)
  | undo _ _ ih => exact .undo ih id
  | redo _ _ ih => exact .redo ih id
  | merge built builtOther _ ih ihOther =>
    refine .merge ih ihOther ?_
    rintro ⟨r, member, above⟩
    have ahead := merge_clockAhead (built_clockAhead built) (built_clockAhead builtOther)
    have fits := fits_of_lt (ahead.1 r member)
    omega

/-- A history overflows nowhere exactly when the accepted texts and the
    assertions stay in range, and then every further assertion decides what its
    location and field fold to. -/
theorem built_lastWriterWins (log : Log) :
    (Built (fun step => ¬ Overflows step) log ↔ Built InRange log) ∧
      (Built InRange log → ∀ target field who, LastWriterWins log target field who) :=
  ⟨⟨built_mono inRange_of_no_overflow, built_no_overflow⟩,
    fun built => lastWriterWins (built_clockAhead built)⟩

/-- Naming the location of the only assertion again gives it the new name. -/
theorem second_name_wins : LastWriterWins oneAssertion ⟨1, 2, 4, 0x1000, 0⟩ .name "bob" :=
  (built_lastWriterWins oneAssertion).2 (.assert _ _ _ _ .new (by unfold InRange; decide)) _ _ _

/-- The text of a log whose only record holds the largest sequence number. -/
def topText : String :=
  "e5r-annotations 1\nname shape=1 bytes=2 insns=4 abs=1000 off=0 seq=18446744073709551615 id=3 by=\"a\" value=\"x\"\n"

/-- The log read from it, whose clock wrapped to zero. -/
def topLog : Log :=
  ⟨[⟨⟨1, 2, 4, 0x1000, 0⟩, .name, some "x", 18446744073709551615, 3, "a"⟩], 0, [], none⟩

theorem topText_accepted : fromText topText = .ok topLog := by
  have chars : topText.toList = _ := String.toList_ofList
  unfold fromText
  rw [chars]
  decide +kernel

/-- After the clock wrapped, a new assertion loses to the record read. -/
theorem wrapped_clock_loses :
    ¬ ∀ log, Reachable log → ∀ target field who, LastWriterWins log target field who := by
  intro always
  have wins := (always topLog (.fromText topText_accepted trivial) ⟨1, 2, 4, 0x1000, 0⟩ .name "b").1 "y"
  have loses : ((topLog.assert ⟨1, 2, 4, 0x1000, 0⟩ .name (some "y") "b").1.fold[
      keyOf ⟨1, 2, 4, 0x1000, 0⟩ .name]?).map (·.value) = some (some "x") := by decide +kernel
  rw [loses] at wins
  exact absurd wins (by decide)

/-- The laws of merging for three logs: the order of two does not matter for the
    records and what they fold to, three can be merged in either grouping, and
    merging a log with itself changes nothing. -/
def Semilattice (a b c : Log) : Prop :=
  (a.merge b).records = (b.merge a).records ∧ (a.merge b).fold = (b.merge a).fold ∧
    (a.merge b).merge c = a.merge (b.merge c) ∧ a.merge a = a

/-- The clock is not behind the successors of the stored sequence numbers. -/
def ClockCurrent (log : Log) : Prop := (ceiling log.records).toNat ≤ log.nextSeq.toNat

theorem merge_comm_iff {a b : Log} (reachA : Reachable a) (reachB : Reachable b) :
    (a.merge b).records = (b.merge a).records ↔ Compatible Assertion.place a.records b.records :=
  absorb_comm_iff _ (built_sorted reachA) (built_sorted reachB)

theorem merge_assoc {a b : Log} (reachA : Reachable a) (reachB : Reachable b) (c : Log) :
    (a.merge b).merge c = a.merge (b.merge c) := by
  have records := absorb_assoc Assertion.place (built_sorted reachA) (built_sorted reachB) c.records
  have larger := ceiling_mono (fun r => subset_absorb Assertion.place c.records (r := r)
    (l := (a.merge b).records))
  have clock : max (ceiling ((a.merge b).merge c).records) (max (ceiling (a.merge b).records) a.nextSeq) =
      max (ceiling ((a.merge b).merge c).records) a.nextSeq := by
    refine UInt64.toNat_inj.mp ?_
    simp only [UInt64.toNat_max]
    have : (ceiling (a.merge b).records).toNat ≤ (ceiling ((a.merge b).merge c).records).toNat := larger
    omega
  simp only [Log.merge] at clock ⊢
  rw [clock, records]

theorem merge_self_iff (a : Log) : a.merge a = a ↔ ClockCurrent a := by
  have whole : a.merge a = { a with nextSeq := max (ceiling a.records) a.nextSeq } := by
    rw [Log.merge, absorb_self]
  rw [whole, ClockCurrent]
  constructor
  · intro same
    have clock := congrArg (fun log : Log => log.nextSeq.toNat) same
    simp only [UInt64.toNat_max] at clock
    omega
  · intro current
    have clock : max (ceiling a.records) a.nextSeq = a.nextSeq :=
      UInt64.toNat_inj.mp (by rw [UInt64.toNat_max]; omega)
    rw [clock]

/-- Merging is a semilattice exactly when the two logs agree on the records of
    every place both hold, hold no place twice that the other lacks, and no
    clock has wrapped. -/
theorem semilattice_iff {a b : Log} (reachA : Reachable a) (reachB : Reachable b) (c : Log) :
    Semilattice a b c ↔ Compatible Assertion.place a.records b.records ∧ ClockCurrent a := by
  rw [Semilattice, merge_comm_iff reachA reachB, merge_self_iff]
  constructor
  · rintro ⟨compatible, -, -, current⟩
    exact ⟨compatible, current⟩
  · rintro ⟨compatible, current⟩
    refine ⟨compatible, ?_, merge_assoc reachA reachB c, current⟩
    rw [Log.fold, Log.fold, (merge_comm_iff reachA reachB).mpr compatible]

/-- Two logs of one assertion each, made apart, merge to the same log. -/
theorem apart_semilattice :
    Semilattice oneAssertion (Log.new.assert ⟨5, 6, 4, 0x2000, 0⟩ .name (some "g") "bob").1 Log.new := by
  refine (semilattice_iff (.assert _ _ _ _ .new trivial) (.assert _ _ _ _ .new trivial) _).mpr ⟨?_, ?_⟩
  · refine (absorb_comm_iff _ (List.pairwise_singleton ..) (List.pairwise_singleton ..)).mp ?_
    decide +kernel
  · unfold ClockCurrent
    decide

/-- The text of a log with one record under a fixed id and sequence number. -/
def claimText (value : String) : String :=
  "e5r-annotations 1\nname shape=1 bytes=2 insns=4 abs=1000 off=0 seq=0 id=7 by=\"a\" value=\"" ++ value ++ "\"\n"

def claimLog (value : String) : Log :=
  ⟨[⟨⟨1, 2, 4, 0x1000, 0⟩, .name, some value, 0, 7, "a"⟩], 1, [], none⟩

theorem toList_parts {a b c : List Char} {s : String} (written : s = .ofList a ++ .ofList b ++ .ofList c) :
    s.toList = a ++ b ++ c := by
  rw [written]
  simp only [String.toList_append, String.toList_ofList]

theorem claimText_accepted {value : String} (among : value = "left" ∨ value = "right") :
    fromText (claimText value) = .ok (claimLog value) := by
  rcases among with rfl | rfl
  · have chars := @toList_parts _ _ _ (claimText "left") rfl
    unfold fromText
    rw [chars]
    decide +kernel
  · have chars := @toList_parts _ _ _ (claimText "right") rfl
    unfold fromText
    rw [chars]
    decide +kernel

/-- Two texts that hold different records under one id and sequence number merge
    to whichever is merged into. -/
theorem merge_depends_on_side :
    ¬ ∀ a b c, Reachable a → Reachable b → Reachable c → Semilattice a b c := by
  intro always
  have left : Reachable (claimLog "left") :=
    @Built.fromText _ (claimText "left") _ (claimText_accepted (.inl rfl)) trivial
  have right : Reachable (claimLog "right") :=
    @Built.fromText _ (claimText "right") _ (claimText_accepted (.inr rfl)) trivial
  have sides : ((claimLog "left").merge (claimLog "right")).records ≠
      ((claimLog "right").merge (claimLog "left")).records := by decide
  exact sides (always _ _ _ left right left).1

theorem newestIndex_some {records : List Assertion} (some_ : records ≠ []) :
    ∃ i a, newestIndex records = some i ∧ records[i]? = some a := by
  have run : ∀ {f : Option (Assertion × ℕ) → Assertion × ℕ → Option (Assertion × ℕ)},
      (∀ best p, f best p = some p ∨ best.isSome ∧ f best p = best) →
      ∀ (l : List (Assertion × ℕ)) (best : Option (Assertion × ℕ)), l ≠ [] ∨ best.isSome →
        ∃ p, l.foldl f best = some p ∧ (p ∈ l ∨ best = some p) := by
    intro f picks l
    induction l with
    | nil =>
      intro best given
      obtain ⟨p, rfl⟩ := Option.isSome_iff_exists.mp (given.resolve_left (· rfl))
      exact ⟨p, rfl, .inr rfl⟩
    | cons q rest ih =>
      intro best _
      rcases picks best q with taken | ⟨held, kept⟩
      · obtain ⟨p, ends, among⟩ := ih (f best q) (.inr (by rw [taken]; rfl))
        refine ⟨p, ends, .inl ?_⟩
        rcases among with later | first
        · exact List.mem_cons_of_mem _ later
        · rw [Option.some.inj (taken.symm.trans first)]
          exact List.mem_cons_self
      · obtain ⟨p, ends, among⟩ := ih (f best q) (.inr (by rwa [kept]))
        exact ⟨p, ends, among.imp (List.mem_cons_of_mem _) fun same => kept.symm.trans same⟩
  refine Exists.elim (run ?_ records.zipIdx none (.inl (by simpa using some_))) fun p both =>
    ⟨p.2, p.1, congrArg (Option.map Prod.snd) both.1, ?_⟩
  · rintro (_ | b) p
    · exact .inl rfl
    · dsimp only
      split
      · exact .inl rfl
      · exact .inr ⟨rfl, rfl⟩
  · exact List.mem_zipIdx_iff_getElem?.mp (both.2.resolve_right (by simp))

/-- Of distinct records, what is undone goes back to where it was. -/
theorem redo_undo {log : Log} (strict : StrictlySorted Assertion.place log.records) (some_ : log.records ≠ []) :
    log.undo.1.redo.1 = log := by
  obtain ⟨i, a, newest, held⟩ := newestIndex_some some_
  obtain ⟨bound, here⟩ := List.getElem?_eq_some_iff.mp held
  have whole : log.records = log.records.take i ++ a :: log.records.drop (i + 1) := by
    rw [← here, List.getElem_cons_drop, List.take_append_drop]
  have back : put Assertion.place a (log.records.eraseIdx i) = log.records := by
    rw [List.eraseIdx_eq_take_drop_succ]
    generalize log.records.take i = before at whole
    generalize log.records.drop (i + 1) = after at whole
    rw [whole] at strict ⊢
    obtain ⟨first, second, cross⟩ := List.pairwise_append.mp strict
    obtain ⟨above, later⟩ := List.pairwise_cons.mp second
    have rest : StrictlySorted Assertion.place (before ++ after) :=
      List.pairwise_append.mpr ⟨first, later, fun x inside y other => cross x inside y (List.mem_cons_of_mem _ other)⟩
    refine ((put_strictlySorted _ rest).mpr fun r member => ?_).ext _ strict fun x => ?_
    · rcases List.mem_append.mp member with inside | inside
      · exact (cross r inside a List.mem_cons_self).ne
      · exact (above r inside).ne'
    · rw [mem_put, List.mem_append, List.mem_append, List.mem_cons]
      tauto
  have undone : log.undo.1 = { log with records := log.records.eraseIdx i, redoStack := log.redoStack ++ [a] } := by
    simp [Log.undo, newest, held]
  rw [undone, Log.redo]
  simp [back]

/-- While records enter at fresh places, undoing some of them and redoing as many gives the log back. -/
theorem undos_redone {log : Log} (built : Built EntersFresh log) {n : ℕ} (few : n ≤ log.records.length) :
    (fun l : Log => l.redo.1)^[n] ((fun l : Log => l.undo.1)^[n] log) = log := by
  have run : ∀ (n : ℕ) (log : Log), StrictlySorted Assertion.place log.records → n ≤ log.records.length →
      (fun l : Log => l.redo.1)^[n] ((fun l : Log => l.undo.1)^[n] log) = log := by
    intro n
    induction n with
    | zero => exact fun _ _ _ => rfl
    | succ n ih =>
      intro log strict few
      have shorter : n ≤ log.undo.1.records.length := by
        rcases undo_cases log with same | ⟨i, a, -, undone⟩
        · rw [same]
          omega
        · rw [undone]
          have := List.le_length_eraseIdx log.records i
          dsimp only
          omega
      rw [Function.iterate_succ_apply', Function.iterate_succ_apply, ih _ (undo_strictlySorted strict) shorter]
      exact redo_undo strict (by rintro none; rw [none] at few; simp at few)
  exact run n log (built_strictlySorted built).1 few

theorem undos_redone_one : (fun l : Log => l.redo.1)^[1] ((fun l : Log => l.undo.1)^[1] oneAssertion) = oneAssertion := by
  refine undos_redone (.assert _ _ _ _ .new ?_) (by decide)
  intro r member
  cases member

theorem merge_right_comm {log a b : Log} (reach : Reachable log) (reachA : Reachable a) (reachB : Reachable b)
    (agree : Compatible Assertion.place a.records b.records) : (log.merge a).merge b = (log.merge b).merge a := by
  have takes : ∀ c d : Log, c.records = d.records → log.merge c = log.merge d := fun c d same => by
    rw [Log.merge, Log.merge, same]
  rw [merge_assoc reach reachA, merge_assoc reach reachB]
  exact takes _ _ ((merge_comm_iff reachA reachB).mpr agree)

/-- Copies that agree, merged into a log one after another, give one log in every order. -/
theorem merges_converge {log : Log} {copies others : List Log} (reach : Reachable log)
    (reachable : ∀ c ∈ copies, Reachable c)
    (agree : ∀ c ∈ copies, ∀ d ∈ copies, Compatible Assertion.place c.records d.records)
    (perm : copies.Perm others) : copies.foldl Log.merge log = others.foldl Log.merge log := by
  induction perm generalizing log with
  | nil => rfl
  | cons c _ ih =>
    obtain ⟨first, later⟩ := List.forall_mem_cons.mp reachable
    exact ih (.merge reach first trivial) later fun a inA b inB =>
      agree a (List.mem_cons_of_mem _ inA) b (List.mem_cons_of_mem _ inB)
  | swap c d rest =>
    obtain ⟨first, later⟩ := List.forall_mem_cons.mp reachable
    rw [List.foldl_cons, List.foldl_cons, List.foldl_cons, List.foldl_cons,
      merge_right_comm reach first (later c List.mem_cons_self)
        (agree d List.mem_cons_self c (List.mem_cons_of_mem _ List.mem_cons_self))]
  | trans perm _ first second =>
    exact (first reach reachable agree).trans (second reach (fun c inside => reachable c (perm.mem_iff.mpr inside))
      fun a inA b inB => agree a (perm.mem_iff.mpr inA) b (perm.mem_iff.mpr inB))

theorem compatible_nil (a : Assertion) : Compatible Assertion.place [a] [] := by
  intro k
  rw [withKey_cons]
  split
  · exact .inr (.inr ⟨rfl, rfl⟩)
  · exact .inl rfl

theorem merges_converge_two :
    [oneAssertion, .new].foldl Log.merge .new = [.new, oneAssertion].foldl Log.merge .new := by
  have one : Reachable oneAssertion := .assert _ _ _ _ .new trivial
  refine merges_converge .new ?_ ?_ (.swap _ _ _)
  · intro c inside
    rcases List.mem_pair.mp inside with rfl | rfl
    · exact one
    · exact .new
  · intro c inC d inD
    rcases List.mem_pair.mp inC with rfl | rfl
    · rcases List.mem_pair.mp inD with rfl | rfl
      · exact fun _ => .inl rfl
      · exact compatible_nil _
    · rcases List.mem_pair.mp inD with rfl | rfl
      · exact fun k => (compatible_nil _ k).elim (fun same => .inl same.symm) fun either => .inr either.symm
      · exact fun _ => .inl rfl

end E5r.LogHistory
