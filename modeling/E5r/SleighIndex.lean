import E5r.SleighModel

/-!
The order constructors are tried in, and the tests that skip most of them
(`Index`): a mask over the first four instruction bytes, a mask over the first
eight context bytes, and buckets by one decision byte.
-/
namespace E5r.SleighIndex
open BitTests SleighModel

def fourBytes : Layout 32 where
  count := 4
  place i := i * 8
  inside := by omega
  apart := by omega

def eightBytes : Layout 64 where
  count := 8
  place i := 56 - i * 8
  inside := by omega
  apart := by omega

/-- The mask and value the first four bytes must take, agreed across every
    alternative. -/
def firstBytes (alts : List PatternAlt) : BitTest 32 :=
  BitTest.agreeAll (alts.map fun a => fourBytes.packTest a.instr.test)

/-- The same for the context register's first eight bytes. -/
def contextWord (alts : List PatternAlt) : BitTest 64 :=
  BitTest.agreeAll (alts.map fun a => eightBytes.packTest a.context.test)

def popcount (mv : MaskValue) : Nat := (mv.tests.map fun t => t.mask.cpop.toNat).sum

/-- How many bits a constructor pins down, counting the bits every alternative
    agrees on and one for each constraint that is not a bit test. -/
def specificity (c : Constructor) : Nat :=
  match c.resolved.alternatives with
  | [] => 0
  | head :: rest =>
    let agreedInstr := rest.foldl (fun mv a => mv.intersect a.instr) head.instr
    let agreedContext := rest.foldl (fun mv a => mv.intersect a.context) head.context
    let residual := rest.foldl (fun n a => min n a.residual.length) head.residual.length
    popcount agreedInstr + popcount agreedContext + residual

/-- The mask and value a constructor requires of instruction byte `at_`. -/
def byteTest (spec : Spec) (id : ConstructorId) (at_ : Nat) : BitTest 8 :=
  match spec.constructors[id.index]? with
  | none => BitTest.free 8
  | some c => BitTest.agreeAll (c.resolved.alternatives.map fun a => a.instr.test at_)

/-- The total size of the 256 buckets that splitting on byte `at_` gives. -/
def spread (spec : Spec) (ids : List ConstructorId) (at_ : Nat) : Nat :=
  (ids.map fun id => 2 ^ (8 - (byteTest spec id at_).mask.cpop.toNat)).sum

def BUCKET_GROWTH : Nat := 4

/-- One table's constructors, split by the value of a single instruction byte.
    The source keeps `ends` as `u32`; a list long enough to wrap one would take
    more than `2^30` constructors in one table. -/
structure Buckets where
  at_ : Nat
  ends : List Nat
  flat : List ConstructorId
  free : List ConstructorId

namespace Buckets

/-- The first of the four bytes with the smallest spread. -/
def decisionByte (spec : Spec) (ids : List ConstructorId) : Nat :=
  [1, 2, 3].foldl (fun best i => if spread spec ids i < spread spec ids best then i else best) 0

/-- The loop over the values of the decision byte; `none` when the buckets grow
    past `cap`. -/
def fill (spec : Spec) (ids : List ConstructorId) (at_ cap : Nat) :
    List Nat → List Nat → List ConstructorId → Option (List Nat × List ConstructorId)
  | [], ends, flat => some (ends, flat)
  | value :: values, ends, flat =>
    let grown := flat ++ ids.filter fun id => decide ((byteTest spec id at_).Holds (BitVec.ofNat 8 value))
    if grown.length > cap then none else fill spec ids at_ cap values (ends ++ [flat.length]) grown

/-- Split `ids` by the byte that discriminates them best, or decline. -/
def build (spec : Spec) (ids : List ConstructorId) : Option Buckets :=
  if ids.length < 32 then none
  else
    let at_ := decisionByte spec ids
    if spread spec ids at_ ≥ ids.length * BUCKET_GROWTH then none
    else do
      let (ends, flat) ← fill spec ids at_ (ids.length * BUCKET_GROWTH) (List.range 256) [] []
      pure ⟨at_, ends ++ [flat.length], flat, ids.filter fun id => (byteTest spec id at_).mask == 0⟩

def bucket (b : Buckets) (byte : Byte) : List ConstructorId :=
  match b.ends[byte.toNat]?, b.ends[byte.toNat + 1]? with
  | some lo, some hi => (b.flat.take hi).drop lo
  | _, _ => b.flat

end Buckets

/-- Per-table constructor order, and the tests in front of it. -/
structure Index where
  order : List (List ConstructorId)
  first : List (BitTest 32)
  context : List (BitTest 64)
  buckets : List (Option Buckets)

namespace Index

/-- A table's constructors, most specific first; declaration order breaks ties. -/
def specificFirst (spec : Spec) (ids : List ConstructorId) : List ConstructorId :=
  let key (id : ConstructorId) := (spec.constructors[id.index]?).elim 0 specificity
  ids.mergeSort fun a b => decide (key b ≤ key a)

def build (spec : Spec) : Index :=
  let order := spec.tables.map fun table => specificFirst spec table.constructors
  { order
    first := spec.constructors.map fun c => firstBytes c.resolved.alternatives
    context := spec.constructors.map fun c => contextWord c.resolved.alternatives
    buckets := order.map (Buckets.build spec) }

/-- The constructors of a table, most specific first. -/
def table (index : Index) (id : TableId) : List ConstructorId := index.order[id.index]?.getD []

/-- The constructors of a table worth trying against `stream`. -/
def candidates (index : Index) (id : TableId) (stream : List Byte) : List ConstructorId :=
  match (index.buckets[id.index]?).join with
  | some b =>
    match stream[b.at_]? with
    | some byte => b.bucket byte
    | none => b.free
  | none => index.table id

/-- The bytes that a mask over the first four reads, or `none` when one of them
    is not there. -/
def gather (mask : BitVec 32) (stream : List Byte) : List Nat → BitVec 32 → Option (BitVec 32)
  | [], got => some got
  | i :: rest, got =>
    if (mask >>> (i * 8)) &&& 0xff ≠ 0 then
      match stream[i]? with
      | none => none
      | some b => gather mask stream rest (got ||| b.setWidth 32 <<< (i * 8))
    else gather mask stream rest got

/-- Whether the first four bytes of `stream` and the context word can satisfy the
    constructor. -/
def mayStart (index : Index) (id : ConstructorId) (stream : List Byte) (context : BitVec 64) : Bool :=
  if index.context[id.index]?.any (fun t => !decide (t.Holds context)) then false
  else
    match index.first[id.index]? with
    | none => true
    | some t =>
      if t.mask = 0 then true
      else
        match gather t.mask stream [0, 1, 2, 3] 0 with
        | none => false
        | some got => decide (t.Holds got)

end Index

/-- The four bytes at the front of a stream, read as zero past its end. -/
def front (stream : List Byte) : BitVec 32 := fourBytes.pack fun i => stream[i]?.getD 0

variable {alts : List PatternAlt} {a : PatternAlt}

theorem firstBytes_holds {stream : List Byte} (member : a ∈ alts) (holds : a.instr.matchesBytes stream = true) :
    (firstBytes alts).Holds (front stream) := by
  have one : (fourBytes.packTest a.instr.test).Holds (front stream) :=
    fourBytes.packTest_holds fun i _ => MaskValue.test_holds holds i
  exact BitTest.agreeAll_holds (List.mem_map_of_mem member) one

theorem contextWord_holds {context : List Byte} {word : Nat → Byte} (member : a ∈ alts)
    (holds : a.context.matchesBytes context = true) (same : ∀ (i : Nat) b, context[i]? = some b → word i = b) :
    (contextWord alts).Holds (eightBytes.pack word) := by
  have one : (eightBytes.packTest a.context.test).Holds (eightBytes.pack word) := by
    apply eightBytes.packTest_holds
    intro i _
    by_cases unmasked : (a.context.test i).mask = 0
    · exact BitTest.holds_of_free unmasked _
    · obtain ⟨b, there, passes⟩ := MaskValue.matchesBytes_iff.mp holds i unmasked
      rwa [same i b there]
  exact BitTest.agreeAll_holds (List.mem_map_of_mem member) one

theorem firstBytes_mask {i : Nat} (member : a ∈ alts) (inRange : i < 4) (unmasked : (a.instr.test i).mask = 0)
    {k : Nat} (small : k < 8) : (firstBytes alts).mask.getLsbD (i * 8 + k) = false := by
  have inside := BitTest.agreeAll_mask
    (List.mem_map_of_mem (f := fun a : PatternAlt => fourBytes.packTest a.instr.test) member)
  have bit := fourBytes.pack_bit (fun i => (a.instr.test i).mask) inRange small
  rw [unmasked] at bit
  unfold firstBytes
  rw [← inside, BitVec.getLsbD_and]
  show (_ && (fourBytes.pack fun i => (a.instr.test i).mask).getLsbD (fourBytes.place i + k)) = false
  rw [bit]
  simp

theorem byte_unmasked {mask : BitVec 32} {i : Nat} :
    (mask >>> (i * 8)) &&& 0xff = 0 ↔ ∀ k < 8, mask.getLsbD (i * 8 + k) = false := by
  constructor
  · intro zero k small
    have bit := congrArg (·.getLsbD k) zero
    have low : (255#32).getLsbD k = true := by
      have all : ∀ k < 8, (255#32).getLsbD k = true := by decide
      exact all k small
    simpa [BitVec.getLsbD_and, BitVec.getLsbD_ushiftRight, low] using bit
  · intro all
    apply BitVec.eq_of_getLsbD_eq
    intro k _
    by_cases small : k < 8
    · simp [BitVec.getLsbD_and, BitVec.getLsbD_ushiftRight, all k small]
    · have high : ∀ k < 32, ¬ k < 8 → (255#32).getLsbD k = false := by decide
      have off : BitVec.getLsbD (255 : BitVec 32) k = false := high k ‹_› small
      rw [BitVec.getLsbD_and, off]
      simp

/-- The bytes that `gather` reads: those that the mask constrains. -/
def wanted (mask : BitVec 32) (stream : List Byte) (i : Nat) : Byte :=
  if (mask >>> (i * 8)) &&& 0xff = 0 then 0 else stream[i]?.getD 0

theorem gather_eq {mask : BitVec 32} {stream : List Byte} (is : List Nat) : ∀ got : BitVec 32,
    (∀ i ∈ is, (mask >>> (i * 8)) &&& 0xff ≠ 0 → stream[i]?.isSome = true) →
    Index.gather mask stream is got =
      some (is.foldl (fun out i => out ||| (wanted mask stream i).setWidth 32 <<< (i * 8)) got) := by
  induction is with
  | nil => intro got _; rfl
  | cons i is ih =>
    intro got present
    have later := fun got => ih got fun j member => present j (List.mem_cons_of_mem i member)
    unfold Index.gather
    by_cases unmasked : (mask >>> (i * 8)) &&& 0xff = 0
    · have nothing : wanted mask stream i = 0 := if_pos unmasked
      rw [if_neg (by simpa using unmasked), later]
      simp [nothing]
    · rw [if_pos unmasked]
      obtain ⟨b, there⟩ := Option.isSome_iff_exists.mp (present i (by simp) unmasked)
      rw [there]
      dsimp only
      have read : wanted mask stream i = b := by
        unfold wanted
        rw [if_neg unmasked, there]
        rfl
      rw [later, List.foldl_cons, read]

theorem wanted_and (mask : BitVec 32) (stream : List Byte) :
    fourBytes.pack (wanted mask stream) &&& mask = front stream &&& mask := by
  apply BitVec.eq_of_getLsbD_eq
  intro k within
  rw [BitVec.getLsbD_and, BitVec.getLsbD_and]
  have place : k = k / 8 * 8 + k % 8 := by omega
  have inRange : k / 8 < 4 := by omega
  have bit := fun f => fourBytes.pack_bit f inRange (Nat.mod_lt k (by decide : 8 > 0))
  change ∀ f, (fourBytes.pack f).getLsbD (k / 8 * 8 + k % 8) = _ at bit
  rw [← place] at bit
  unfold front
  rw [bit, bit]
  by_cases unmasked : (mask >>> (k / 8 * 8)) &&& 0xff = 0
  · have off := byte_unmasked.mp unmasked (k % 8) (Nat.mod_lt k (by decide))
    rw [← place] at off
    simp [off]
  · have read : wanted mask stream (k / 8) = stream[k / 8]?.getD 0 := if_neg unmasked
    rw [read]

theorem first_test {stream : List Byte} (member : a ∈ alts) (holds : a.instr.matchesBytes stream = true) :
    ∃ got, Index.gather (firstBytes alts).mask stream [0, 1, 2, 3] 0 = some got ∧ (firstBytes alts).Holds got := by
  refine ⟨fourBytes.pack (wanted (firstBytes alts).mask stream), ?_, ?_⟩
  · apply gather_eq
    intro i inList masked
    have inRange : i < 4 := by
      simp only [List.mem_cons, List.not_mem_nil, or_false] at inList
      omega
    by_cases unmasked : (a.instr.test i).mask = 0
    · exact absurd (byte_unmasked.mpr fun k small => firstBytes_mask member inRange unmasked small) masked
    · obtain ⟨b, there, -⟩ := MaskValue.matchesBytes_iff.mp holds i unmasked
      simp [there]
  · show fourBytes.pack _ &&& _ = _
    rw [wanted_and]
    exact firstBytes_holds member holds

variable {spec : Spec}

theorem byteTest_holds {id : ConstructorId} {stream context : List Byte} (at_ : Nat)
    (admits : spec.Admits id stream context) : (byteTest spec id at_).Holds (stream[at_]?.getD 0) := by
  obtain ⟨c, there, may⟩ := admits
  obtain ⟨a, member, both⟩ := List.any_eq_true.mp may
  rw [PatternAlt.admits, Bool.and_eq_true] at both
  simp only [byteTest, there]
  exact BitTest.agreeAll_holds (List.mem_map_of_mem (f := fun a : PatternAlt => a.instr.test at_) member)
    (MaskValue.test_holds both.1 at_)

theorem byteTest_free {id : ConstructorId} {stream context : List Byte} {at_ : Nat} (short : stream[at_]? = none)
    (admits : spec.Admits id stream context) : (byteTest spec id at_).mask = 0 := by
  obtain ⟨c, there, may⟩ := admits
  obtain ⟨a, member, both⟩ := List.any_eq_true.mp may
  rw [PatternAlt.admits, Bool.and_eq_true] at both
  simp only [byteTest, there]
  have inside := BitTest.agreeAll_mask
    (List.mem_map_of_mem (f := fun a : PatternAlt => a.instr.test at_) member)
  have unmasked : (a.instr.test at_).mask = 0 := by
    by_contra masked
    obtain ⟨b, reached, -⟩ := MaskValue.matchesBytes_iff.mp both.1 at_ masked
    rw [short] at reached
    contradiction
  rw [← inside, unmasked]
  simp

/-- The constructors of a list that admit a value of the decision byte. -/
def part (spec : Spec) (ids : List ConstructorId) (at_ : Nat) (value : Byte) : List ConstructorId :=
  ids.filter fun id => decide ((byteTest spec id at_).Holds value)

/-- The buckets of the values before `v`, end to end. -/
def before (spec : Spec) (ids : List ConstructorId) (at_ v : Nat) : List ConstructorId :=
  (List.range v).flatMap fun value => part spec ids at_ (BitVec.ofNat 8 value)

theorem before_succ (spec : Spec) (ids : List ConstructorId) (at_ v : Nat) :
    before spec ids at_ (v + 1) = before spec ids at_ v ++ part spec ids at_ (BitVec.ofNat 8 v) := by
  simp [before, List.range_succ]

variable {ids : List ConstructorId}

theorem fill_eq {at_ cap : Nat} (n : Nat) : ∀ v ends flat,
    Buckets.fill spec ids at_ cap (List.range' v n) ((List.range v).map fun i => (before spec ids at_ i).length)
      (before spec ids at_ v) = some (ends, flat) →
    ends = (List.range (v + n)).map (fun i => (before spec ids at_ i).length) ∧ flat = before spec ids at_ (v + n) := by
  induction n with
  | zero =>
    intro v ends flat filled
    obtain ⟨rfl, rfl⟩ := by simpa [Buckets.fill] using filled
    exact ⟨rfl, rfl⟩
  | succ n ih =>
    intro v ends flat filled
    rw [List.range'_succ, Buckets.fill] at filled
    split at filled
    · contradiction
    · have grown : before spec ids at_ v ++ ids.filter (fun id => decide ((byteTest spec id at_).Holds (BitVec.ofNat 8 v))) =
          before spec ids at_ (v + 1) := (before_succ spec ids at_ v).symm
      rw [grown, ← List.map_singleton (f := fun i => (before spec ids at_ i).length) (a := v), ← List.map_append,
        ← List.range_succ] at filled
      have := ih (v + 1) ends flat filled
      rwa [show v + 1 + n = v + (n + 1) by omega] at this

theorem bucket_eq {b : Buckets} (built : Buckets.build spec ids = some b) (byte : Byte) :
    b.bucket byte = part spec ids b.at_ byte := by
  unfold Buckets.build at built
  split at built
  · contradiction
  dsimp only at built
  split at built
  · contradiction
  obtain ⟨⟨ends, flat⟩, filled, rest⟩ := Option.bind_eq_some_iff.mp built
  obtain rfl := Option.some.inj rest
  rw [List.range_eq_range'] at filled
  obtain ⟨sameEnds, sameFlat⟩ := fill_eq 256 0 ends flat filled
  have stops : ends ++ [flat.length] =
      (List.range 257).map fun i => (before spec ids (Buckets.decisionByte spec ids) i).length := by
    rw [sameEnds, sameFlat, ← List.map_singleton
      (f := fun i => (before spec ids (Buckets.decisionByte spec ids) i).length), ← List.map_append, ← List.range_succ]
  have small := byte.isLt
  unfold Buckets.bucket
  dsimp only
  rw [stops, List.getElem?_map, List.getElem?_map, List.getElem?_range (by omega), List.getElem?_range (by omega)]
  simp only [Option.map_some]
  have split : flat = before spec ids (Buckets.decisionByte spec ids) (byte.toNat + 1) ++
      (List.range' (byte.toNat + 1) (256 - (byte.toNat + 1))).flatMap
        (fun value => part spec ids (Buckets.decisionByte spec ids) (BitVec.ofNat 8 value)) := by
    have joined := @List.range'_append_1 0 (byte.toNat + 1) (256 - (byte.toNat + 1))
    rw [Nat.zero_add, show byte.toNat + 1 + (256 - (byte.toNat + 1)) = 256 by omega] at joined
    rw [sameFlat]
    unfold before
    rw [← List.flatMap_append, List.range_eq_range', List.range_eq_range', Nat.zero_add, joined]
  rw [split, List.take_left, before_succ, List.drop_left]
  simp

theorem free_eq {b : Buckets} (built : Buckets.build spec ids = some b) :
    b.free = ids.filter fun id => (byteTest spec id b.at_).mask == 0 := by
  unfold Buckets.build at built
  split at built
  · contradiction
  dsimp only at built
  split at built
  · contradiction
  obtain ⟨_, -, rest⟩ := Option.bind_eq_some_iff.mp built
  obtain rfl := Option.some.inj rest
  rfl

/-- What `candidates` keeps of a table. -/
def kept (spec : Spec) (id : TableId) (stream : List Byte) (c : ConstructorId) : Bool :=
  match ((Index.build spec).buckets[id.index]?).join with
  | none => true
  | some b =>
    match stream[b.at_]? with
    | some byte => decide ((byteTest spec c b.at_).Holds byte)
    | none => (byteTest spec c b.at_).mask == 0

theorem candidates_eq (spec : Spec) (id : TableId) (stream : List Byte) :
    (Index.build spec).candidates id stream = ((Index.build spec).table id).filter (kept spec id stream) := by
  unfold Index.candidates kept
  cases found : ((Index.build spec).buckets[id.index]?).join with
  | none => simp
  | some b =>
    have built : Buckets.build spec ((Index.build spec).table id) = some b := by
      simp only [Index.build, List.getElem?_map, Option.join_eq_some_iff, Option.map_eq_some_iff] at found
      obtain ⟨ids, there, built⟩ := found
      obtain ⟨table, listed, rfl⟩ := there
      simpa [Index.table, Index.build, List.getElem?_map, listed] using built
    dsimp only
    cases reached : stream[b.at_]? with
    | none =>
      dsimp only
      rw [free_eq built]
    | some byte =>
      dsimp only
      rw [bucket_eq built]
      rfl

variable {c : ConstructorId}

theorem kept_of_admits {id : TableId} {stream context : List Byte} (admits : spec.Admits c stream context) :
    kept spec id stream c = true := by
  unfold kept
  cases ((Index.build spec).buckets[id.index]?).join with
  | none => rfl
  | some b =>
    dsimp only
    cases reached : stream[b.at_]? with
    | none => simpa using byteTest_free reached admits
    | some byte =>
      have holds := byteTest_holds b.at_ admits
      rw [reached] at holds
      simpa using holds

theorem kept_of_missing {id : TableId} {stream : List Byte} (missing : spec.constructors[c.index]? = none) :
    kept spec id stream c = true := by
  have none : ∀ at_, byteTest spec c at_ = BitTest.free 8 := by
    intro at_
    simp [byteTest, missing]
  unfold kept
  cases ((Index.build spec).buckets[id.index]?).join with
  | none => rfl
  | some b =>
    dsimp only
    rw [none]
    cases stream[b.at_]? with
    | none => rfl
    | some byte => exact decide_eq_true (BitTest.holds_of_free rfl byte)

theorem mayStart_of_admits {stream context : List Byte} {word : Nat → Byte} (admits : spec.Admits c stream context)
    (same : ∀ (i : Nat) b, context[i]? = some b → word i = b) :
    (Index.build spec).mayStart c stream (eightBytes.pack word) = true := by
  obtain ⟨ctor, there, may⟩ := admits
  obtain ⟨a, member, both⟩ := List.any_eq_true.mp may
  rw [PatternAlt.admits, Bool.and_eq_true] at both
  have inContext := contextWord_holds member both.2 same
  obtain ⟨got, read, holds⟩ := first_test member both.1
  unfold Index.mayStart
  simp only [Index.build, List.getElem?_map, there, Option.map_some, Option.any_some, inContext, decide_true,
    Bool.not_true, Bool.false_eq_true, if_false, read]
  split
  · rfl
  · exact decide_eq_true holds

theorem mayStart_of_missing {stream : List Byte} {context : BitVec 64} (missing : spec.constructors[c.index]? = none) :
    (Index.build spec).mayStart c stream context = true := by
  simp [Index.mayStart, Index.build, List.getElem?_map, missing]

/-- The constructors with an alternative whose masks hold are the same, in the
    same order, among the candidates that may start and in the whole table. -/
theorem candidates_lossless (spec : Spec) (id : TableId) (stream context : List Byte) (word : Nat → Byte)
    (same : ∀ (i : Nat) b, context[i]? = some b → word i = b) :
    (((Index.build spec).candidates id stream).filter
        ((Index.build spec).mayStart · stream (eightBytes.pack word))).filter (spec.Admits · stream context) =
      ((Index.build spec).table id).filter (spec.Admits · stream context) := by
  rw [candidates_eq, List.filter_filter, List.filter_filter]
  apply List.filter_congr
  intro c _
  by_cases admits : spec.Admits c stream context
  · simp [admits, kept_of_admits admits, mayStart_of_admits admits same]
  · simp [admits]

end E5r.SleighIndex
