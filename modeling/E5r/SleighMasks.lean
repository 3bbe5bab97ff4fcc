import E5r.SleighReduce

/-!
What the operations on masks mean for the bytes that satisfy them.
-/
namespace E5r.SleighMasks
open BitTests SleighModel SleighReduce

/-- A byte of the stream passes a test; a missing byte passes only a test that
    constrains nothing. -/
def Passes (stream : List Byte) (i : Nat) (t : BitTest 8) : Prop :=
  t.mask ≠ 0 → ∃ b, stream[i]? = some b ∧ t.Holds b

variable {mv : MaskValue}

theorem matchesBytes_passes {stream : List Byte} :
    mv.matchesBytes stream = true ↔ ∀ i, Passes stream i (mv.test i) := MaskValue.matchesBytes_iff

theorem passes_free (stream : List Byte) (i : Nat) : Passes stream i (BitTest.free 8) := by
  intro masked
  exact absurd rfl masked

theorem or_ne_zero {x y : BitVec 8} : x ||| y ≠ 0 ↔ x ≠ 0 ∨ y ≠ 0 := by
  have zero : x ||| y = 0 ↔ x = 0 ∧ y = 0 := BitVec.or_eq_zero_iff
  rw [Ne, zero, not_and_or]

variable {t u : BitTest 8}

theorem both_mask {joined : BitTest 8} (made : t.both u = some joined) : joined.mask = t.mask ||| u.mask := by
  unfold BitTest.both at made
  split at made
  · obtain rfl := Option.some.inj made
    rfl
  · contradiction

theorem passes_both {joined : BitTest 8} (made : t.both u = some joined) (stream : List Byte) (i : Nat) :
    Passes stream i joined ↔ Passes stream i t ∧ Passes stream i u := by
  have mask := both_mask made
  unfold Passes
  rw [mask, or_ne_zero]
  constructor
  · intro pass
    constructor
    · intro masked
      obtain ⟨b, there, holds⟩ := pass (.inl masked)
      exact ⟨b, there, ((BitTest.both_holds made b).mp holds).1⟩
    · intro masked
      obtain ⟨b, there, holds⟩ := pass (.inr masked)
      exact ⟨b, there, ((BitTest.both_holds made b).mp holds).2⟩
  · rintro ⟨passT, passU⟩ masked
    by_cases maskT : t.mask = 0
    · obtain ⟨b, there, holds⟩ := passU (masked.resolve_left (by simp [maskT]))
      exact ⟨b, there, (BitTest.both_holds made b).mpr ⟨BitTest.holds_of_free maskT b, holds⟩⟩
    · obtain ⟨b, there, holds⟩ := passT maskT
      by_cases maskU : u.mask = 0
      · exact ⟨b, there, (BitTest.both_holds made b).mpr ⟨holds, BitTest.holds_of_free maskU b⟩⟩
      · obtain ⟨c, same, holdsU⟩ := passU maskU
        obtain rfl := Option.some.inj (there.symm.trans same)
        exact ⟨b, there, (BitTest.both_holds made b).mpr ⟨holds, holdsU⟩⟩

variable {i : Nat}

theorem passes_both_none (refused : t.both u = none) {stream : List Byte} (passT : Passes stream i t) :
    ¬ Passes stream i u := by
  intro passU
  by_cases maskT : t.mask = 0
  · simp [BitTest.both, maskT] at refused
  · by_cases maskU : u.mask = 0
    · simp [BitTest.both, maskU] at refused
    · obtain ⟨b, there, holds⟩ := passT maskT
      obtain ⟨c, same, holdsU⟩ := passU maskU
      obtain rfl := Option.some.inj (there.symm.trans same)
      exact BitTest.both_none refused holds holdsU

theorem grown_test (tests : List (BitTest 8)) (n i : Nat) :
    (tests ++ List.replicate n (BitTest.free 8))[i]?.getD (BitTest.free 8) = tests[i]?.getD (BitTest.free 8) := by
  by_cases inside : i < tests.length
  · rw [List.getElem?_append_left inside]
  · rw [List.getElem?_append_right (by omega), List.getElem?_eq_none (l := tests) (by omega), List.getElem?_replicate]
    split <;> rfl

theorem constrain_some {made : MaskValue} {byte : Nat} (some : mv.constrain byte t = some made) (stream : List Byte) :
    made.matchesBytes stream = true ↔ mv.matchesBytes stream = true ∧ Passes stream byte t := by
  unfold MaskValue.constrain at some
  simp only [Option.map_eq_some_iff] at some
  obtain ⟨joined, both, rfl⟩ := some
  rw [grown_test] at both
  have here : byte < (mv.tests ++ List.replicate (byte + 1 - mv.tests.length) (BitTest.free 8)).length := by
    simp only [List.length_append, List.length_replicate]
    omega
  have at_byte : (MaskValue.mk ((mv.tests ++ List.replicate (byte + 1 - mv.tests.length) (BitTest.free 8)).set byte
      joined)).test byte = joined := by
    unfold MaskValue.test
    rw [List.getElem?_set_self here]
    rfl
  have elsewhere : ∀ i, i ≠ byte → (MaskValue.mk ((mv.tests ++ List.replicate (byte + 1 - mv.tests.length)
      (BitTest.free 8)).set byte joined)).test i = mv.test i := by
    intro i other
    unfold MaskValue.test
    rw [List.getElem?_set_ne (Ne.symm other)]
    exact grown_test _ _ _
  rw [matchesBytes_passes, matchesBytes_passes]
  constructor
  · intro all
    have joinedPass := all byte
    rw [at_byte] at joinedPass
    obtain ⟨old, new⟩ := (passes_both both stream byte).mp joinedPass
    refine ⟨fun i => ?_, new⟩
    by_cases same : i = byte
    · subst same
      exact old
    · rw [← elsewhere i same]
      exact all i
  · rintro ⟨all, new⟩ i
    by_cases same : i = byte
    · subst same
      rw [at_byte]
      exact (passes_both both stream i).mpr ⟨all i, new⟩
    · rw [elsewhere i same]
      exact all i

theorem constrain_none {byte : Nat} (none : mv.constrain byte t = none) {stream : List Byte}
    (holds : mv.matchesBytes stream = true) : ¬ Passes stream byte t := by
  unfold MaskValue.constrain at none
  simp only [Option.map_eq_none_iff] at none
  rw [grown_test] at none
  exact passes_both_none none (matchesBytes_passes.mp holds byte)

theorem constrainAll_some (tests : List (Nat × BitTest 8)) : ∀ {mv made : MaskValue},
    constrainAll mv tests = some made → ∀ stream : List Byte,
    (made.matchesBytes stream = true ↔ mv.matchesBytes stream = true ∧ ∀ p ∈ tests, Passes stream p.1 p.2) := by
  induction tests with
  | nil =>
    intro mv made run stream
    obtain rfl := Option.some.inj run
    simp
  | cons p tests ih =>
    intro mv made run stream
    obtain ⟨next, first, rest⟩ := Option.bind_eq_some_iff.mp run
    rw [ih rest stream, constrain_some first stream]
    simp only [List.forall_mem_cons]
    exact and_assoc

theorem constrainAll_none (tests : List (Nat × BitTest 8)) : ∀ {mv : MaskValue}, constrainAll mv tests = none →
    ∀ {stream : List Byte}, mv.matchesBytes stream = true → ¬ ∀ p ∈ tests, Passes stream p.1 p.2 := by
  induction tests with
  | nil =>
    intro mv run
    contradiction
  | cons p tests ih =>
    obtain ⟨byte, t⟩ := p
    intro mv run stream holds all
    rw [List.forall_mem_cons] at all
    cases first : mv.constrain byte t with
    | none => exact constrain_none first holds all.1
    | some next =>
      have later : constrainAll next tests = none := by
        unfold constrainAll at run
        simp only [List.foldlM_cons, first] at run
        exact run
      exact ih later ((constrain_some first stream).mpr ⟨holds, all.1⟩) all.2

/-- The byte tests of a mask that constrain something. -/
def listed (mv : MaskValue) : List (Nat × BitTest 8) := (mv.tests.zipIdx.filter fun p => p.1.mask ≠ 0).map fun p => (p.2, p.1)

theorem merge_eq (mv other : MaskValue) : mv.merge other = constrainAll mv (listed other) := by
  unfold MaskValue.merge listed constrainAll
  generalize other.tests.zipIdx = tests
  induction tests generalizing mv with
  | nil => rfl
  | cons p tests ih =>
    rw [List.foldlM_cons]
    by_cases unmasked : p.1.mask = 0
    · rw [List.filter_cons_of_neg (by simpa using unmasked)]
      simp only [unmasked, if_true]
      exact ih mv
    · rw [List.filter_cons_of_pos (by simpa using unmasked), List.map_cons, List.foldlM_cons]
      simp only [unmasked, if_false]
      cases mv.constrain p.2 p.1 with
      | none => rfl
      | some next => exact ih next

theorem listed_passes {stream : List Byte} :
    (∀ p ∈ listed mv, Passes stream p.1 p.2) ↔ mv.matchesBytes stream = true := by
  rw [matchesBytes_passes]
  constructor
  · intro all i masked
    have inside : i < mv.tests.length := by
      by_contra outside
      apply masked
      unfold MaskValue.test
      rw [List.getElem?_eq_none (by omega)]
      rfl
    have test : mv.test i = mv.tests[i] := by simp [MaskValue.test, inside]
    rw [test] at masked ⊢
    refine all (i, mv.tests[i]) ?_ masked
    refine List.mem_map.mpr ⟨(mv.tests[i], i), List.mem_filter.mpr ⟨?_, by simpa using masked⟩, rfl⟩
    rw [List.mk_mem_zipIdx_iff_getElem?]
    exact List.getElem?_eq_getElem inside
  · intro all p member
    obtain ⟨⟨t, i⟩, inList, rfl⟩ := List.mem_map.mp member
    have there := List.mk_mem_zipIdx_iff_getElem?.mp (List.mem_of_mem_filter inList)
    have test : mv.test i = t := by simp [MaskValue.test, there]
    rw [← test]
    exact all i

variable {other : MaskValue}

theorem merge_some {made : MaskValue} (some : mv.merge other = some made) (stream : List Byte) :
    made.matchesBytes stream = true ↔ mv.matchesBytes stream = true ∧ other.matchesBytes stream = true := by
  rw [merge_eq] at some
  rw [constrainAll_some _ some stream, listed_passes]

theorem merge_none (none : mv.merge other = none) {stream : List Byte} (holds : mv.matchesBytes stream = true) :
    ¬ other.matchesBytes stream = true := by
  rw [merge_eq] at none
  rw [← listed_passes]
  exact constrainAll_none _ none holds

theorem passes_drop {stream : List Byte} {n : Nat} : Passes (stream.drop n) i t ↔ Passes stream (n + i) t := by
  unfold Passes
  rw [List.getElem?_drop]

theorem shifted_matches (mv : MaskValue) (n : Nat) (stream : List Byte) :
    (mv.shifted n).matchesBytes stream = true ↔ mv.matchesBytes (stream.drop n) = true := by
  rw [matchesBytes_passes, matchesBytes_passes]
  unfold MaskValue.shifted
  by_cases trivial : n = 0 ∨ mv.tests = []
  · rw [if_pos trivial]
    rcases trivial with rfl | empty
    · simp
    · have nothing : ∀ i, mv.test i = BitTest.free 8 := by
        intro i
        simp [MaskValue.test, empty]
      simp [nothing, passes_free]
  · rw [if_neg trivial]
    constructor
    · intro all i
      have pass := all (n + i)
      unfold MaskValue.test at pass
      rw [List.getElem?_append_right (by simp)] at pass
      rw [passes_drop]
      simpa [MaskValue.test] using pass
    · intro all i
      unfold MaskValue.test
      by_cases before : i < n
      · rw [List.getElem?_append_left (by simpa using before), List.getElem?_replicate, if_pos before]
        exact passes_free stream i
      · rw [List.getElem?_append_right (by simpa using before)]
        have pass := passes_drop.mp (all (i - n))
        rw [show n + (i - n) = i by omega] at pass
        simpa [MaskValue.test] using pass

theorem and_ne_zero {x y : BitVec 8} (kept : x &&& y = x) (masked : x ≠ 0) : y ≠ 0 := by
  rintro rfl
  apply masked
  rw [← kept]
  simp

theorem passes_agree_left {stream : List Byte} (pass : Passes stream i t) : Passes stream i (t.agree u) := by
  intro masked
  obtain ⟨b, there, holds⟩ := pass (and_ne_zero (BitTest.agree_mask_left t u) masked)
  exact ⟨b, there, BitTest.agree_left holds⟩

theorem passes_agree_right {stream : List Byte} (pass : Passes stream i u) : Passes stream i (t.agree u) := by
  intro masked
  obtain ⟨b, there, holds⟩ := pass (and_ne_zero (BitTest.agree_mask_right t u) masked)
  exact ⟨b, there, BitTest.agree_right holds⟩

theorem intersect_test (mv other : MaskValue) (i : Nat) :
    (mv.intersect other).test i = (mv.test i).agree (other.test i) ∨ (mv.intersect other).test i = BitTest.free 8 := by
  unfold MaskValue.intersect MaskValue.test
  rw [List.getElem?_zipWith]
  cases mv.tests[i]? <;> cases other.tests[i]? <;> simp

theorem intersect_left {stream : List Byte} (holds : mv.matchesBytes stream = true) :
    (mv.intersect other).matchesBytes stream = true := by
  rw [matchesBytes_passes] at holds ⊢
  intro i
  rcases intersect_test mv other i with same | free
  · rw [same]
    exact passes_agree_left (holds i)
  · rw [free]
    exact passes_free stream i

theorem intersect_right {stream : List Byte} (holds : other.matchesBytes stream = true) :
    (mv.intersect other).matchesBytes stream = true := by
  rw [matchesBytes_passes] at holds ⊢
  intro i
  rcases intersect_test mv other i with same | free
  · rw [same]
    exact passes_agree_right (holds i)
  · rw [free]
    exact passes_free stream i

end E5r.SleighMasks
