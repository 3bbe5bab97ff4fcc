import Mathlib.Data.BitVec

/-!
Tests on the bits of a word: a mask and the value that the masked bits must
take. Several tests agree on the bits that all of them constrain in the same
way, and what they agree on holds wherever one of them holds.
-/
namespace E5r.BitTests

/-- A mask over a word and the value of the masked bits; bits outside the mask
    are zero. -/
structure BitTest (w : Nat) where
  mask : BitVec w
  value : BitVec w
  within : value &&& mask = value
deriving DecidableEq

namespace BitTest
variable {w : Nat}

/-- The test that constrains no bit. -/
def free (w : Nat) : BitTest w := ⟨0, 0, by simp⟩

instance : Inhabited (BitTest w) := ⟨free w⟩

def Holds (t : BitTest w) (x : BitVec w) : Prop := x &&& t.mask = t.value

instance (t : BitTest w) (x : BitVec w) : Decidable (t.Holds x) := inferInstanceAs (Decidable (_ = _))

theorem value_of_free {t : BitTest w} (unmasked : t.mask = 0) : t.value = 0 := by
  rw [← t.within, unmasked]
  simp

theorem holds_of_free {t : BitTest w} (unmasked : t.mask = 0) (x : BitVec w) : t.Holds x := by
  simp [Holds, unmasked, value_of_free unmasked]

/-- The bits that both tests constrain in the same way. -/
def agree (t u : BitTest w) : BitTest w where
  mask := t.mask &&& u.mask &&& ~~~(t.value ^^^ u.value)
  value := t.value &&& (t.mask &&& u.mask &&& ~~~(t.value ^^^ u.value))
  within := by rw [BitVec.and_assoc, BitVec.and_self]

theorem agree_left {t u : BitTest w} {x : BitVec w} (holds : t.Holds x) : (t.agree u).Holds x := by
  unfold Holds at holds
  simp only [Holds, agree]
  rw [← holds]
  ext i
  simp only [BitVec.getElem_and, BitVec.getElem_not, BitVec.getElem_xor]
  grind

theorem agree_right {t u : BitTest w} {x : BitVec w} (holds : u.Holds x) : (t.agree u).Holds x := by
  unfold Holds at holds
  have inside := t.within
  simp only [Holds, agree]
  rw [← holds, ← inside]
  ext i
  simp only [BitVec.getElem_and, BitVec.getElem_not, BitVec.getElem_xor]
  grind

theorem agree_mask_left (t u : BitTest w) : (t.agree u).mask &&& t.mask = (t.agree u).mask := by
  ext i
  simp only [agree, BitVec.getElem_and, BitVec.getElem_not, BitVec.getElem_xor]
  grind

theorem agree_mask_right (t u : BitTest w) : (t.agree u).mask &&& u.mask = (t.agree u).mask := by
  ext i
  simp only [agree, BitVec.getElem_and, BitVec.getElem_not, BitVec.getElem_xor]
  grind

/-- What all the tests of a list agree on; an empty list constrains nothing. -/
def agreeAll : List (BitTest w) → BitTest w
  | [] => free w
  | t :: rest => rest.foldl agree t

private theorem foldl_agree (rest : List (BitTest w)) : ∀ (t : BitTest w) (x : BitVec w),
    t.Holds x ∨ (∃ u ∈ rest, u.Holds x) → (rest.foldl agree t).Holds x := by
  induction rest with
  | nil =>
    intro t x holds
    simpa using holds
  | cons u rest ih =>
    intro t x holds
    apply ih
    rcases holds with first | ⟨v, member, one⟩
    · exact .inl (agree_left first)
    · rcases List.mem_cons.mp member with rfl | later
      · exact .inl (agree_right one)
      · exact .inr ⟨v, later, one⟩

theorem agreeAll_holds {tests : List (BitTest w)} {t : BitTest w} {x : BitVec w} (member : t ∈ tests)
    (holds : t.Holds x) : (agreeAll tests).Holds x := by
  cases tests with
  | nil => simp at member
  | cons u rest =>
    apply foldl_agree
    rcases List.mem_cons.mp member with rfl | later
    · exact .inl holds
    · exact .inr ⟨t, later, holds⟩

private theorem foldl_mask (rest : List (BitTest w)) : ∀ t : BitTest w,
    (rest.foldl agree t).mask &&& t.mask = (rest.foldl agree t).mask ∧
      ∀ u ∈ rest, (rest.foldl agree t).mask &&& u.mask = (rest.foldl agree t).mask := by
  induction rest with
  | nil => simp
  | cons u rest ih =>
    intro t
    obtain ⟨first, others⟩ := ih (t.agree u)
    have left : ∀ m : BitVec w, (t.agree u).mask &&& m = (t.agree u).mask →
        ((u :: rest).foldl agree t).mask &&& m = ((u :: rest).foldl agree t).mask := by
      intro m inside
      rw [List.foldl_cons, ← first, BitVec.and_assoc, inside]
    refine ⟨left _ (agree_mask_left t u), ?_⟩
    intro v member
    rcases List.mem_cons.mp member with rfl | later
    · exact left _ (agree_mask_right t v)
    · exact others v later

theorem agreeAll_mask {tests : List (BitTest w)} {t : BitTest w} (member : t ∈ tests) :
    (agreeAll tests).mask &&& t.mask = (agreeAll tests).mask := by
  cases tests with
  | nil => simp at member
  | cons u rest =>
    obtain ⟨first, others⟩ := foldl_mask rest u
    rcases List.mem_cons.mp member with rfl | later
    · exact first
    · exact others t later

/-- Both tests at once; `none` when they contradict each other. -/
def both (t u : BitTest w) : Option (BitTest w) :=
  if t.value &&& (t.mask &&& u.mask) = u.value &&& (t.mask &&& u.mask) then
    some ⟨t.mask ||| u.mask, t.value ||| (u.value &&& u.mask), by
      have inT := t.within
      have inU := u.within
      ext i
      have bitT := congrArg (·[i]) inT
      have bitU := congrArg (·[i]) inU
      simp only [BitVec.getElem_and, BitVec.getElem_or] at *
      grind⟩
  else none

theorem both_holds {t u joined : BitTest w} (made : t.both u = some joined) (x : BitVec w) :
    joined.Holds x ↔ t.Holds x ∧ u.Holds x := by
  unfold both at made
  split at made
  · next compatible =>
    obtain rfl := Option.some.inj made
    have inT := t.within
    have inU := u.within
    simp only [Holds]
    constructor
    · intro holds
      constructor
      · ext i
        have bit := congrArg (·[i]) holds
        have bitT := congrArg (·[i]) inT
        have bitU := congrArg (·[i]) inU
        have bitC := congrArg (·[i]) compatible
        simp only [BitVec.getElem_and, BitVec.getElem_or] at *
        grind
      · ext i
        have bit := congrArg (·[i]) holds
        have bitT := congrArg (·[i]) inT
        have bitU := congrArg (·[i]) inU
        have bitC := congrArg (·[i]) compatible
        simp only [BitVec.getElem_and, BitVec.getElem_or] at *
        grind
    · rintro ⟨holdsT, holdsU⟩
      ext i
      have bitT := congrArg (·[i]) holdsT
      have bitU := congrArg (·[i]) holdsU
      have inside := congrArg (·[i]) inU
      simp only [BitVec.getElem_and, BitVec.getElem_or] at *
      grind
  · contradiction

theorem both_none {t u : BitTest w} (refused : t.both u = none) {x : BitVec w} (holdsT : t.Holds x) : ¬ u.Holds x := by
  unfold both at refused
  split at refused
  · contradiction
  · next contradictory =>
    intro holdsU
    apply contradictory
    unfold Holds at holdsT holdsU
    rw [← holdsT, ← holdsU]
    ext i
    simp only [BitVec.getElem_and]
    grind

end BitTest

/-- Where the bytes of a word of `w` bits lie: byte `i` of `count` starts at bit
    `place i`, and no two bytes share a bit. -/
structure Layout (w : Nat) where
  count : Nat
  place : Nat → Nat
  inside : ∀ i < count, place i + 8 ≤ w
  apart : ∀ i < count, ∀ j < count, i ≠ j → place i + 8 ≤ place j ∨ place j + 8 ≤ place i

namespace Layout
variable {w : Nat}

/-- The bytes of a word put together. -/
def pack (l : Layout w) (bytes : Nat → BitVec 8) : BitVec w :=
  (List.range l.count).foldl (fun out i => out ||| (bytes i).setWidth w <<< l.place i) 0

private theorem foldl_getLsbD (place : Nat → Nat) (bytes : Nat → BitVec 8) (k : Nat) (within : k < w) (is : List Nat) :
    ∀ out : BitVec w, (is.foldl (fun out i => out ||| (bytes i).setWidth w <<< place i) out).getLsbD k = true ↔
      out.getLsbD k = true ∨ ∃ i ∈ is, place i ≤ k ∧ (bytes i).getLsbD (k - place i) = true := by
  induction is with
  | nil => simp
  | cons i is ih =>
    intro out
    rw [List.foldl_cons, ih]
    simp only [BitVec.getLsbD_or, BitVec.getLsbD_shiftLeft, BitVec.getLsbD_setWidth, Bool.or_eq_true,
      Bool.and_eq_true, decide_eq_true_eq, Bool.not_eq_true', decide_eq_false_iff_not, List.mem_cons]
    constructor
    · rintro ((held | ⟨⟨-, reached⟩, -, bit⟩) | ⟨j, member, bit⟩)
      · exact .inl held
      · exact .inr ⟨i, .inl rfl, by omega, bit⟩
      · exact .inr ⟨j, .inr member, bit⟩
    · rintro (held | ⟨j, rfl | member, reached, bit⟩)
      · exact .inl (.inl held)
      · exact .inl (.inr ⟨⟨within, by omega⟩, by omega, bit⟩)
      · exact .inr ⟨j, member, reached, bit⟩

theorem pack_getLsbD (l : Layout w) (bytes : Nat → BitVec 8) {k : Nat} (within : k < w) :
    (l.pack bytes).getLsbD k = true ↔
      ∃ i < l.count, l.place i ≤ k ∧ (bytes i).getLsbD (k - l.place i) = true := by
  unfold pack
  rw [foldl_getLsbD l.place bytes k within]
  simp

theorem pack_bit (l : Layout w) (bytes : Nat → BitVec 8) {i k : Nat} (inRange : i < l.count) (small : k < 8) :
    (l.pack bytes).getLsbD (l.place i + k) = (bytes i).getLsbD k := by
  have fits := l.inside i inRange
  rw [Bool.eq_iff_iff, l.pack_getLsbD bytes (by omega)]
  constructor
  · rintro ⟨j, below, reached, bit⟩
    have short : l.place i + k - l.place j < 8 := BitVec.lt_of_getLsbD bit
    by_cases same : i = j
    · subst same
      simpa using bit
    · have := l.apart i inRange j below same
      omega
  · intro bit
    exact ⟨i, inRange, by omega, by simpa using bit⟩

theorem pack_and (l : Layout w) (f g : Nat → BitVec 8) : l.pack (fun i => f i &&& g i) = l.pack f &&& l.pack g := by
  apply BitVec.eq_of_getLsbD_eq
  intro k within
  rw [Bool.eq_iff_iff, BitVec.getLsbD_and, Bool.and_eq_true, l.pack_getLsbD _ within, l.pack_getLsbD _ within,
    l.pack_getLsbD _ within]
  constructor
  · rintro ⟨i, inRange, reached, bit⟩
    rw [BitVec.getLsbD_and, Bool.and_eq_true] at bit
    exact ⟨⟨i, inRange, reached, bit.1⟩, ⟨i, inRange, reached, bit.2⟩⟩
  · rintro ⟨⟨i, inRange, reached, bit⟩, ⟨j, below, reached', bit'⟩⟩
    have short := BitVec.lt_of_getLsbD bit
    have short' := BitVec.lt_of_getLsbD bit'
    by_cases same : i = j
    · subst same
      exact ⟨i, inRange, reached, by simp [bit, bit']⟩
    · have := l.apart i inRange j below same
      omega

theorem pack_congr (l : Layout w) {f g : Nat → BitVec 8} (same : ∀ i < l.count, f i = g i) : l.pack f = l.pack g := by
  apply BitVec.eq_of_getLsbD_eq
  intro k within
  rw [Bool.eq_iff_iff, l.pack_getLsbD _ within, l.pack_getLsbD _ within]
  constructor
  · rintro ⟨i, inRange, rest⟩
    exact ⟨i, inRange, by rwa [← same i inRange]⟩
  · rintro ⟨i, inRange, rest⟩
    exact ⟨i, inRange, by rwa [same i inRange]⟩

def packTest (l : Layout w) (tests : Nat → BitTest 8) : BitTest w where
  mask := l.pack fun i => (tests i).mask
  value := l.pack fun i => (tests i).value
  within := by
    rw [← pack_and]
    exact l.pack_congr fun i _ => (tests i).within

theorem packTest_holds (l : Layout w) {tests : Nat → BitTest 8} {bytes : Nat → BitVec 8}
    (holds : ∀ i < l.count, (tests i).Holds (bytes i)) : (l.packTest tests).Holds (l.pack bytes) := by
  show l.pack bytes &&& (l.packTest tests).mask = _
  rw [packTest, ← pack_and]
  exact l.pack_congr holds

end Layout

end E5r.BitTests
