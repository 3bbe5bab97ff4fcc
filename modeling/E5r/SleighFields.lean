import E5r.SleighMasks

/-!
A field of at most 64 bits reads a value exactly where the mask that `encode`
and `bitTests` give for it is satisfied.
-/
namespace E5r.SleighFields
open BitTests SleighModel SleighReduce SleighMasks

theorem bitTest_mask {offset : Nat} (small : offset < 8) (set : Bool) : (bitTest offset set).mask ≠ 0 := by
  have all : ∀ offset < 8, (1 : BitVec 8) <<< offset ≠ 0 := by decide
  exact all offset small

theorem bitTest_holds {offset : Nat} (small : offset < 8) (set : Bool) (b : Byte) :
    (bitTest offset set).Holds b ↔ b.getLsbD offset = set := by
  have bit : ∀ k, ((1 : BitVec 8) <<< offset).getLsbD k = decide (k = offset) := by
    intro k
    have all : ∀ offset < 8, ∀ k < 8, ((1 : BitVec 8) <<< offset).getLsbD k = decide (k = offset) := by decide
    by_cases within : k < 8
    · exact all offset small k within
    · rw [BitVec.getLsbD_of_ge _ _ (by omega)]
      simp only [Bool.false_eq, decide_eq_false_iff_not]
      omega
  have wanted : ∀ k, (if set then (1 : BitVec 8) <<< offset else 0).getLsbD k = (decide (k = offset) && set) := by
    intro k
    cases set with
    | true => rw [if_pos rfl, bit, Bool.and_true]
    | false => simp
  unfold BitTest.Holds bitTest
  constructor
  · intro same
    have here := congrArg (·.getLsbD offset) same
    simp only [BitVec.getLsbD_and, bit, wanted, decide_true, Bool.and_true, Bool.true_and] at here
    exact here
  · intro same
    apply BitVec.eq_of_getLsbD_eq
    intro k _
    simp only [BitVec.getLsbD_and, bit, wanted]
    by_cases here : k = offset
    · subst here
      simp [same]
    · simp [here]

def BitIs (position : Nat → Option (Nat × Nat)) (stream : List Byte) (bit : Nat) (set : Bool) : Prop :=
  ∃ byte offset b, position bit = some (byte, offset) ∧ stream[byte]? = some b ∧ b.getLsbD offset = set

/-- Every position is a bit of a byte. -/
def InBytes (position : Nat → Option (Nat × Nat)) : Prop :=
  ∀ bit byte offset, position bit = some (byte, offset) → offset < 8

theorem passes_bitTest {stream : List Byte} {byte offset : Nat} (small : offset < 8) {set : Bool} :
    Passes stream byte (bitTest offset set) ↔ ∃ b, stream[byte]? = some b ∧ b.getLsbD offset = set := by
  unfold Passes
  constructor
  · intro pass
    obtain ⟨b, there, holds⟩ := pass (bitTest_mask small set)
    exact ⟨b, there, (bitTest_holds small set b).mp holds⟩
  · rintro ⟨b, there, same⟩ _
    exact ⟨b, there, (bitTest_holds small set b).mpr same⟩

theorem setBit_getLsbD {value : BitVec 64} {out : Nat} (small : out < 64) (k : Nat) :
    (setBit value out).getLsbD k = (value.getLsbD k || decide (k = out)) := by
  unfold setBit
  rw [Nat.mod_eq_of_lt small, BitVec.getLsbD_or, BitVec.getLsbD_shiftLeft]
  congr 1
  by_cases same : k = out
  · subst same
    simp [small]
  · by_cases below : k < out
    · simp [below, same]
    · have above : k - out ≠ 0 := by omega
      simp [same, above]

theorem readBits_from {position : Nat → Option (Nat × Nat)} {stream : List Byte} (bits : List Nat) :
    ∀ (k : Nat) (acc raw : BitVec 64), k + bits.length ≤ 64 → (∀ j ≥ k, acc.getLsbD j = false) →
    ((bits.zipIdx k).foldlM (fun value (p : Nat × Nat) => do
        let (byte, offset) ← position p.1
        let b ← stream[byte]?
        pure (if b.getLsbD offset then setBit value p.2 else value)) acc = some raw ↔
      (∀ p ∈ bits.zipIdx k, BitIs position stream p.1 (raw.getLsbD p.2)) ∧
        ∀ j, (j < k ∨ k + bits.length ≤ j) → raw.getLsbD j = acc.getLsbD j) := by
  induction bits with
  | nil =>
    intro k acc raw _ clear
    simp only [List.zipIdx_nil, List.foldlM_nil, List.not_mem_nil, false_implies, implies_true, true_and,
      List.length_nil, Nat.add_zero]
    constructor
    · intro same j _
      obtain rfl := Option.some.inj same
      rfl
    · intro same
      refine congrArg some (BitVec.eq_of_getLsbD_eq fun j _ => (same j ?_).symm)
      omega
  | cons bit bits ih =>
    intro k acc raw room clear
    rw [List.length_cons] at room
    rw [List.zipIdx_cons, List.foldlM_cons, List.forall_mem_cons]
    dsimp only
    cases found : position bit with
    | none =>
      constructor
      · intro run
        simp at run
      · rintro ⟨⟨⟨_, _, _, there, -⟩, -⟩, -⟩
        rw [found] at there
        contradiction
    | some spot =>
      obtain ⟨byte, offset⟩ := spot
      simp only [Option.bind_eq_bind, Option.bind_some]
      cases read : stream[byte]? with
      | none =>
        constructor
        · intro run
          simp at run
        · rintro ⟨⟨⟨_, _, _, there, reached, -⟩, -⟩, -⟩
          obtain ⟨rfl, rfl⟩ := by simpa [found] using there
          rw [read] at reached
          contradiction
      | some b =>
        simp only [Option.bind_some]
        have small : k < 64 := by omega
        have stepped : ∀ j, (if b.getLsbD offset then setBit acc k else acc).getLsbD j =
            (acc.getLsbD j || (decide (j = k) && b.getLsbD offset)) := by
          intro j
          cases b.getLsbD offset <;> simp [setBit_getLsbD small]
        have next := ih (k + 1) (if b.getLsbD offset then setBit acc k else acc) raw (by omega) (by
          intro j above
          rw [stepped, clear j (by omega)]
          simp [show j ≠ k by omega])
        refine next.trans ?_
        constructor
        · rintro ⟨later, outside⟩
          have here : raw.getLsbD k = b.getLsbD offset := by
            rw [outside k (.inl (by omega)), stepped, clear k (by omega)]
            simp
          refine ⟨⟨⟨byte, offset, b, found, read, here.symm⟩, later⟩, ?_⟩
          intro j away
          rw [outside j (by rw [List.length_cons] at away; omega), stepped]
          simp [show j ≠ k by rw [List.length_cons] at away; omega]
        · rintro ⟨⟨⟨byte', offset', b', there, reached, here⟩, later⟩, outside⟩
          obtain ⟨rfl, rfl⟩ := by simpa [found] using there
          obtain rfl := Option.some.inj (read.symm.trans reached)
          refine ⟨later, ?_⟩
          intro j away
          rw [stepped]
          by_cases same : j = k
          · subst same
            rw [← here, clear j (by omega)]
            simp
          · rw [outside j (by rw [List.length_cons]; omega)]
            simp [same]

theorem readBits_iff {position : Nat → Option (Nat × Nat)} {stream : List Byte} {bits : List Nat} {raw : BitVec 64}
    (room : bits.length ≤ 64) : readBits position stream bits = some raw ↔
      (∀ p ∈ bits.zipIdx, BitIs position stream p.1 (raw.getLsbD p.2)) ∧ ∀ j ≥ bits.length, raw.getLsbD j = false := by
  have all := @readBits_from position stream bits 0 0 raw (by omega) (by simp)
  unfold readBits
  refine Iff.trans all ?_
  simp

theorem mapM_some_iff {α β : Type} {f : α → Option β} (xs : List α) : ∀ {ys : List β}, xs.mapM f = some ys →
    ∀ P : β → Prop, (∀ y ∈ ys, P y) ↔ ∀ x ∈ xs, ∃ y, f x = some y ∧ P y := by
  induction xs with
  | nil =>
    intro ys run P
    obtain rfl := by simpa using run
    simp
  | cons x xs ih =>
    intro ys run P
    rw [List.mapM_cons] at run
    obtain ⟨y, first, run⟩ := Option.bind_eq_some_iff.mp run
    obtain ⟨rest, later, run⟩ := Option.bind_eq_some_iff.mp run
    obtain rfl := Option.some.inj run
    rw [List.forall_mem_cons, List.forall_mem_cons, ih later P]
    simp [first]

theorem bitTests_iff {position : Nat → Option (Nat × Nat)} (inBytes : InBytes position) {stream : List Byte}
    {bits : List Nat} {value : BitVec 64} {tests : List (Nat × BitTest 8)} (room : bits.length ≤ 64)
    (high : ∀ j ≥ bits.length, value.getLsbD j = false) (made : bitTests position bits value = some tests) :
    (∀ p ∈ tests, Passes stream p.1 p.2) ↔ readBits position stream bits = some value := by
  rw [readBits_iff room, mapM_some_iff _ made fun p => Passes stream p.1 p.2]
  constructor
  · intro all
    refine ⟨?_, high⟩
    rintro ⟨bit, i⟩ member
    obtain ⟨y, found, pass⟩ := all (bit, i) member
    obtain ⟨⟨byte, offset⟩, there, found⟩ := Option.bind_eq_some_iff.mp found
    obtain rfl := Option.some.inj found
    have small : i < 64 := by
      have := List.mk_mem_zipIdx_iff_getElem?.mp member
      have := (List.getElem?_eq_some_iff.mp this).1
      omega
    rw [passes_bitTest (inBytes bit byte offset there), Nat.mod_eq_of_lt small] at pass
    obtain ⟨b, reached, same⟩ := pass
    exact ⟨byte, offset, b, there, reached, same⟩
  · rintro ⟨all, -⟩ ⟨bit, i⟩ member
    obtain ⟨byte, offset, b, there, reached, same⟩ := all (bit, i) member
    have small : i < 64 := by
      have := List.mk_mem_zipIdx_iff_getElem?.mp member
      have := (List.getElem?_eq_some_iff.mp this).1
      omega
    refine ⟨(byte, bitTest offset (value.getLsbD (i % 64))), by simp [there], ?_⟩
    rw [passes_bitTest (inBytes bit byte offset there), Nat.mod_eq_of_lt small]
    exact ⟨b, reached, same⟩

theorem mapM_none {α β : Type} {f : α → Option β} (xs : List α) (run : xs.mapM f = none) : ∃ x ∈ xs, f x = none := by
  induction xs with
  | nil => simp at run
  | cons x xs ih =>
    cases first : f x with
    | none => exact ⟨x, by simp, first⟩
    | some y =>
      cases later : xs.mapM f with
      | none =>
        obtain ⟨other, member, missing⟩ := ih later
        exact ⟨other, List.mem_cons_of_mem x member, missing⟩
      | some ys =>
        rw [List.mapM_cons, first, later] at run
        simp at run

theorem readBits_none {position : Nat → Option (Nat × Nat)} {stream : List Byte} {bits : List Nat} {value : BitVec 64}
    (room : bits.length ≤ 64) (refused : bitTests position bits value = none) :
    readBits position stream bits = none := by
  obtain ⟨⟨bit, i⟩, member, missing⟩ := mapM_none _ refused
  cases read : readBits position stream bits with
  | none => rfl
  | some raw =>
    obtain ⟨byte, offset, b, there, -⟩ := ((readBits_iff room).mp read).1 (bit, i) member
    simp [there] at missing

theorem maskOf_getLsbD (bits k : Nat) : (maskOf bits).getLsbD k = (decide (k < bits) && decide (k < 64)) := by
  unfold maskOf
  split
  · next wide =>
    rw [BitVec.getLsbD_allOnes]
    by_cases small : k < 64
    · simp [small, show k < bits by omega]
    · simp [small]
  · next narrow =>
    have same : (1 : BitVec 64) <<< bits - 1 = BitVec.ofNat 64 (2 ^ bits - 1) := by
      apply BitVec.eq_of_toNat_eq
      have power : 2 ^ bits < 2 ^ 64 := Nat.pow_lt_pow_right (by decide) (by omega)
      have positive : 0 < 2 ^ bits := Nat.two_pow_pos bits
      have one : (1 : BitVec 64).toNat = 1 := rfl
      rw [BitVec.toNat_sub, BitVec.toNat_shiftLeft, BitVec.toNat_ofNat, one, Nat.one_shiftLeft, Nat.mod_eq_of_lt power,
        Nat.mod_eq_of_lt (a := 2 ^ bits - 1) (by omega)]
      omega
    rw [same, BitVec.getLsbD_ofNat, Nat.testBit_two_pow_sub_one, Bool.and_comm]

theorem signExtend_getLsbD {raw : BitVec 64} {bits : Nat} (positive : 0 < bits) (room : bits ≤ 64) {k : Nat}
    (small : k < bits) : (signExtend raw bits).toBitVec.getLsbD k = raw.getLsbD k := by
  unfold signExtend
  split
  · rfl
  · next narrow =>
    show ((raw <<< (64 - bits)).sshiftRight (64 - bits)).getLsbD k = _
    rw [BitVec.getLsbD_sshiftRight, BitVec.getLsbD_shiftLeft]
    have inside : 64 - bits + k < 64 := by omega
    simp [inside, show ¬ 64 ≤ k by omega]

theorem raw_of_integer {raw : BitVec 64} {bits : Nat} {signed : Bool} {v : Int64} (positive : 0 < bits)
    (room : bits ≤ 64) (high : ∀ j ≥ bits, raw.getLsbD j = false)
    (holds : (if signed then signExtend raw bits else Int64.ofBitVec raw) = v) : raw = v.toBitVec &&& maskOf bits := by
  apply BitVec.eq_of_getLsbD_eq
  intro k small
  rw [BitVec.getLsbD_and, maskOf_getLsbD]
  by_cases below : k < bits
  · have bit : v.toBitVec.getLsbD k = raw.getLsbD k := by
      rw [← holds]
      split
      · exact signExtend_getLsbD positive room below
      · rfl
    rw [bit]
    simp [below, small]
  · rw [high k (by omega)]
    simp [below]

theorem high_bits {x : BitVec 64} {m k : Nat} (room : m ≤ k) (small : k < 64) (low : -(2 ^ m : Int) ≤ x.toInt)
    (high : x.toInt < 2 ^ m) : x.getLsbD k = x.msb := by
  have power : (2 : Int) ^ m = ((2 ^ m : Nat) : Int) := by push_cast; rfl
  rw [power] at low high
  have larger : 2 ^ m ≤ 2 ^ k := Nat.pow_le_pow_right (by decide) room
  have bound := x.isLt
  cases sign : x.msb with
  | false =>
    rw [BitVec.toInt_eq_msb_cond, sign] at high
    have below : x.toNat < 2 ^ k := by
      simp only [Bool.false_eq_true, if_false] at high
      omega
    exact Nat.testBit_lt_two_pow below
  | true =>
    rw [BitVec.toInt_eq_msb_cond, sign] at low
    have below : (~~~x).toNat < 2 ^ k := by
      rw [BitVec.toNat_not]
      simp only [if_true] at low
      omega
    have flipped : (~~~x).getLsbD k = false := Nat.testBit_lt_two_pow below
    rw [BitVec.getLsbD_not] at flipped
    simpa [small] using flipped

theorem limit_toInt {b : Nat} (small : b < 63) :
    ((1 : Int64) <<< Int64.ofNat b).toInt = 2 ^ b ∧ (-((1 : Int64) <<< Int64.ofNat b)).toInt = -2 ^ b := by
  have all : ∀ b < 63, ((1 : Int64) <<< Int64.ofNat b).toInt = 2 ^ b ∧
      (-((1 : Int64) <<< Int64.ofNat b)).toInt = -2 ^ b := by decide +kernel
  exact all b small

theorem integer_of_encoded {bits : Nat} {signed : Bool} {v : Int64} (positive : 0 < bits) (room : bits ≤ 64)
    (fit : fits v bits signed = true) (plain : signed = true ∨ 0 ≤ v ∨ bits = 64) :
    (if signed then signExtend (v.toBitVec &&& maskOf bits) bits else Int64.ofBitVec (v.toBitVec &&& maskOf bits)) = v := by
  rw [← Int64.toBitVec_inj]
  by_cases full : bits = 64
  · subst full
    have whole : v.toBitVec &&& maskOf 64 = v.toBitVec := by
      unfold maskOf
      rw [if_pos (by decide), BitVec.and_allOnes]
    rw [whole]
    cases signed <;> simp [signExtend]
  have narrow : ¬ bits ≥ 64 := by omega
  unfold fits at fit
  rw [if_neg narrow] at fit
  cases signed with
  | true =>
    rw [if_pos (.inr rfl), Bool.and_eq_true, decide_eq_true_eq, decide_eq_true_eq, ge_iff_le, Int64.le_iff_toInt_le,
      Int64.lt_iff_toInt_lt] at fit
    obtain ⟨top, bottom⟩ := limit_toInt (b := bits - 1) (by omega)
    rw [top, bottom] at fit
    have high : ∀ k, bits - 1 ≤ k → k < 64 → v.toBitVec.getLsbD k = v.toBitVec.msb := fun k reach small =>
      high_bits reach small fit.1 fit.2
    rw [if_pos rfl]
    apply BitVec.eq_of_getLsbD_eq
    intro k small
    by_cases below : k < bits
    · rw [signExtend_getLsbD positive room below, BitVec.getLsbD_and, maskOf_getLsbD]
      simp [below, small]
    · rw [high k (by omega) small, ← high (bits - 1) (by omega) (by omega)]
      unfold signExtend
      rw [if_neg (by omega)]
      show (((v.toBitVec &&& maskOf bits) <<< (64 - bits)).sshiftRight (64 - bits)).getLsbD k = _
      rw [BitVec.getLsbD_sshiftRight, if_neg (by omega), BitVec.msb_eq_getLsbD_last, BitVec.getLsbD_shiftLeft,
        BitVec.getLsbD_and, maskOf_getLsbD]
      have place : 64 - 1 - (64 - bits) = bits - 1 := by omega
      rw [place]
      simp [show ¬ 64 ≤ k by omega, show ¬ 64 - 1 < 64 - bits by omega, show bits - 1 < bits by omega,
        show bits - 1 < 64 by omega]
  | false =>
    have nonneg : 0 ≤ v := by
      rcases plain with signed | nonneg | wide
      · contradiction
      · exact nonneg
      · exact absurd wide full
    rw [if_neg (by simpa using nonneg), decide_eq_true_eq] at fit
    rw [if_neg (by decide)]
    show v.toBitVec &&& maskOf bits = v.toBitVec
    apply BitVec.eq_of_getLsbD_eq
    intro k small
    rw [BitVec.getLsbD_and, maskOf_getLsbD]
    by_cases below : k < bits
    · simp [below, small]
    · have bound : v.toBitVec.toNat < 2 ^ bits := by
        have top : (maskOf bits).toNat < 2 ^ bits := by
          apply Nat.lt_pow_two_of_testBit
          intro i above
          have bit := maskOf_getLsbD bits i
          rw [BitVec.getLsbD] at bit
          rw [bit]
          simp [show ¬ i < bits by omega]
        omega
      have larger : 2 ^ bits ≤ 2 ^ k := Nat.pow_le_pow_right (by decide) (by omega)
      have clear : v.toBitVec.getLsbD k = false := Nat.testBit_lt_two_pow (by omega)
      rw [clear]
      rfl

end E5r.SleighFields
