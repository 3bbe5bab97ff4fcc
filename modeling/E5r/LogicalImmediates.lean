import E5r.RotatedRuns

/-!
Logical immediates: a run of ones, rotated within an element that fills the register,
packed into the fields `N:immr:imms`. The encoder looks for the smallest element and for
a rotation to the left, the decoder rotates to the right and repeats; each undoes the
other (`encode_decode`).
-/
namespace E5r.LogicalImmediates
open RotatedRuns

/-! ### The encoder -/

def maskBits (n : ℕ) : BitVec 64 := if 64 ≤ n then BitVec.allOnes 64 else (1#64 <<< n) - 1#64

def positions (bound step : ℕ) : List ℕ := (List.range ((bound + step - 1) / step)).map (· * step)

/-- Every piece of a length is the lowest one again. -/
def repeatsAt (val : BitVec 64) (half : ℕ) : Bool :=
  (positions 64 half).all fun pos => (val >>> pos) &&& maskBits half = val &&& maskBits half

/-- The element size is the smallest power of two the value repeats at. -/
def elementSize (val : BitVec 64) (size : ℕ) : ℕ :=
  if 2 < size ∧ repeatsAt val (size / 2) = true then elementSize val (size / 2) else size
termination_by size
decreasing_by omega

def countOnes (v : BitVec 64) : ℕ := (List.range 64).countP v.getLsbD

def rotated (elem : BitVec 64) (r size : ℕ) : BitVec 64 :=
  if r = 0 then elem else ((elem <<< r) ||| (elem >>> min (size - r) 63)) &&& maskBits size

/-- The fields that tell the size of the element and the length of the run. -/
def fieldN (size : ℕ) : BitVec 32 := if size = 64 then 1#32 else 0#32
def fieldS (size ones : ℕ) : BitVec 32 :=
  (~~~((BitVec.ofNat 32 size <<< 1) - 1#32) &&& 0x3f#32) ||| BitVec.ofNat 32 (ones - 1)

/-- The 32-bit case replicated. -/
def spread (value : BitVec 64) (sf : Bool) : BitVec 64 :=
  if sf then value else (value &&& 0xffffffff#64) ||| (value <<< 32)

/-- The fields `N:immr:imms` of a value, unless no rotated run of ones produces it. -/
def encodeBitmask (value : BitVec 64) (sf : Bool) : Option (BitVec 32 × BitVec 32 × BitVec 32) :=
  if sf = false ∧ value >>> 32 ≠ 0 then none
  else
    let val := spread value sf
    if val = 0 ∨ val = BitVec.allOnes 64 then none
    else
      let size := elementSize val 64
      let elem := val &&& maskBits size
      let ones := countOnes elem
      if ones = 0 ∨ ones = size then none
      else do
        let immr ← (List.range size).find? fun r => rotated elem r size = maskBits ones
        return (fieldN size, BitVec.ofNat 32 immr, fieldS size ones)

/-! ### The decoder -/

/-- `31 - leading_zeros` of a word that is not zero. -/
def highestBit (v : BitVec 32) : ℕ := v.toNat.log2

/-- An element rotated right. -/
def turned (welem : BitVec 64) (r esize : ℕ) : BitVec 64 :=
  if r = 0 then welem
  else
    let masked := welem &&& maskBits esize
    ((masked >>> r) ||| (masked <<< (esize - r))) &&& maskBits esize

def repeated (elem : BitVec 64) (width esize : ℕ) : BitVec 64 :=
  (positions width esize).foldl (fun out pos => out ||| (elem <<< pos)) 0#64

def width (sf : Bool) : ℕ := if sf then 64 else 32

def decodeBitMasks (n imms immr : BitVec 32) (sf : Bool) : Option (BitVec 64) :=
  let combined := (n <<< 6) ||| (~~~imms &&& 0x3f#32)
  let len := highestBit (combined ||| 1#32)
  if len = 0 ∨ width sf < 2 ^ len then none
  else
    let esize := 2 ^ len
    let levels := BitVec.ofNat 32 (esize - 1)
    if imms &&& levels = levels then none
    else
      let s := (imms &&& levels).toNat
      let r := (immr &&& levels).toNat
      let out := repeated (turned (maskBits (s + 1)) r esize) (width sf) esize
      some (if sf then out else out &&& 0xffffffff#64)

/-! ### Bits of the pieces -/

theorem maskBits_getLsbD (n i : ℕ) : (maskBits n).getLsbD i = (decide (i < n) && decide (i < 64)) := by
  unfold maskBits
  split
  · next wide =>
    rw [BitVec.getLsbD_allOnes]
    by_cases below : i < 64
    · have inside : i < n := by omega
      simp [below, inside]
    · simp [below]
  · next narrow =>
    rw [low_getLsbD (by omega)]
    by_cases inside : i < n
    · have below : i < 64 := by omega
      simp [inside, below]
    · simp [inside]

theorem mem_positions {bound step pos : ℕ} (positive : 0 < step) (divides : step ∣ bound) :
    pos ∈ positions bound step ↔ pos < bound ∧ step ∣ pos := by
  obtain ⟨n, rfl⟩ := divides
  have count : (step * n + step - 1) / step = n := by
    have shape : step * n + step - 1 = step - 1 + step * n := by omega
    rw [shape, Nat.add_mul_div_left _ _ positive, Nat.div_eq_of_lt (by omega), Nat.zero_add]
  unfold positions
  rw [count, List.mem_map]
  constructor
  · rintro ⟨k, member, rfl⟩
    rw [Nat.mul_comm k]
    exact ⟨Nat.mul_lt_mul_of_pos_left (List.mem_range.mp member) positive, Dvd.intro _ rfl⟩
  · rintro ⟨below, k, rfl⟩
    exact ⟨k, List.mem_range.mpr (Nat.lt_of_mul_lt_mul_left below), Nat.mul_comm _ _⟩

theorem repeatsAt_iff {val : BitVec 64} {half : ℕ} (positive : 0 < half) (divides : half ∣ 64) :
    repeatsAt val half = true ↔ Repeats val half := by
  unfold repeatsAt
  rw [List.all_eq_true]
  constructor
  · intro same i below
    have inside := Nat.mod_lt i positive
    have parts := Nat.div_add_mod i half
    have at_ : half * (i / half) ∈ positions 64 half := (mem_positions positive divides).mpr ⟨by omega, Dvd.intro _ rfl⟩
    have bits := congrArg (fun v : BitVec 64 => v.getLsbD (i % half)) (of_decide_eq_true (same _ at_))
    simp only [BitVec.getLsbD_and, BitVec.getLsbD_ushiftRight, maskBits_getLsbD, parts] at bits
    have low : i % half < 64 := by omega
    simpa [inside, low] using bits
  · intro repeats pos at_
    obtain ⟨below, k, rfl⟩ := (mem_positions positive divides).mp at_
    refine decide_eq_true (BitVec.eq_of_getLsbD_eq fun i _ => ?_)
    simp only [BitVec.getLsbD_and, BitVec.getLsbD_ushiftRight, maskBits_getLsbD]
    by_cases inside : i < half
    · have room : half * k + i < 64 := by
        obtain ⟨n, whole⟩ := divides
        have less : k < n := Nat.lt_of_mul_lt_mul_left (whole ▸ below)
        have most : half * (k + 1) ≤ half * n := Nat.mul_le_mul_left _ less
        rw [Nat.mul_add, Nat.mul_one] at most
        omega
      rw [repeats _ room, Nat.mul_add_mod, Nat.mod_eq_of_lt inside]
    · simp [inside]

theorem elementSize_spec (val : BitVec 64) (j : ℕ) (few : j < 6) (repeats : Repeats val (2 ^ (j + 1))) :
    ∃ k ≤ j, elementSize val (2 ^ (j + 1)) = 2 ^ (k + 1) ∧ Repeats val (2 ^ (k + 1)) ∧ (k = 0 ∨ ¬ Repeats val (2 ^ k)) := by
  induction j with
  | zero =>
    refine ⟨0, le_rfl, ?_, repeats, .inl rfl⟩
    rw [elementSize, if_neg (by omega)]
  | succ j ih =>
    have half : 2 ^ (j + 1 + 1) / 2 = 2 ^ (j + 1) := by rw [pow_succ _ (j + 1), Nat.mul_div_cancel _ (by decide)]
    have wide : 2 < 2 ^ (j + 1 + 1) := by
      have := Nat.two_pow_pos j
      rw [pow_succ, pow_succ]
      omega
    have divides : 2 ^ (j + 1) ∣ 64 := Nat.pow_dvd_pow 2 (show j + 1 ≤ 6 by omega)
    have decides := @repeatsAt_iff val (2 ^ (j + 1)) (Nat.two_pow_pos _) divides
    rw [elementSize, half]
    by_cases again : Repeats val (2 ^ (j + 1))
    · obtain ⟨k, le, is, least⟩ := ih (by omega) again
      rw [if_pos ⟨wide, decides.mpr again⟩]
      exact ⟨k, by omega, is, least⟩
    · rw [if_neg fun both => again (decides.mp both.2)]
      exact ⟨j + 1, le_rfl, rfl, repeats, .inr again⟩

theorem rotated_getLsbD {elem : BitVec 64} {r size i : ℕ} (low : ∀ j, size ≤ j → elem.getLsbD j = false)
    (turns : r < size) (whole : size ≤ 64) (below : i < size) :
    (rotated elem r size).getLsbD i = elem.getLsbD ((i + (size - r)) % size) := by
  unfold rotated
  split
  · next none_ =>
    subst none_
    rw [Nat.sub_zero, Nat.add_mod_right, Nat.mod_eq_of_lt below]
  · next some_ =>
    have inside : i < 64 := by omega
    have amount : min (size - r) 63 = size - r := by omega
    simp only [BitVec.getLsbD_and, BitVec.getLsbD_or, BitVec.getLsbD_shiftLeft, BitVec.getLsbD_ushiftRight,
      maskBits_getLsbD, amount, below, inside, decide_true, Bool.true_and, Bool.and_true]
    by_cases front : i < r
    · rw [Nat.mod_eq_of_lt (by omega), Nat.add_comm (size - r)]
      simp [front]
    · have wraps : (i + (size - r)) % size = i - r := by
        have shape : i + (size - r) = i - r + size := by omega
        rw [shape, Nat.add_mod_right, Nat.mod_eq_of_lt (by omega)]
      rw [wraps, low (size - r + i) (by omega)]
      simp [front]

theorem rotated_eq_iff {elem : BitVec 64} {r size ones : ℕ} (low : ∀ j, size ≤ j → elem.getLsbD j = false)
    (turns : r < size) (whole : size ≤ 64) (part : ones ≤ size) :
    rotated elem r size = maskBits ones ↔ ∀ j < size, elem.getLsbD j = decide ((j + r) % size < ones) := by
  have past (i : ℕ) (above : size ≤ i) : (rotated elem r size).getLsbD i = false := by
    unfold rotated
    split
    · exact low i above
    · have out : ¬ i < size := by omega
      simp [maskBits_getLsbD, out]
  constructor
  · intro same j below
    have bit := congrArg (fun v : BitVec 64 => v.getLsbD ((j + r) % size)) same
    have turned := Nat.mod_lt (j + r) (show 0 < size by omega)
    have back : ((j + r) % size + (size - r)) % size = j := by
      have shape : j + r + (size - r) = j + size := by omega
      rw [Nat.mod_add_mod, shape, Nat.add_mod_right, Nat.mod_eq_of_lt below]
    simp only [rotated_getLsbD low turns whole turned, maskBits_getLsbD, back] at bit
    have inside : (j + r) % size < 64 := by omega
    simpa [inside] using bit
  · intro run
    refine BitVec.eq_of_getLsbD_eq fun i inside => ?_
    rw [maskBits_getLsbD]
    by_cases below : i < size
    · have back : ((i + (size - r)) % size + r) % size = i := by
        have shape : i + (size - r) + r = i + size := by omega
        rw [Nat.mod_add_mod, shape, Nat.add_mod_right, Nat.mod_eq_of_lt below]
      rw [rotated_getLsbD low turns whole below, run _ (Nat.mod_lt _ (by omega)), back]
      simp [inside]
    · have out : ¬ i < ones := by omega
      rw [past i (by omega)]
      simp [out]

/-! ### What the decoder makes -/

theorem turned_getLsbD {size r run i : ℕ} (turns : r < size) (whole : size ≤ 64) (part : run < size) :
    (turned (maskBits run) r size).getLsbD i = (decide (i < size) && decide ((i + r) % size < run)) := by
  unfold turned
  split
  · next none_ =>
    subst none_
    rw [maskBits_getLsbD, Nat.add_zero]
    by_cases below : i < size
    · have inside : i < 64 := by omega
      simp [below, inside, Nat.mod_eq_of_lt below]
    · have out : ¬ i < run := by omega
      simp [below, out]
  · next some_ =>
    by_cases below : i < size
    · have inside : i < 64 := by omega
      simp only [BitVec.getLsbD_and, BitVec.getLsbD_or, BitVec.getLsbD_shiftLeft, BitVec.getLsbD_ushiftRight,
        maskBits_getLsbD, below, inside, decide_true, Bool.true_and, Bool.and_true]
      by_cases front : i < size - r
      · have same : (i + r) % size = r + i := by rw [Nat.mod_eq_of_lt (by omega), Nat.add_comm]
        have room : r + i < size := by omega
        have short : r + i < 64 := by omega
        simp [front, same, room, short]
      · have same : (i + r) % size = i - (size - r) := by
          have shape : i + r = i - (size - r) + size := by omega
          rw [shape, Nat.add_mod_right, Nat.mod_eq_of_lt (by omega)]
        have past : ¬ r + i < run := by omega
        have room : i - (size - r) < size := by omega
        have short : i - (size - r) < 64 := by omega
        simp [front, same, past, room, short]
    · simp [maskBits_getLsbD, below]

theorem foldl_or_getLsbD (elem : BitVec 64) (l : List ℕ) (i : ℕ) : ∀ out : BitVec 64,
    (l.foldl (fun out pos => out ||| (elem <<< pos)) out).getLsbD i =
      (out.getLsbD i || l.any fun pos => (elem <<< pos).getLsbD i) := by
  induction l with
  | nil => simp
  | cons pos l ih =>
    intro out
    rw [List.foldl_cons, ih, List.any_cons, BitVec.getLsbD_or, Bool.or_assoc]

theorem repeated_getLsbD {elem : BitVec 64} {width size i : ℕ} (low : ∀ j, size ≤ j → elem.getLsbD j = false)
    (positive : 0 < size) (divides : size ∣ width) (inside : i < 64) :
    (repeated elem width size).getLsbD i = (decide (i < width) && elem.getLsbD (i % size)) := by
  have parts := Nat.div_add_mod i size
  have rest := Nat.mod_lt i positive
  unfold repeated
  rw [foldl_or_getLsbD, BitVec.getLsbD_zero, Bool.false_or, Bool.eq_iff_iff, List.any_eq_true]
  simp only [BitVec.getLsbD_shiftLeft, inside, decide_true, Bool.true_and, Bool.and_eq_true, Bool.not_eq_true',
    decide_eq_false_iff_not, decide_eq_true_eq, not_lt]
  constructor
  · rintro ⟨pos, at_, before, set⟩
    obtain ⟨below, k, rfl⟩ := (mem_positions positive divides).mp at_
    have near : i - size * k < size := by
      by_contra far
      rw [low _ (by omega)] at set
      cases set
    have place : i % size = i - size * k := by
      have shape : i = size * k + (i - size * k) := by omega
      rw [shape, Nat.mul_add_mod, Nat.mod_eq_of_lt near]
      omega
    obtain ⟨n, rfl⟩ := divides
    have less : k < n := Nat.lt_of_mul_lt_mul_left below
    have most : size * (k + 1) ≤ size * n := Nat.mul_le_mul_left _ less
    rw [Nat.mul_add, Nat.mul_one] at most
    exact ⟨by omega, place ▸ set⟩
  · rintro ⟨below, set⟩
    have place : i - size * (i / size) = i % size := by omega
    exact ⟨size * (i / size), (mem_positions positive divides).mpr ⟨by omega, Dvd.intro _ rfl⟩, by omega, place ▸ set⟩

theorem width_le (sf : Bool) : width sf ≤ 64 := by cases sf <;> decide

def Fills (value : BitVec 64) (sf : Bool) (size turn run : ℕ) : Prop :=
  ∀ i < 64, value.getLsbD i = (decide (i < width sf) && decide ((i + turn) % size < run))

theorem fills_repeated {sf : Bool} {size turn run : ℕ} (positive : 0 < size) (divides : size ∣ width sf)
    (turns : turn < size) (part : run < size) :
    Fills (if sf then repeated (turned (maskBits run) turn size) (width sf) size
      else repeated (turned (maskBits run) turn size) (width sf) size &&& 0xffffffff#64) sf size turn run := by
  have whole : size ≤ 64 := (Nat.le_of_dvd (by cases sf <;> decide) divides).trans (width_le sf)
  have low (j : ℕ) (above : size ≤ j) : (turned (maskBits run) turn size).getLsbD j = false := by
    have out : ¬ j < size := by omega
    rw [turned_getLsbD turns whole part]
    simp [out]
  intro i inside
  have bit : (repeated (turned (maskBits run) turn size) (width sf) size).getLsbD i =
      (decide (i < width sf) && decide ((i + turn) % size < run)) := by
    rw [repeated_getLsbD low positive divides inside, turned_getLsbD turns whole part, Nat.mod_add_mod]
    simp [Nat.mod_lt i positive]
  cases sf with
  | true => exact bit
  | false =>
    have mask : (0xffffffff#64).getLsbD i = decide (i < 32) := low_getLsbD (n := 32) (by decide) i
    simp only [Bool.false_eq_true, if_false, BitVec.getLsbD_and, bit, mask]
    show (decide (i < 32) && _ && decide (i < 32)) = (decide (i < 32) && _)
    cases decide (i < 32) <;> simp

theorem toNat_and_levels (v : BitVec 32) {len : ℕ} (few : len < 32) :
    (v &&& BitVec.ofNat 32 (2 ^ len - 1)).toNat = v.toNat % 2 ^ len := by
  have power : 2 ^ len ≤ 2 ^ 31 := Nat.pow_le_pow_right (by decide) (by omega)
  rw [BitVec.toNat_and, BitVec.toNat_ofNat, Nat.mod_eq_of_lt (by omega), Nat.and_two_pow_sub_one_eq_mod]

theorem dvd_width {len : ℕ} {sf : Bool} (fits : 2 ^ len ≤ width sf) : 2 ^ len ∣ width sf := by
  cases sf with
  | true => exact (@Nat.pow_dvd_pow_iff_pow_le_pow len 6 2 (by decide)).mpr fits
  | false => exact (@Nat.pow_dvd_pow_iff_pow_le_pow len 5 2 (by decide)).mpr fits

theorem decode_spec {n imms immr : BitVec 32} {sf : Bool} {v : BitVec 64} :
    decodeBitMasks n imms immr sf = some v ↔
      ∃ len, len = highestBit (((n <<< 6) ||| (~~~imms &&& 0x3f#32)) ||| 1#32) ∧ len ≠ 0 ∧ 2 ^ len ≤ width sf ∧
        imms.toNat % 2 ^ len + 1 < 2 ^ len ∧ Fills v sf (2 ^ len) (immr.toNat % 2 ^ len) (imms.toNat % 2 ^ len + 1) := by
  unfold decodeBitMasks
  dsimp only
  constructor
  · intro made
    split at made
    · cases made
    · next sized =>
      push Not at sized
      split at made
      · cases made
      · next spare =>
        cases made
        obtain ⟨some_, fits⟩ := sized
        have few : highestBit (((n <<< 6) ||| (~~~imms &&& 0x3f#32)) ||| 1#32) < 32 := by
          have most : 2 ^ highestBit (((n <<< 6) ||| (~~~imms &&& 0x3f#32)) ||| 1#32) < 2 ^ 7 := by
            have := width_le sf
            omega
          have := (Nat.pow_lt_pow_iff_right (by decide)).mp most
          omega
        generalize highestBit (((n <<< 6) ||| (~~~imms &&& 0x3f#32)) ||| 1#32) = len at *
        have positive := Nat.two_pow_pos len
        rw [toNat_and_levels imms few, toNat_and_levels immr few]
        have below := Nat.mod_lt imms.toNat positive
        have part : imms.toNat % 2 ^ len + 1 < 2 ^ len := by
          by_contra most
          refine spare (BitVec.eq_of_toNat_eq ?_)
          have power : 2 ^ len ≤ 2 ^ 31 := Nat.pow_le_pow_right (by decide) (by omega)
          rw [toNat_and_levels imms few, BitVec.toNat_ofNat, Nat.mod_eq_of_lt (show 2 ^ len - 1 < 2 ^ 32 by omega)]
          omega
        exact ⟨len, rfl, some_, fits, part,
          fills_repeated positive (dvd_width fits) (Nat.mod_lt _ positive) part⟩
  · rintro ⟨len, is, some_, fits, part, fills⟩
    rw [← is]
    have few : len < 32 := by
      have := width_le sf
      have := (Nat.pow_lt_pow_iff_right (by decide)).mp (show 2 ^ len < 2 ^ 7 by omega)
      omega
    have positive := Nat.two_pow_pos len
    have spare : imms &&& BitVec.ofNat 32 (2 ^ len - 1) ≠ BitVec.ofNat 32 (2 ^ len - 1) := by
      intro most
      have power : 2 ^ len ≤ 2 ^ 31 := Nat.pow_le_pow_right (by decide) (by omega)
      have := congrArg BitVec.toNat most
      rw [toNat_and_levels imms few, BitVec.toNat_ofNat, Nat.mod_eq_of_lt (show 2 ^ len - 1 < 2 ^ 32 by omega)] at this
      omega
    rw [if_neg (by omega), if_neg spare, toNat_and_levels imms few, toNat_and_levels immr few]
    refine congrArg some (BitVec.eq_of_getLsbD_eq fun i inside => ?_)
    rw [fills i inside]
    exact fills_repeated positive (dvd_width fits) (Nat.mod_lt _ positive) part i inside

/-! ### What the encoder finds -/

/-- The high half of a value for a 32-bit register is empty. -/
def Narrow (value : BitVec 64) (sf : Bool) : Prop := sf = false → value >>> 32 = 0

theorem narrow_getLsbD {value : BitVec 64} (narrow : value >>> 32 = 0) {i : ℕ} (high : 32 ≤ i) : value.getLsbD i = false := by
  have bit := congrArg (fun v : BitVec 64 => v.getLsbD (i - 32)) narrow
  have back : 32 + (i - 32) = i := by omega
  simp only [BitVec.getLsbD_ushiftRight, back] at bit
  exact bit.trans (BitVec.getLsbD_zero ..)

theorem spread_getLsbD {value : BitVec 64} (narrow : value >>> 32 = 0) {i : ℕ} (inside : i < 64) :
    (spread value false).getLsbD i = value.getLsbD (i % 32) := by
  have mask : (0xffffffff#64).getLsbD i = decide (i < 32) := low_getLsbD (n := 32) (by decide) i
  simp only [spread, Bool.false_eq_true, if_false, BitVec.getLsbD_or, BitVec.getLsbD_and, BitVec.getLsbD_shiftLeft,
    mask, inside, decide_true, Bool.true_and]
  by_cases low : i < 32
  · simp [low, Nat.mod_eq_of_lt low]
  · have place : i % 32 = i - 32 := by omega
    simp [low, place, narrow_getLsbD narrow (Nat.not_lt.mp low)]

theorem isRun_spread {value : BitVec 64} {sf : Bool} {len turn run : ℕ} (fits : 2 ^ len ≤ width sf) :
    Narrow value sf ∧ IsRun (spread value sf) (2 ^ len) turn run ↔ Fills value sf (2 ^ len) turn run := by
  cases sf with
  | true =>
    have whole (i : ℕ) (inside : i < 64) : decide (i < width true) = true := decide_eq_true inside
    constructor
    · rintro ⟨-, is⟩ i inside
      rw [whole i inside, Bool.true_and]
      exact is i inside
    · intro fills
      refine ⟨nofun, fun i inside => ?_⟩
      have bit := fills i inside
      rwa [whole i inside, Bool.true_and] at bit
  | false =>
    constructor
    · rintro ⟨narrow, is⟩ i inside
      show value.getLsbD i = (decide (i < 32) && _)
      by_cases low : i < 32
      · have bit := is i inside
        rw [spread_getLsbD (narrow rfl) inside, Nat.mod_eq_of_lt low] at bit
        simpa [low] using bit
      · rw [narrow_getLsbD (narrow rfl) (by omega)]
        simp [low]
    · intro fills
      have narrow : value >>> 32 = 0 := by
        refine BitVec.eq_of_getLsbD_eq fun i inside => ?_
        have empty : (0 : BitVec 64).getLsbD i = false := BitVec.getLsbD_zero
        rw [BitVec.getLsbD_ushiftRight, empty]
        by_cases short : 32 + i < 64
        · rw [fills _ short]
          have high : ¬ 32 + i < width false := Nat.not_lt.mpr (Nat.le_add_right 32 i)
          rw [decide_eq_false high, Bool.false_and]
        · exact BitVec.getLsbD_of_ge value (32 + i) (by omega)
      refine ⟨fun _ => narrow, fun i inside => ?_⟩
      have low : i % 32 < 32 := Nat.mod_lt _ (by decide)
      have bit := fills (i % 32) (by omega)
      have is : decide (i % 32 < width false) = true := decide_eq_true low
      rw [is, Bool.true_and] at bit
      rw [spread_getLsbD narrow inside, bit, Nat.add_mod, Nat.mod_mod_of_dvd i (show 2 ^ len ∣ 32 from dvd_width fits), ← Nat.add_mod]

theorem countOnes_low (val : BitVec 64) {size : ℕ} (whole : size ≤ 64) :
    countOnes (val &&& maskBits size) = (List.range size).countP val.getLsbD := by
  have split : List.range 64 = List.range size ++ (List.range (64 - size)).map (size + ·) := by
    rw [← List.range_add, Nat.add_sub_cancel' whole]
  unfold countOnes
  rw [split, List.countP_append]
  have high : ((List.range (64 - size)).map (size + ·)).countP (val &&& maskBits size).getLsbD = 0 := by
    refine List.countP_eq_zero.mpr fun i member => ?_
    obtain ⟨j, -, rfl⟩ := List.mem_map.mp member
    have out : ¬ size + j < size := by omega
    simp [maskBits_getLsbD, out]
  have low : (List.range size).countP (val &&& maskBits size).getLsbD = (List.range size).countP val.getLsbD := by
    refine List.countP_congr fun i member => ?_
    have below := List.mem_range.mp member
    have inside : i < 64 := by omega
    rw [BitVec.getLsbD_and, maskBits_getLsbD]
    simp [below, inside]
  rw [high, low, Nat.add_zero]

theorem countOnes_le (val : BitVec 64) {size : ℕ} (whole : size ≤ 64) : countOnes (val &&& maskBits size) ≤ size := by
  rw [countOnes_low val whole]
  exact List.countP_le_length.trans_eq List.length_range

theorem countOnes_run {val : BitVec 64} {size turn run : ℕ} (is : IsRun val size turn run) (whole : size ≤ 64)
    (part : run ≤ size) : countOnes (val &&& maskBits size) = run := by
  rw [countOnes_low val whole, ← countP_turn turn part]
  refine List.countP_congr fun i member => ?_
  have below := List.mem_range.mp member
  rw [is i (by omega)]

theorem rotated_run {val : BitVec 64} {size r ones : ℕ} (repeats : Repeats val size) (turns : r < size)
    (whole : size ≤ 64) (part : ones ≤ size) :
    rotated (val &&& maskBits size) r size = maskBits ones ↔ IsRun val size r ones := by
  have low (j : ℕ) (above : size ≤ j) : (val &&& maskBits size).getLsbD j = false := by
    have out : ¬ j < size := by omega
    simp [maskBits_getLsbD, out]
  have bit (j : ℕ) (below : j < size) : (val &&& maskBits size).getLsbD j = val.getLsbD j := by
    have inside : j < 64 := by omega
    simp [maskBits_getLsbD, below, inside]
  rw [rotated_eq_iff low turns whole part]
  constructor
  · intro run i inside
    have below := Nat.mod_lt i (show 0 < size by omega)
    rw [repeats i inside, ← bit _ below, run _ below, Nat.mod_add_mod]
  · intro is j below
    rw [bit j below, is j (by omega)]

theorem elementSize_run {val : BitVec 64} {k turn run : ℕ} (few : k < 6) (is : IsRun val (2 ^ (k + 1)) turn run)
    (some_ : 0 < run) (part : run < 2 ^ (k + 1)) : elementSize val 64 = 2 ^ (k + 1) := by
  have fits (j : ℕ) (few : j < 6) : 2 ^ (j + 1) ≤ 64 := Nat.pow_le_pow_right (by decide) (show j + 1 ≤ 6 by omega)
  have repeats := repeats_of_run (Nat.two_pow_pos _) (fits k few) is
  have all : Repeats val (2 ^ (5 + 1)) := fun i inside => by
    rw [Nat.mod_eq_of_lt (show i < 2 ^ (5 + 1) from inside)]
  obtain ⟨j, le, is', again, least⟩ := elementSize_spec val 5 (by decide) all
  have same : j = k := by
    rcases Nat.lt_trichotomy j k with less | equal | more
    · have divides : 2 ^ (j + 1) ∣ 2 ^ k := Nat.pow_dvd_pow 2 less
      rw [pow_succ, Nat.mul_comm] at is part
      have whole := fits k few
      rw [pow_succ, Nat.mul_comm] at whole
      exact absurd (again.of_dvd (Nat.two_pow_pos _) divides) (not_repeats_half is whole some_ part)
    · exact equal
    · have divides : 2 ^ (k + 1) ∣ 2 ^ j := Nat.pow_dvd_pow 2 more
      exact absurd (repeats.of_dvd (Nat.two_pow_pos _) divides) (least.resolve_left (by omega))
  rw [← same]
  exact is'

theorem run_extremes {val : BitVec 64} {size turn run : ℕ} (is : IsRun val size turn run) (whole : size ≤ 64)
    (some_ : 0 < run) (part : run < size) : val ≠ 0 ∧ val ≠ BitVec.allOnes 64 := by
  have bits := countOnes_run is whole part.le
  constructor
  · rintro rfl
    have none_ : countOnes (0 &&& maskBits size) = 0 := List.countP_eq_zero.mpr fun i _ => by simp
    omega
  · rintro rfl
    have all : countOnes (BitVec.allOnes 64 &&& maskBits size) = size := by
      have run : IsRun (BitVec.allOnes 64) size 0 size := fun i inside => by
        rw [BitVec.getLsbD_allOnes, decide_eq_true inside, decide_eq_true (Nat.mod_lt _ (by omega))]
      exact countOnes_run run whole le_rfl
    omega

theorem encode_spec {value : BitVec 64} {sf : Bool} {n immr imms : BitVec 32}
    (made : encodeBitmask value sf = some (n, immr, imms)) :
    Narrow value sf ∧ ∃ k < 6, ∃ r ones, r < 2 ^ (k + 1) ∧ 0 < ones ∧ ones < 2 ^ (k + 1) ∧
      IsRun (spread value sf) (2 ^ (k + 1)) r ones ∧ n = fieldN (2 ^ (k + 1)) ∧ immr = BitVec.ofNat 32 r ∧
      imms = fieldS (2 ^ (k + 1)) ones := by
  unfold encodeBitmask at made
  split at made
  · cases made
  · next narrow =>
    dsimp only at made
    split at made
    · cases made
    · have all : Repeats (spread value sf) (2 ^ (5 + 1)) := fun i inside => by
        rw [Nat.mod_eq_of_lt (show i < 2 ^ (5 + 1) from inside)]
      obtain ⟨k, le, size, repeats, -⟩ := elementSize_spec (spread value sf) 5 (by decide) all
      have whole : 2 ^ (k + 1) ≤ 64 := Nat.pow_le_pow_right (by decide) (show k + 1 ≤ 6 by omega)
      change elementSize (spread value sf) 64 = _ at size
      rw [size] at made
      split at made
      · cases made
      · next some_ =>
        obtain ⟨r, found, same⟩ := Option.bind_eq_some_iff.mp made
        cases same
        have turns := List.mem_range.mp (List.mem_of_find?_eq_some found)
        have most := countOnes_le (spread value sf) whole
        have rotates := List.find?_some found
        have run := (rotated_run repeats turns whole most).mp (of_decide_eq_true rotates)
        exact ⟨fun small => by_contra fun high => narrow ⟨small, high⟩, k, by omega, r, _, turns, by omega, by omega, run,
          rfl, rfl, rfl⟩

theorem encode_returns {value : BitVec 64} {sf : Bool} {k turn run : ℕ} (narrow : Narrow value sf) (few : k < 6)
    (turns : turn < 2 ^ (k + 1)) (some_ : 0 < run) (part : run < 2 ^ (k + 1))
    (is : IsRun (spread value sf) (2 ^ (k + 1)) turn run) : ∃ t, encodeBitmask value sf = some t := by
  have whole : 2 ^ (k + 1) ≤ 64 := Nat.pow_le_pow_right (by decide) (show k + 1 ≤ 6 by omega)
  obtain ⟨empty, full⟩ := run_extremes is whole some_ part
  have ones := countOnes_run is whole part.le
  unfold encodeBitmask
  rw [if_neg fun both => both.2 (narrow both.1)]
  dsimp only
  rw [if_neg (not_or.mpr ⟨empty, full⟩), elementSize_run few is some_ part, ones, if_neg (by omega)]
  have rotates := (rotated_run (repeats_of_run (Nat.two_pow_pos _) whole is) turns whole part.le).mpr is
  have found : ((List.range (2 ^ (k + 1))).find? fun r =>
      rotated (spread value sf &&& maskBits (2 ^ (k + 1))) r (2 ^ (k + 1)) = maskBits run).isSome :=
    List.find?_isSome.mpr ⟨turn, List.mem_range.mpr turns, decide_eq_true rotates⟩
  obtain ⟨r, is⟩ := Option.isSome_iff_exists.mp found
  rw [is]
  exact ⟨_, rfl⟩

/-! ### Both ways -/

theorem fields_spec : ∀ k < 6, ∀ ones < 2 ^ (k + 1), 0 < ones →
    highestBit (((fieldN (2 ^ (k + 1)) <<< 6) ||| (~~~fieldS (2 ^ (k + 1)) ones &&& 0x3f#32)) ||| 1#32) = k + 1 ∧
      (fieldS (2 ^ (k + 1)) ones).toNat % 2 ^ (k + 1) + 1 = ones := by
  decide +kernel

theorem run_fits {value : BitVec 64} {sf : Bool} {k turn run : ℕ} (narrow : Narrow value sf) (few : k < 6)
    (some_ : 0 < run) (part : run < 2 ^ (k + 1)) (is : IsRun (spread value sf) (2 ^ (k + 1)) turn run) :
    2 ^ (k + 1) ≤ width sf := by
  cases sf with
  | true => exact Nat.pow_le_pow_right (by decide) (show k + 1 ≤ 6 by omega)
  | false =>
    by_cases widest : k = 5
    · subst widest
      have halves : Repeats (spread value false) 32 := fun i inside => by
        rw [spread_getLsbD (narrow rfl) inside, spread_getLsbD (narrow rfl) (by omega), Nat.mod_mod]
      exact absurd halves (not_repeats_half is (by decide) some_ part)
    · exact Nat.pow_le_pow_right (by decide) (show k + 1 ≤ 5 by omega)

/-- The encoder's fields decode to the value, and it has some for every value that any
    fields decode to. -/
theorem encode_decode (value : BitVec 64) (sf : Bool) :
    (∀ n immr imms, encodeBitmask value sf = some (n, immr, imms) → decodeBitMasks n imms immr sf = some value) ∧
      ((∃ t, encodeBitmask value sf = some t) ↔ ∃ n imms immr, decodeBitMasks n imms immr sf = some value) := by
  have back (n immr imms : BitVec 32) (made : encodeBitmask value sf = some (n, immr, imms)) :
      decodeBitMasks n imms immr sf = some value := by
    obtain ⟨narrow, k, few, r, ones, turns, some_, part, is, rfl, rfl, rfl⟩ := encode_spec made
    obtain ⟨length, number⟩ := fields_spec k few ones part some_
    have fits := run_fits narrow few some_ part is
    have turn : (BitVec.ofNat 32 r).toNat % 2 ^ (k + 1) = r := by
      have whole : 2 ^ (k + 1) ≤ 64 := fits.trans (width_le sf)
      rw [BitVec.toNat_ofNat, Nat.mod_eq_of_lt (show r < 2 ^ 32 by omega), Nat.mod_eq_of_lt turns]
    refine decode_spec.mpr ⟨k + 1, length.symm, by omega, fits, ?_, ?_⟩
    · rw [number]
      exact part
    · rw [number, turn]
      exact (isRun_spread fits).mp ⟨narrow, is⟩
  refine ⟨back, ?_, ?_⟩
  · rintro ⟨⟨n, immr, imms⟩, made⟩
    exact ⟨n, imms, immr, back n immr imms made⟩
  · rintro ⟨n, imms, immr, made⟩
    obtain ⟨len, -, some_, fits, part, fills⟩ := decode_spec.mp made
    obtain ⟨k, rfl⟩ := Nat.exists_eq_succ_of_ne_zero some_
    obtain ⟨narrow, is⟩ := (isRun_spread fits).mpr fills
    have few : k < 6 := by
      have := width_le sf
      have := (Nat.pow_lt_pow_iff_right (by decide)).mp (show 2 ^ (k + 1) < 2 ^ 7 by omega)
      omega
    exact encode_returns narrow few (Nat.mod_lt _ (Nat.two_pow_pos _)) (Nat.succ_pos _) part is

end E5r.LogicalImmediates
