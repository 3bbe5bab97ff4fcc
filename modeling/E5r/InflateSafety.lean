import E5r.InflateWords
import Mathlib.Algebra.Order.BigOperators.Group.List
import Mathlib.Algebra.Order.Ring.Int

/-!
# The decompressor does not crash

Every index, slice, sum and difference of the decompressor stays in range and every loop of it
ends, whatever the bytes, so it answers as if nothing of that could go wrong.
-/

namespace E5r.InflateSafety

open Outcomes Inflate

/-! ### Bit input -/

/-- Between two reads less than a byte waits. -/
structure Valid (br : BitReader) : Prop where
  inside : br.pos ≤ br.data.length
  short : br.data.length < 2 ^ 63
  few : br.has < 8

/-- While bytes are taken in, enough bits wait in the end, and never too many. -/
structure Filled (n most : ℕ) (br : BitReader) : Prop where
  inside : br.pos ≤ br.data.length
  short : br.data.length < 2 ^ 63
  least : n ≤ br.has
  most : br.has < most

variable {n : ℕ}

theorem follows_fill {most : ℕ} (narrow : n ≤ 16) (room : n + 8 ≤ most) : ∀ (more : ℕ) {br : BitReader},
    br.pos ≤ br.data.length → br.data.length < 2 ^ 63 → n ≤ br.has + 8 * more → br.has < most →
      Follows (Filled n most) (InflateWords.fill n more br) (br.fill n) := by
  intro more
  induction more with
  | zero =>
    intro br inside short enough few
    rw [InflateWords.fill, BitReader.fill, if_neg (by omega), if_neg (by omega)]
    exact .ok ⟨inside, short, by omega, few⟩
  | succ more ih =>
    intro br inside short enough few
    rw [InflateWords.fill, BitReader.fill]
    refine follows_ite (fun less => ?_) fun enough => .ok ⟨inside, short, by omega, few⟩
    cases found : br.data[br.pos]? with
    | none => exact .err _
    | some b =>
      have within := (List.getElem?_eq_some_iff.mp found).1
      simp only [Outcome.orErr, ok_bind]
      rw [fits_of_lt (by omega), ok_bind, amount_of_lt (by omega), ok_bind, fits_of_lt (by omega), ok_bind]
      exact ih within short (by dsimp only; omega) (by dsimp only; omega)

theorem low_bits (buf : BitVec 32) (narrow : n ≤ 16) :
    (buf &&& ((1#32 <<< n) - 1#32)).toNat < 2 ^ n ∧
      (1#32 <<< n) - 1#32 = BitVec.ofNat 32 ((1#32 <<< n).toNat - 1) ∧ 1 ≤ (1#32 <<< n).toNat := by
  have positive : 0 < 2 ^ n := Nat.two_pow_pos n
  have small : 2 ^ n ≤ 2 ^ 16 := Nat.pow_le_pow_right (by decide) narrow
  have power : (1#32 <<< n).toNat = 2 ^ n := by
    rw [BitVec.toNat_shiftLeft, Nat.shiftLeft_eq, show (1#32).toNat = 1 from rfl, Nat.one_mul,
      Nat.mod_eq_of_lt (by omega)]
  have less : ((1#32 <<< n) - 1#32).toNat = 2 ^ n - 1 := by
    rw [BitVec.toNat_sub, power, show (1#32).toNat = 1 from rfl]
    omega
  refine ⟨?_, ?_, by omega⟩
  · rw [BitVec.toNat_and, less]
    exact Nat.and_lt_two_pow _ (by omega)
  · apply BitVec.eq_of_toNat_eq
    rw [less, BitVec.toNat_ofNat, power, Nat.mod_eq_of_lt (by omega)]

variable {br : BitReader}

theorem follows_bits (valid : Valid br) (narrow : n ≤ 16) :
    Follows (fun r => r.1.toNat < 2 ^ n ∧ Valid r.2) (InflateWords.bits br n) (br.bits n) := by
  have few := valid.few
  refine follows_bind (follows_fill narrow le_rfl n valid.inside valid.short (by omega) (by omega))
    fun filled holds => ?_
  obtain ⟨low, mask, positive⟩ := low_bits filled.buf narrow
  have least := holds.least
  have most := holds.most
  unfold InflateWords.lowest
  rw [if_neg (show n ≠ 32 by omega), amount_of_lt (by omega), ok_bind, minus_of_le positive]
  simp only [ok_bind, pure_eq, minus_of_le least]
  rw [if_neg (show n ≠ 32 by omega), mask]
  rw [mask] at low
  exact .ok ⟨low, holds.inside, holds.short, by dsimp only; omega⟩

theorem follows_align (valid : Valid br) : ∃ next, InflateWords.align br = .ok next ∧ br.align = next ∧ Valid next := by
  have few := valid.few
  have rest : br.has % 8 ≤ br.has := Nat.mod_le _ _
  unfold InflateWords.align
  rw [amount_of_lt (by omega), ok_bind, minus_of_le rest, ok_bind]
  exact ⟨_, rfl, rfl, valid.inside, valid.short, by dsimp only; omega⟩

theorem follows_byte (valid : Valid br) : Follows (fun r => Valid r.2) (InflateWords.byte br) br.byte := by
  unfold InflateWords.byte BitReader.byte
  refine follows_ite (fun many => absurd valid.few (by omega)) fun _ => ?_
  cases found : br.data[br.pos]? with
  | none => exact .err _
  | some b =>
    have within := (List.getElem?_eq_some_iff.mp found).1
    have short := valid.short
    simp only [Outcome.orErr, ok_bind]
    rw [fits_of_lt (by omega), ok_bind]
    exact .ok ⟨within, short, valid.few⟩

theorem remaining_eq (valid : Valid br) : InflateWords.remaining br = .ok br.remaining := by
  have short := valid.short
  have few := valid.few
  unfold InflateWords.remaining
  rw [minus_of_le valid.inside, ok_bind, fits_of_lt (by omega)]
  rfl

/-! ### Huffman tables -/

theorem tally_eq (rest : List UInt8) : ∀ counts : List ℕ, counts.length = MAX_BITS + 1 →
    (∀ n, counts.getD n 0 + rest.length < 2 ^ 16) →
      InflateWords.tally counts rest =
        if rest.any (fun l => l.toNat > MAX_BITS) then .err (some .badHuffmanTable)
        else .ok ((List.range (MAX_BITS + 1)).map fun n => counts.getD n 0 + rest.count (UInt8.ofNat n)) := by
  induction rest with
  | nil =>
    intro counts size _
    rw [InflateWords.tally, List.any_nil, if_neg (by decide)]
    congr 1
    apply List.ext_getElem
    · rw [List.length_map, List.length_range, size]
    · intro n inside _
      simp [inside]
  | cons l rest ih =>
    intro counts size room
    rw [InflateWords.tally, List.any_cons]
    by_cases long : l.toNat > MAX_BITS
    · rw [if_pos long, if_pos (by simp [long])]
    · have inside : l.toNat < counts.length := by omega
      have here := room l.toNat
      simp only [List.length_cons] at room here
      have value : counts.getD l.toNat 0 = counts[l.toNat] := by simp [inside]
      rw [if_neg long, at_ne_crash inside, ok_bind, fits_of_lt (by omega), ok_bind, put_of_lt inside, ok_bind]
      have other : ∀ n, (counts.set l.toNat (counts[l.toNat] + 1)).getD n 0 =
          counts.getD n 0 + if n = l.toNat then 1 else 0 := by
        intro n
        by_cases same : n = l.toNat
        · subst same
          simp [inside]
        · simp [List.getElem?_set_ne (Ne.symm same), same]
      rw [ih _ (by rw [List.length_set, size])]
      · simp only [long, decide_false, Bool.false_or]
        congr 2
        apply List.map_congr_left
        intro n member
        have small := List.mem_range.mp member
        simp only [MAX_BITS] at small
        rw [other, List.count_cons]
        by_cases same : n = l.toNat
        · simp [same]
          omega
        · have different : (l == UInt8.ofNat n) = false := by
            rw [beq_eq_false_iff_ne]
            rintro rfl
            apply same
            rw [UInt8.toNat_ofNat', Nat.mod_eq_of_lt (by omega)]
          simp [same, different]
      · intro n
        rw [other]
        have := room n
        split <;> omega

/-- What is left doubles with each length, and no length takes more codes than there are. -/
theorem subscribe_eq {counts : List ℕ} : ∀ {left : ℤ}, 0 ≤ left → left * 2 ^ counts.length ≤ 2 ^ 16 →
    (∀ c ∈ counts, c < 2 ^ 16) →
      InflateWords.subscribe left counts =
        if subscribed left counts then .ok () else .err (some .badHuffmanTable) := by
  induction counts with
  | nil => exact fun _ _ _ => rfl
  | cons count counts ih =>
    intro left low high few
    have here := few count List.mem_cons_self
    have power : (1 : ℤ) ≤ 2 ^ counts.length := one_le_pow₀ (by decide)
    rw [List.length_cons, pow_succ] at high
    have twice : left * 2 ≤ left * 2 * 2 ^ counts.length := le_mul_of_one_le_right (by omega) power
    have same : left * (2 ^ counts.length * 2) = left * 2 * 2 ^ counts.length := by ring
    have exactly : InflateWords.saturating (left * 2) = left * 2 := by
      unfold InflateWords.saturating
      omega
    rw [InflateWords.subscribe, exactly, fits32_of (by omega) (by omega), ok_bind, subscribed]
    by_cases negative : left * 2 - count < 0
    · rw [if_pos negative, if_neg (by simp; omega)]
    · rw [if_neg negative, ih (by omega) _ fun c member => few c (List.mem_cons_of_mem _ member)]
      · simp [show (count : ℤ) ≤ left * 2 by omega]
      · have less : (left * 2 - count) * 2 ^ counts.length ≤ left * 2 * 2 ^ counts.length :=
          mul_le_mul_of_nonneg_right (by omega) (by omega)
        omega

theorem offsets_eq {counts : List ℕ} : ∀ {a : ℕ}, a + counts.sum < 2 ^ 16 →
    InflateWords.offsets a counts = .ok (counts.scanl (fun a b => (a + b) % 2 ^ 16) a) := by
  induction counts with
  | nil => exact fun _ => rfl
  | cons count counts ih =>
    intro a small
    rw [List.sum_cons] at small
    rw [InflateWords.offsets, fits_of_lt (by omega), ok_bind, ih (by omega), ok_bind, List.scanl_cons,
      Nat.mod_eq_of_lt (show a + count < 2 ^ 16 by omega)]
    rfl

theorem follows_place {rest : List UInt8} : ∀ {sym : ℕ} {offs symbols : List ℕ},
    (∀ l ∈ rest, l.toNat < offs.length) → symbols.length < 2 ^ 16 →
      Follows (fun _ => True) (InflateWords.place sym rest offs symbols) (place sym rest offs symbols) := by
  induction rest with
  | nil => exact fun _ _ => .ok trivial
  | cons l rest ih =>
    intro sym offs symbols inside few
    have here := inside l List.mem_cons_self
    have later := fun m (member : m ∈ rest) => inside m (List.mem_cons_of_mem _ member)
    have value : offs.getD l.toNat 0 = offs[l.toNat] := by simp [here]
    rw [InflateWords.place, place]
    refine follows_ite (fun _ => ?_) fun _ => ih later few
    rw [at_ne_crash here, ok_bind]
    simp only [value]
    refine follows_ite (fun _ => .err _) fun free => ?_
    rw [put_of_lt (by omega), ok_bind, fits_of_lt (by omega), ok_bind, put_of_lt here, ok_bind,
      Nat.mod_eq_of_lt (show offs[l.toNat] + 1 < 2 ^ 16 by omega)]
    exact ih (by simpa using later) (by simpa using few)

/-- A table for at most 320 symbols. -/
structure Bounded (h : Huffman) : Prop where
  size : h.counts.length = MAX_BITS + 1
  few : ∀ c ∈ h.counts, c ≤ 320

theorem follows_new {lengths : List UInt8} (few : lengths.length ≤ 320) :
    Follows Bounded (InflateWords.new lengths) (Huffman.new lengths) := by
  have counted : (List.range (MAX_BITS + 1)).map (fun n => (List.replicate (MAX_BITS + 1) 0).getD n 0 +
      lengths.count (UInt8.ofNat n)) =
      (List.range (MAX_BITS + 1)).map (fun n => lengths.count (UInt8.ofNat n) % 2 ^ 16) := by
    apply List.map_congr_left
    intro n member
    have most : lengths.count (UInt8.ofNat n) ≤ lengths.length := List.count_le_length
    rw [Nat.mod_eq_of_lt (by omega)]
    simp [List.mem_range.mp member]
  have bounded : ∀ c ∈ (List.range (MAX_BITS + 1)).map (fun n => lengths.count (UInt8.ofNat n) % 2 ^ 16),
      c ≤ 320 := by
    intro c member
    obtain ⟨n, -, rfl⟩ := List.mem_map.mp member
    have most : lengths.count (UInt8.ofNat n) ≤ lengths.length := List.count_le_length
    exact (Nat.mod_le _ _).trans (by omega)
  have size : ((List.range (MAX_BITS + 1)).map (fun n => lengths.count (UInt8.ofNat n) % 2 ^ 16)).length =
      MAX_BITS + 1 := by simp
  have zeros : ∀ n, (List.replicate (MAX_BITS + 1) 0).getD n 0 = 0 := by
    intro n
    rw [List.getD_eq_getElem?_getD, List.getElem?_replicate]
    split <;> rfl
  unfold InflateWords.new Huffman.new
  rw [tally_eq lengths _ (by simp) (by intro n; rw [zeros]; omega), counted]
  by_cases long : (lengths.any fun l => decide (l.toNat > MAX_BITS)) = true
  · rw [if_pos long, if_pos long]
    exact .err _
  · rw [if_neg long, if_neg long, ok_bind]
    generalize (List.range (MAX_BITS + 1)).map (fun n => lengths.count (UInt8.ofNat n) % 2 ^ 16) = counts at *
    have later : ∀ c ∈ counts.tail, c ≤ 320 := fun c member => bounded c (List.mem_of_mem_tail member)
    have tails : counts.tail.length = 15 := by rw [List.length_tail, size]; rfl
    have total : counts.tail.sum ≤ 15 * 320 := by
      have := List.sum_le_card_nsmul counts.tail 320 later
      rw [tails] at this
      exact this
    dsimp only
    rw [subscribe_eq (by decide) (by rw [tails]; decide) fun c member => by have := later c member; omega]
    by_cases room : subscribed 1 counts.tail = true
    · rw [if_pos room, ok_bind, offsets_eq (by omega), ok_bind, if_neg (by simp [room])]
      refine follows_bind (follows_place ?_ (by rw [List.length_replicate]; omega)) fun symbols _ =>
        Follows.ok ⟨size, bounded⟩
      intro l member
      have short : ¬l.toNat > MAX_BITS := fun more => long (List.any_eq_true.mpr ⟨l, member, by simpa using more⟩)
      rw [List.length_cons, List.length_scanl, tails]
      simp only [MAX_BITS] at short
      omega
    · rw [if_neg room, if_pos (by simp [room])]
      exact .err _

theorem doubled_nat (small : n < 2 ^ 30) : InflateWords.doubled (n : ℤ) = ((n <<< 1 : ℕ) : ℤ) := by
  rw [InflateWords.doubled, Nat.shiftLeft_eq, Int.bmod_eq_of_le_mul_two (by omega) (by omega)]
  omega

/-- The numbers of a code so far, with the lengths still to come. -/
theorem follows_decodeFrom {symbols : List ℕ} (most : ℕ) {rest : List ℕ} : ∀ {br : BitReader} {code first index : ℕ},
    Valid br → (∀ c ∈ rest, c ≤ most) → (code + 2) * 2 ^ rest.length ≤ 2 ^ 16 →
      (first + 2 * most) * 2 ^ rest.length ≤ 2 ^ 25 → index + most * rest.length ≤ 2 ^ 25 →
      Follows (fun r => Valid r.2) (InflateWords.decodeFrom symbols br code first index rest)
        (Huffman.decodeFrom symbols br code first index rest) := by
  induction rest with
  | nil => exact fun _ _ _ _ _ => .err _
  | cons count rest ih =>
    intro br code first index valid few codes firsts indices
    have here := few count List.mem_cons_self
    have power : 1 ≤ 2 ^ rest.length := Nat.one_le_two_pow
    rw [List.length_cons, pow_succ] at codes firsts
    rw [List.length_cons, Nat.mul_succ] at indices
    have codeSmall : (code + 2) * 2 ≤ 2 ^ 16 := by
      refine le_trans ?_ codes
      rw [mul_comm (2 ^ rest.length), ← mul_assoc]
      exact Nat.le_mul_of_pos_right _ power
    have firstSmall : (first + 2 * most) * 2 ≤ 2 ^ 25 := by
      refine le_trans ?_ firsts
      rw [mul_comm (2 ^ rest.length), ← mul_assoc]
      exact Nat.le_mul_of_pos_right _ power
    refine follows_bind (follows_bits valid (by decide)) fun ⟨bit, next⟩ ⟨one, valid⟩ => ?_
    dsimp only at one valid ⊢
    have joined : code ||| bit.toNat ≤ code + 1 := by
      have : bit.toNat = 0 ∨ bit.toNat = 1 := by omega
      rcases this with zero | one
      · rw [zero, Nat.or_zero]
        omega
      · rw [one]
        have half : (code ||| 1) / 2 = code / 2 := by rw [Nat.or_div_two, Nat.or_zero]
        omega
    rw [Int.toNat_natCast, fits32_of (by omega) (by omega), ok_bind]
    refine follows_ite (fun _ => ?_) fun _ => ?_
    · rw [fits32_of (by omega) (by omega), ok_bind]
      cases (if (index : ℤ) + (((code ||| bit.toNat : ℕ) : ℤ) - first) < 0 then none
        else symbols[((index : ℤ) + (((code ||| bit.toNat : ℕ) : ℤ) - first)).toNat]?) with
      | none => exact .err _
      | some sym => exact .ok valid
    · rw [fits32_of (by omega) (by omega), ok_bind, fits32_of (by omega) (by omega), ok_bind]
      rw [← Int.natCast_add, ← Int.natCast_add, doubled_nat (by omega), doubled_nat (by omega)]
      refine ih valid (fun c member => few c (List.mem_cons_of_mem _ member)) ?_ ?_ (by omega)
      · rw [Nat.shiftLeft_eq]
        have less : (code ||| bit.toNat) * 2 ^ 1 + 2 ≤ (code + 2) * 2 := by omega
        calc ((code ||| bit.toNat) * 2 ^ 1 + 2) * 2 ^ rest.length
          _ ≤ (code + 2) * 2 * 2 ^ rest.length := Nat.mul_le_mul_right _ less
          _ = (code + 2) * (2 ^ rest.length * 2) := by ring
          _ ≤ 2 ^ 16 := codes
      · rw [Nat.shiftLeft_eq]
        have less : (first + count) * 2 ^ 1 + 2 * most ≤ (first + 2 * most) * 2 := by omega
        calc ((first + count) * 2 ^ 1 + 2 * most) * 2 ^ rest.length
          _ ≤ (first + 2 * most) * 2 * 2 ^ rest.length := Nat.mul_le_mul_right _ less
          _ = (first + 2 * most) * (2 ^ rest.length * 2) := by ring
          _ ≤ 2 ^ 25 := firsts

theorem follows_decode {h : Huffman} (bounded : Bounded h) (valid : Valid br) :
    Follows (fun r => Valid r.2) (InflateWords.decode h br) (h.decode br) := by
  have size : h.counts.tail.length = 15 := by rw [List.length_tail, bounded.size]; rfl
  refine follows_decodeFrom 320 valid (fun c member => bounded.few c (List.mem_of_mem_tail member)) ?_ ?_ ?_
  all_goals
    rw [size]
    decide

theorem follows_fixedTables :
    Follows (fun r => Bounded r.1 ∧ Bounded r.2) InflateWords.fixedTables fixedTables := by
  refine follows_bind (follows_new (by simp)) fun lit first => ?_
  exact follows_bind (follows_new (by simp)) fun dist second => .ok ⟨first, second⟩

/-! ### Transmitted tables -/

theorem follows_codeLengths {slots : List ℕ} : ∀ {br : BitReader} {lengths : List UInt8}, Valid br →
    (∀ slot ∈ slots, slot < lengths.length) →
      Follows (fun r => r.1.length = lengths.length ∧ Valid r.2) (InflateWords.codeLengths br lengths slots)
        (codeLengths br lengths slots) := by
  induction slots with
  | nil => exact fun valid _ => .ok ⟨rfl, valid⟩
  | cons slot slots ih =>
    intro br lengths valid inside
    refine follows_bind (follows_bits valid (by decide)) fun ⟨v, next⟩ ⟨_, valid⟩ => ?_
    dsimp only
    rw [put_of_lt (inside slot List.mem_cons_self), ok_bind]
    have size : (lengths.set slot (UInt8.ofNat v.toNat)).length = lengths.length := List.length_set
    rw [← size]
    exact ih valid fun s member => by rw [size]; exact inside s (List.mem_cons_of_mem _ member)

/-- What is written so far, before the zeros that the rest of the table still has. -/
def padded (done : List UInt8) (total : ℕ) : List UInt8 := done ++ List.replicate (total - done.length) 0

variable {done : List UInt8} {total : ℕ}

theorem length_padded (inside : done.length ≤ total) : (padded done total).length = total := by
  simp only [padded, List.length_append, List.length_replicate]
  omega

variable {l : UInt8}

theorem putAll_padded (inside : done.length + n ≤ total) :
    (putAll (padded done total) done.length (done.length + n) l : InflateWords.Runs (List UInt8)) =
      .ok (padded (done ++ List.replicate n l) total) := by
  rw [putAll_of_le (by omega) (by rw [length_padded (by omega)]; exact inside)]
  congr 1
  simp only [padded]
  rw [List.take_left, Nat.add_sub_cancel_left, ← List.drop_drop, List.drop_left, List.drop_replicate,
    List.length_append, List.length_replicate, Nat.sub_sub]

theorem put_padded (inside : done.length < total) :
    (put (padded done total) done.length l : InflateWords.Runs (List UInt8)) =
      .ok (padded (done ++ [l]) total) := by
  rw [put_of_lt (by rw [length_padded inside.le]; exact inside)]
  congr 1
  obtain ⟨n, more⟩ := Nat.exists_eq_add_of_lt inside
  have here : total - done.length = n + 1 := by omega
  have later : total - (done ++ [l]).length = n := by
    rw [List.length_append, List.length_singleton]
    omega
  simp only [padded]
  rw [here, later, List.replicate_succ, List.set_append_right _ _ le_rfl, Nat.sub_self, List.set_cons_zero,
    List.append_assoc]
  rfl

/-- A run after the lengths so far, when there is room for it. -/
def placed (done : List UInt8) (total : ℕ) (r : List UInt8 × BitReader) :
    Except InflateError (List UInt8 × ℕ × BitReader) :=
  if done.length + r.1.length > total then .error .badHuffmanTable
  else .ok (padded (done ++ r.1) total, (done ++ r.1).length, r.2)

/-- What is written and how far, with a reader that is between two reads. -/
def Written (r : List UInt8 × ℕ × BitReader) : Prop := Valid r.2.2

theorem follows_repeated {least : ℕ} (valid : Valid br) (narrow : n ≤ 16) (inside : done.length ≤ total)
    (small : total ≤ 320) (few : least ≤ 320) :
    Follows Written (InflateWords.repeated total br (padded done total) done.length least n l)
      (br.bits n >>= fun r => placed done total (List.replicate (least + r.1.toNat) l, r.2)) := by
  refine follows_bind (follows_bits valid narrow) fun ⟨v, next⟩ ⟨low, valid⟩ => ?_
  have power : 2 ^ n ≤ 2 ^ 16 := Nat.pow_le_pow_right (by decide) narrow
  dsimp only at low valid ⊢
  rw [fits_of_lt (by omega), ok_bind, fits_of_lt (by omega), ok_bind]
  simp only [placed, List.length_replicate]
  refine follows_ite (fun _ => .err _) fun room => ?_
  rw [putAll_padded (by omega), ok_bind, List.length_append, List.length_replicate]
  exact .ok valid

theorem follows_lengthRun {sym : ℕ} (valid : Valid br) (inside : done.length < total) (small : total ≤ 320) :
    Follows Written (InflateWords.lengthRun total br (padded done total) done.length sym)
      (lengthRun br done sym >>= placed done total) := by
  unfold InflateWords.lengthRun lengthRun
  split
  · rw [put_padded inside, ok_bind, fits_of_lt (by omega), ok_bind]
    show Follows _ _ (placed done total ([UInt8.ofNat sym], br))
    rw [placed, List.length_singleton, if_neg (by omega), List.length_append, List.length_singleton]
    exact .ok valid
  split
  · cases last : done.getLast? with
    | none =>
      rw [List.getLast?_eq_none_iff.mp last]
      exact .err _
    | some prev =>
      obtain ⟨front, rfl⟩ := List.getLast?_eq_some_iff.mp last
      have some_ : (front ++ [prev]).length = front.length + 1 := by simp
      have before : (padded (front ++ [prev]) total)[front.length]? = some prev := by simp [padded]
      rw [if_neg (by omega), minus_of_le (by omega), ok_bind, some_, Nat.add_sub_cancel, at_, before]
      simp only [Outcome.orCrash, ok_bind]
      rw [bind_assoc, ← some_]
      exact follows_repeated valid (by decide) inside.le small (by decide)
  split
  · rw [bind_assoc]
    exact follows_repeated valid (by decide) inside.le small (by decide)
  split
  · rw [bind_assoc]
    exact follows_repeated valid (by decide) inside.le small (by decide)
  · exact .err _

theorem take_padded (done : List UInt8) (total : ℕ) : (padded done total).take done.length = done :=
  List.take_left

theorem readLengths_step (tree : Huffman) (total : ℕ) (br : BitReader) (done : List UInt8) :
    readLengths tree total br done =
      if done.length < total then
        tree.decode br >>= fun r => (lengthRun r.2 done r.1 >>= placed done total) >>= fun s =>
          readLengths tree total s.2.2 (s.1.take s.2.1)
      else .ok (done, br) := by
  rw [readLengths]
  split
  · split
    · next e failed =>
      rw [failed]
      rfl
    · next sym next decoded =>
      rw [decoded]
      show _ = (lengthRun next done sym >>= placed done total) >>= _
      split
      · next e failed =>
        rw [failed]
        rfl
      · next run last ran =>
        rw [ran]
        show _ = placed done total (run, last) >>= _
        rw [placed]
        split
        · rfl
        · show _ = readLengths tree total last ((padded (done ++ run) total).take (done ++ run).length)
          rw [take_padded]
  · rfl

theorem follows_readLengths {tree : Huffman} (bounded : Bounded tree) (small : total ≤ 320) :
    ∀ (more : ℕ) {br : BitReader} {done : List UInt8}, Valid br → br.left < more → done.length ≤ total →
      Follows (fun r => r.1.length = total ∧ Valid r.2)
        (InflateWords.readLengths tree total more br (padded done total) done.length)
        (readLengths tree total br done) := by
  intro more
  induction more with
  | zero =>
    intro br done _ enough _
    omega
  | succ more ih =>
    intro br done valid enough inside
    rw [InflateWords.readLengths, readLengths_step]
    refine follows_ite (fun less => ?_) fun full => ?_
    · refine follows_then (follows_decode bounded valid) fun ⟨sym, next⟩ decoded valid => ?_
      refine follows_then (follows_lengthRun valid less small) fun s answer valid => ?_
      obtain ⟨⟨run, last⟩, ran, room⟩ := Fallible.bind_ok_iff.mp answer
      simp only [placed] at room
      split at room
      · cases room
      next fits_ =>
      cases room
      have := decode_left decoded
      have := lengthRun_left ran
      dsimp only at this ⊢
      rw [take_padded]
      exact ih valid (by omega) (by rw [List.length_append]; omega)
    · have all : padded done total = done := by
        rw [padded, show total - done.length = 0 by omega]
        exact List.append_nil _
      rw [all]
      exact .ok ⟨show done.length = total by omega, valid⟩

theorem follows_tables {lengths : List UInt8} {hlit : ℕ} (few : lengths.length ≤ 320)
    (many : 256 < lengths.length) (inside : hlit ≤ lengths.length) :
    Follows (fun r => Bounded r.1 ∧ Bounded r.2) (InflateWords.tables lengths hlit)
      (if lengths.getD 256 0 = 0 then .error .badHuffmanTable
      else Huffman.new (lengths.take hlit) >>= fun litlen => Huffman.new (lengths.drop hlit) >>= fun dist =>
        .ok (litlen, dist)) := by
  have value : lengths.getD 256 0 = lengths[256] := by simp [many]
  unfold InflateWords.tables
  rw [at_ne_crash many, ok_bind, value]
  refine follows_ite (fun _ => .err _) fun _ => ?_
  rw [slice_of_le (Nat.zero_le _) inside, ok_bind, List.drop_zero]
  refine follows_bind (follows_new (by rw [List.length_take]; omega)) fun litlen first => ?_
  rw [slice_of_le inside le_rfl, ok_bind, List.take_length]
  exact follows_bind (follows_new (by rw [List.length_drop]; omega)) fun dist second => .ok ⟨first, second⟩

theorem follows_dynamicTables (valid : Valid br) :
    Follows (fun r => (Bounded r.1.1 ∧ Bounded r.1.2) ∧ Valid r.2) (InflateWords.dynamicTables br)
      (dynamicTables br) := by
  unfold InflateWords.dynamicTables dynamicTables
  refine follows_bind (follows_bits valid (by decide)) fun ⟨v, br⟩ ⟨low, valid⟩ => ?_
  dsimp only at low valid ⊢
  rw [fits_of_lt (by omega), ok_bind]
  refine follows_bind (follows_bits valid (by decide)) fun ⟨w, br⟩ ⟨low, valid⟩ => ?_
  dsimp only at low valid ⊢
  rw [fits_of_lt (by omega), ok_bind]
  refine follows_bind (follows_bits valid (by decide)) fun ⟨u, br⟩ ⟨low, valid⟩ => ?_
  dsimp only at low valid ⊢
  rw [fits_of_lt (by omega), ok_bind]
  refine follows_unless fun room => ?_
  have slots : ∀ slot ∈ ORDER.take (u.toNat + 4), slot < (List.replicate 19 (0 : UInt8)).length := by
    intro slot member
    have all : ∀ slot ∈ ORDER, slot < 19 := by decide
    rw [List.length_replicate]
    exact all slot (List.mem_of_mem_take member)
  refine follows_bind (follows_codeLengths valid slots) fun ⟨lengths, br⟩ ⟨size, valid⟩ => ?_
  dsimp only at size valid ⊢
  rw [List.length_replicate] at size
  refine follows_bind (follows_new (by omega)) fun tree bounded => ?_
  rw [fits_of_lt (by omega), ok_bind]
  have lengthsRead := follows_readLengths bounded (show v.toNat + 257 + (w.toNat + 1) ≤ 320 by omega) (br.left + 1)
    valid (by omega)
    (show ([] : List UInt8).length ≤ v.toNat + 257 + (w.toNat + 1) from Nat.zero_le _)
  refine follows_bind lengthsRead fun ⟨all, br⟩ ⟨size, valid⟩ => ?_
  dsimp only at size valid ⊢
  have pair := follows_tables (show all.length ≤ 320 by omega) (by omega)
    (show v.toNat + 257 ≤ all.length by omega)
  by_cases stop : all.getD 256 0 = 0
  · rw [if_pos stop] at pair ⊢
    show Follows _ _ (Except.error _ >>= fun pair => Except.ok (pair, br))
    exact follows_bind pair fun _ bounded => .ok ⟨bounded, valid⟩
  · rw [if_neg stop] at pair ⊢
    have whole : Follows (fun r : (Huffman × Huffman) × BitReader => (Bounded r.1.1 ∧ Bounded r.1.2) ∧ Valid r.2) _ _ :=
      follows_bind pair fun pair bounded => .ok (a := (pair, br)) ⟨bounded, valid⟩
    simp only [bind_assoc] at whole
    exact whole

/-! ### Blocks -/

variable {out : List UInt8}

theorem follows_grow {bs : List UInt8} :
    Follows (fun r => r.length < 2 ^ 63) (InflateWords.grow out bs) (.ok (out ++ bs)) := by
  unfold InflateWords.grow
  split
  · next room => exact .ok (by rwa [List.length_append])
  · exact .exhausted _

/-- Bytes copied from `src` on, which lies before the end. -/
def copied (src : ℕ) : ℕ → List UInt8 → List UInt8
  | 0, out => out
  | n + 1, out => copied (src + 1) n (out ++ [out.getD src 0])

theorem follows_copyFrom : ∀ (n : ℕ) {src : ℕ} {out : List UInt8}, src < out.length ∨ n = 0 →
    out.length < 2 ^ 63 →
      Follows (fun r => r.length < 2 ^ 63) (InflateWords.copyFrom n src out) (.ok (copied src n out)) := by
  intro n
  induction n with
  | zero => exact fun _ short => .ok short
  | succ n ih =>
    intro src out inside short
    have within : src < out.length := by omega
    rw [InflateWords.copyFrom, at_ne_crash within, ok_bind, fits_of_lt (by omega), ok_bind, copied]
    have value : out.getD src 0 = out[src] := by simp [within]
    rw [value]
    show Follows _ _ (Except.ok (out ++ [out[src]]) >>= fun out => Except.ok (copied (src + 1) n out))
    refine follows_then follows_grow fun next answer short => ?_
    cases answer
    exact ih (.inl (by rw [List.length_append, List.length_singleton]; omega)) short

theorem foldl_copied (out : List UInt8) (base : ℕ) : ∀ (n src i : ℕ) (o : List UInt8), src = base + i →
    (List.range' i n).foldl (fun o i => o ++ [o.getD (base + i) 0]) o = copied src n o := by
  intro n
  induction n with
  | zero => exact fun _ _ _ _ => rfl
  | succ n ih =>
    rintro src i o rfl
    rw [List.range'_succ, List.foldl_cons, ih (base + i + 1) (i + 1) _ (by omega)]
    rfl

theorem copyBack_eq (out : List UInt8) (distance length : ℕ) :
    copyBack out distance length = copied (out.length - distance) length out := by
  rw [copyBack, List.range_eq_range']
  exact foldl_copied out (out.length - distance) length _ 0 out rfl

/-- An entry of a table of bases and what the next bits add to it. -/
def based (bases extras : List ℕ) (i : ℕ) (br : BitReader) : Except InflateError (ℕ × BitReader) :=
  br.bits (extras.getD i 0) >>= fun r => .ok (bases.getD i 0 + r.1.toNat, r.2)

theorem follows_based {bases extras : List ℕ} {i : ℕ} (valid : Valid br) (inside : i < bases.length)
    (same : extras.length = bases.length) (few : ∀ n ∈ extras, n ≤ 16) (small : ∀ b ∈ bases, 1 ≤ b ∧ b < 2 ^ 16) :
    Follows (fun r => (1 ≤ r.1 ∧ r.1 < 2 ^ 17) ∧ Valid r.2) (InflateWords.based bases extras i br)
      (based bases extras i br) := by
  have within : i < extras.length := by omega
  have base : bases.getD i 0 = bases[i] := by simp [inside]
  have extra : extras.getD i 0 = extras[i] := by simp [within]
  have narrow := few _ (List.getElem_mem within)
  have low := small _ (List.getElem_mem inside)
  unfold InflateWords.based based
  rw [at_ne_crash inside, ok_bind, at_ne_crash within, ok_bind, base, extra]
  refine follows_bind (follows_bits valid narrow) fun ⟨v, next⟩ ⟨few, valid⟩ => ?_
  have power : 2 ^ extras[i] ≤ 2 ^ 16 := Nat.pow_le_pow_right (by decide) narrow
  dsimp only at few valid ⊢
  rw [fits_of_lt (by omega), ok_bind]
  exact .ok ⟨⟨show 1 ≤ bases[i] + v.toNat by omega, show bases[i] + v.toNat < 2 ^ 17 by omega⟩, valid⟩

theorem reference_eq (dist : Huffman) (br : BitReader) (sym : ℕ) :
    reference dist br sym =
      if sym - 257 ≥ LEN_BASE.length then .error .badHuffmanCode
      else based LEN_BASE LEN_EXTRA (sym - 257) br >>= fun l => dist.decode l.2 >>= fun d =>
        if d.1 ≥ DIST_BASE.length then .error .badHuffmanCode
        else based DIST_BASE DIST_EXTRA d.1 d.2 >>= fun e => .ok ((l.1, e.1), e.2) := by
  unfold reference based
  simp only [bind_assoc]
  rfl

variable {dist : Huffman}

theorem follows_reference {sym : ℕ} (bounded : Bounded dist) (valid : Valid br) (more : 257 ≤ sym) :
    Follows (fun r => (r.1.1 < 2 ^ 17 ∧ 1 ≤ r.1.2) ∧ Valid r.2) (InflateWords.reference dist br sym)
      (reference dist br sym) := by
  rw [reference_eq]
  unfold InflateWords.reference
  rw [minus_of_le more, ok_bind]
  generalize sym - 257 = li
  refine follows_ite (fun _ => .err _) fun listed => ?_
  refine follows_bind (follows_based valid (not_le.mp listed) rfl (by decide) (by decide))
    fun ⟨length, br⟩ ⟨small, valid⟩ => ?_
  refine follows_bind (follows_decode bounded valid) fun ⟨ds, br⟩ valid => ?_
  refine follows_ite (fun _ => .err _) fun listed => ?_
  exact follows_bind (follows_based valid (not_le.mp listed) rfl (by decide) (by decide))
    fun ⟨distance, br⟩ ⟨less, valid⟩ => .ok ⟨⟨small.2, less.1⟩, valid⟩

theorem symbol_eq (litlen dist : Huffman) (limit : ℕ) (br : BitReader) (out : List UInt8) :
    symbol litlen dist limit br out =
      litlen.decode br >>= fun d =>
        if d.1 < 256 then
          if out.length ≥ limit then .error .limitExceeded
          else .ok (some (out ++ [UInt8.ofNat d.1]), d.2)
        else if d.1 = 256 then .ok (none, d.2)
        else reference dist d.2 d.1 >>= fun r =>
          if r.1.2 > out.length then .error .distanceTooFar
          else if out.length + r.1.1 > limit then .error .limitExceeded
          else .ok (some (copyBack out r.1.2 r.1.1), r.2) := rfl

variable {litlen : Huffman}

theorem follows_symbol {limit : ℕ} (lits : Bounded litlen) (dists : Bounded dist) (valid : Valid br)
    (short : out.length < 2 ^ 63) :
    Follows (fun r => (∀ next ∈ r.1, next.length < 2 ^ 63) ∧ Valid r.2)
      (InflateWords.symbol litlen dist limit br out) (symbol litlen dist limit br out) := by
  have kept : ∀ (x : InflateWords.Runs (List UInt8)) (bs : List UInt8) (br : BitReader), Valid br →
      Follows (fun r => r.length < 2 ^ 63) x (.ok bs) →
      Follows (fun r => (∀ next ∈ r.1, next.length < 2 ^ 63) ∧ Valid r.2)
        (x >>= fun out => pure (some out, br)) (.ok (some bs, br)) := by
    intro x bs br valid grows
    show Follows _ _ (Except.ok bs >>= fun out => Except.ok (some out, br))
    exact follows_bind grows fun next short => .ok ⟨by simpa using short, valid⟩
  rw [symbol_eq]
  unfold InflateWords.symbol
  refine follows_bind (follows_decode lits valid) fun ⟨sym, br⟩ valid => ?_
  refine follows_ite (fun _ => follows_ite (fun _ => .err _) fun room => kept _ _ _ valid follows_grow)
    fun high => follows_ite (fun _ => .ok ⟨by nofun, valid⟩) fun other => ?_
  have more : 257 ≤ sym := by omega
  refine follows_bind (follows_reference dists valid more) fun ⟨⟨length, distance⟩, br⟩ ⟨small, valid⟩ => ?_
  dsimp only at small valid ⊢
  refine follows_ite (fun _ => .err _) fun near => ?_
  rw [fits_of_lt (by omega), ok_bind]
  refine follows_ite (fun _ => .err _) fun room => ?_
  rw [minus_of_le (by omega), ok_bind, copyBack_eq]
  refine kept _ _ _ valid (follows_copyFrom length (.inl ?_) short)
  omega

theorem codes_step (litlen dist : Huffman) (limit : ℕ) (br : BitReader) (out : List UInt8) :
    codes litlen dist limit br out =
      symbol litlen dist limit br out >>= fun r =>
        match r.1 with
        | none => .ok (out, r.2)
        | some out => codes litlen dist limit r.2 out := by
  rw [codes]
  split
  · next e failed =>
    rw [failed]
    rfl
  · next next ended =>
    rw [ended]
    rfl
  · next out next went =>
    rw [went]
    rfl

/-- What a step of a stream leaves: the bytes so far, and a reader between two reads. -/
def Kept (r : List UInt8 × BitReader) : Prop := r.1.length < 2 ^ 63 ∧ Valid r.2

theorem follows_codes {limit : ℕ} (lits : Bounded litlen) (dists : Bounded dist) :
    ∀ (more : ℕ) {br : BitReader} {out : List UInt8}, Valid br → out.length < 2 ^ 63 → br.left < more →
      Follows Kept (InflateWords.codes litlen dist limit more br out) (codes litlen dist limit br out) := by
  intro more
  induction more with
  | zero =>
    intro br out _ _ enough
    omega
  | succ more ih =>
    intro br out valid short enough
    rw [InflateWords.codes, codes_step]
    refine follows_then (follows_symbol lits dists valid short) fun ⟨next, br⟩ read ⟨grows, valid⟩ => ?_
    have less := symbol_left read
    cases next with
    | none => exact .ok ⟨short, valid⟩
    | some out => exact ih valid (grows out rfl) (by omega)

theorem follows_readBytes : ∀ {br : BitReader} {out : List UInt8}, Valid br → out.length < 2 ^ 63 →
    Follows Kept (InflateWords.readBytes br out n) (readBytes br out n) := by
  induction n with
  | zero => exact fun valid short => .ok ⟨short, valid⟩
  | succ n ih =>
    intro br out valid short
    refine follows_bind (follows_byte valid) fun ⟨b, br⟩ valid => ?_
    show Follows _ _ (Except.ok (out ++ [b]) >>= fun out => readBytes br out n)
    exact follows_bind follows_grow fun out short => ih valid short

theorem or_shift_lt (a b : UInt8) : a.toNat ||| (b.toNat <<< 8) < 2 ^ 16 := by
  have := a.toNat_lt
  have := b.toNat_lt
  refine Nat.or_lt_two_pow (by omega) ?_
  rw [Nat.shiftLeft_eq]
  omega

theorem follows_stored {limit : ℕ} (valid : Valid br) (short : out.length < 2 ^ 63) :
    Follows Kept (InflateWords.stored limit br out) (stored limit br out) := by
  obtain ⟨next, aligned, same, valid⟩ := follows_align valid
  unfold InflateWords.stored stored
  rw [aligned, ok_bind, same]
  refine follows_bind (follows_byte valid) fun ⟨b0, br⟩ valid => ?_
  refine follows_bind (follows_byte valid) fun ⟨b1, br⟩ valid => ?_
  refine follows_bind (follows_byte valid) fun ⟨c0, br⟩ valid => ?_
  refine follows_bind (follows_byte valid) fun ⟨c1, br⟩ valid => ?_
  have small := or_shift_lt b0 b1
  dsimp only at valid ⊢
  refine follows_unless fun _ => ?_
  rw [remaining_eq valid, ok_bind]
  refine follows_unless fun _ => ?_
  rw [fits_of_lt (by omega), ok_bind]
  exact follows_unless fun _ => follows_readBytes valid short

theorem follows_block {limit kind : ℕ} (valid : Valid br) (short : out.length < 2 ^ 63) :
    Follows Kept (InflateWords.block limit kind br out) (block limit kind br out) := by
  unfold InflateWords.block block
  refine follows_ite (fun _ => follows_stored valid short) fun _ => ?_
  refine follows_ite (fun _ => ?_) fun _ => follows_ite (fun _ => ?_) fun _ => .err _
  · exact follows_bind follows_fixedTables fun ⟨litlen, dist⟩ ⟨lits, dists⟩ =>
      follows_codes lits dists _ valid short (Nat.lt_succ_self _)
  · exact follows_bind (follows_dynamicTables valid) fun ⟨⟨litlen, dist⟩, br⟩ ⟨⟨lits, dists⟩, valid⟩ =>
      follows_codes lits dists _ valid short (Nat.lt_succ_self _)

theorem follows_anyBlock {limit : ℕ} (valid : Valid br) (short : out.length < 2 ^ 63) :
    Follows (fun r => r.1.2.length < 2 ^ 63 ∧ Valid r.2) (InflateWords.anyBlock limit br out)
      (anyBlock limit br out) := by
  unfold InflateWords.anyBlock anyBlock
  refine follows_bind (follows_bits valid (by decide)) fun ⟨last, br⟩ ⟨_, valid⟩ => ?_
  refine follows_bind (follows_bits valid (by decide)) fun ⟨kind, br⟩ ⟨_, valid⟩ => ?_
  exact follows_bind (follows_block valid short) fun ⟨out, br⟩ kept => .ok kept

theorem blocks_step (limit : ℕ) (br : BitReader) (out : List UInt8) :
    blocks limit br out =
      anyBlock limit br out >>= fun r => if r.1.1 then .ok r.1.2 else blocks limit r.2 r.1.2 := by
  rw [blocks]
  split
  · next e failed =>
    rw [failed]
    rfl
  · next last out next went =>
    rw [went]
    rfl

theorem follows_blocks {limit : ℕ} : ∀ (more : ℕ) {br : BitReader} {out : List UInt8}, Valid br →
    out.length < 2 ^ 63 → br.left < more →
      Follows (fun r => r.length < 2 ^ 63) (InflateWords.blocks limit more br out) (blocks limit br out) := by
  intro more
  induction more with
  | zero =>
    intro br out _ _ enough
    omega
  | succ more ih =>
    intro br out valid short enough
    rw [InflateWords.blocks, blocks_step]
    refine follows_then (follows_anyBlock valid short) fun ⟨⟨last, out⟩, br⟩ read ⟨short, valid⟩ => ?_
    have less := anyBlock_left read
    exact follows_ite (fun _ => .ok short) fun _ => ih valid short (by omega)

/-! ### Streams -/

theorem follows_inflate {data : List UInt8} (limit : ℕ) (short : data.length < 2 ^ 63) :
    Follows (fun r => r.length < 2 ^ 63) (InflateWords.inflate data limit) (inflate data limit) :=
  follows_blocks _ ⟨Nat.zero_le _, short, show 0 < 8 by decide⟩ (show 0 < 2 ^ 63 by decide)
    (Nat.lt_succ_self _)

theorem adler_room {len a b byte : ℕ} (most : byte < 256)
    (small : 2 * b + 2 * ((len + 1) * a) + 255 * ((len + 1) * (len + 1 + 1)) < 2 ^ 33) :
    b + (a + byte) < 2 ^ 32 ∧ 2 * (b + (a + byte)) + 2 * (len * (a + byte)) + 255 * (len * (len + 1)) < 2 ^ 33 := by
  have spread : 2 * b + 2 * ((len + 1) * a) + 255 * ((len + 1) * (len + 1 + 1)) =
      2 * b + 2 * (len * a) + 2 * a + 255 * (len * (len + 1)) + 510 * len + 510 := by ring
  have added : len * (a + byte) ≤ len * a + 255 * len := by
    rw [Nat.mul_add, Nat.mul_comm 255]
    exact Nat.add_le_add_left (Nat.mul_le_mul_left _ (by omega)) _
  rw [spread] at small
  clear spread
  generalize len * (a + byte) = x at *
  generalize len * (len + 1) = y at *
  generalize len * a = z at *
  omega

theorem adlerSums_ok {bytes : List UInt8} : ∀ {a b : ℕ},
    2 * b + 2 * (bytes.length * a) + 255 * (bytes.length * (bytes.length + 1)) < 2 ^ 33 →
    a + 255 * bytes.length < 2 ^ 32 →
      ∃ a' b', InflateWords.adlerSums a b bytes = .ok (a', b') ∧ a' < 2 ^ 32 ∧ b' < 2 ^ 32 ∧
        bytes.foldl (fun (p : BitVec 32 × BitVec 32) byte =>
          (p.1 + byte.toBitVec.setWidth 32, p.2 + (p.1 + byte.toBitVec.setWidth 32)))
          (BitVec.ofNat 32 a, BitVec.ofNat 32 b) = (BitVec.ofNat 32 a', BitVec.ofNat 32 b') := by
  induction bytes with
  | nil =>
    intro a b small few
    simp only [List.length_nil] at small few
    exact ⟨a, b, rfl, by omega, by omega, rfl⟩
  | cons byte bytes ih =>
    intro a b small few
    have most := byte.toNat_lt
    rw [List.length_cons] at small few
    obtain ⟨sum, more⟩ := adler_room most small
    clear small
    rw [InflateWords.adlerSums, fits_of_lt (by omega), ok_bind, fits_of_lt sum, ok_bind]
    obtain ⟨a', b', sums, low, high, same⟩ := @ih (a + byte.toNat) (b + (a + byte.toNat)) more (by omega)
    refine ⟨a', b', sums, low, high, ?_⟩
    have one : BitVec.ofNat 32 a + byte.toBitVec.setWidth 32 = BitVec.ofNat 32 (a + byte.toNat) := by
      apply BitVec.eq_of_toNat_eq
      simp
    rw [List.foldl_cons]
    simp only [one]
    rw [← BitVec.ofNat_add]
    exact same

theorem umod_ofNat (small : n < 2 ^ 32) : (BitVec.ofNat 32 n).umod 65521 = BitVec.ofNat 32 (n % 65521) := by
  apply BitVec.eq_of_toNat_eq
  show (BitVec.ofNat 32 n).toNat % 65521 = _
  rw [BitVec.toNat_ofNat, BitVec.toNat_ofNat, Nat.mod_eq_of_lt small]
  exact (Nat.mod_eq_of_lt (by omega)).symm

/-- In 5552 bytes, from reduced sums on, the sums stay in their words. -/
theorem adlerFrom_ok : ∀ (n : ℕ) {data : List UInt8} {a b : ℕ}, data.length ≤ n → a < 65521 → b < 65521 →
    ∃ a' b', InflateWords.adlerFrom a b data = .ok (a', b') ∧
      adlerFrom (BitVec.ofNat 32 a) (BitVec.ofNat 32 b) data = (BitVec.ofNat 32 a', BitVec.ofNat 32 b') := by
  intro n
  induction n with
  | zero =>
    intro data a b none_ _ _
    obtain rfl := List.eq_nil_of_length_eq_zero (Nat.le_zero.mp none_)
    rw [InflateWords.adlerFrom, adlerFrom, dif_pos rfl, dif_pos rfl]
    exact ⟨a, b, rfl, rfl⟩
  | succ n ih =>
    intro data a b few low high
    rw [InflateWords.adlerFrom, adlerFrom]
    by_cases none_ : data = []
    · rw [dif_pos none_, dif_pos none_]
      exact ⟨a, b, rfl, rfl⟩
    · have some_ := List.length_pos_iff.mpr none_
      have chunk : (data.take 5552).length ≤ 5552 := by
        rw [List.length_take]
        omega
      have square := Nat.mul_le_mul chunk (Nat.add_le_add_right chunk 1)
      have product := Nat.mul_le_mul chunk (show a ≤ 65520 by omega)
      obtain ⟨a', b', sums, less, less', same⟩ :=
        adlerSums_ok (show 2 * b + 2 * ((data.take 5552).length * a) + _ < _ by omega) (by omega)
      rw [dif_neg none_, dif_neg none_, sums, ok_bind]
      have chunked : adlerChunk (BitVec.ofNat 32 a) (BitVec.ofNat 32 b) (data.take 5552) =
          (BitVec.ofNat 32 (a' % 65521), BitVec.ofNat 32 (b' % 65521)) := by
        rw [← umod_ofNat less, ← umod_ofNat less']
        exact congrArg (fun p : BitVec 32 × BitVec 32 => (p.1.umod 65521, p.2.umod 65521)) same
      rw [chunked]
      refine ih ?_ (Nat.mod_lt _ (by decide)) (Nat.mod_lt _ (by decide))
      rw [List.length_drop]
      omega

theorem adler32_eq (data : List UInt8) : InflateWords.adler32 data = .ok (adler32 data) := by
  obtain ⟨a, b, sums, same⟩ := adlerFrom_ok data.length (a := 1) (b := 0) le_rfl (by decide) (by decide)
  unfold InflateWords.adler32 adler32
  rw [sums, ok_bind]
  have start : adlerFrom 1 0 data = (BitVec.ofNat 32 a, BitVec.ofNat 32 b) := same
  rw [start]
  rfl

theorem follows_checkTail {data : List UInt8} {post : List UInt8 → Prop} (holds : post out) (many : 6 ≤ data.length) :
    Follows post (InflateWords.checkTail data out)
      (if adler32 out ≠ fromBeBytes ((data.drop (data.length - 4)).getD 0 0) ((data.drop (data.length - 4)).getD 1 0)
          ((data.drop (data.length - 4)).getD 2 0) ((data.drop (data.length - 4)).getD 3 0) then
        .error .checksumMismatch
      else .ok out) := by
  unfold InflateWords.checkTail
  rw [minus_of_le (by omega), ok_bind, slice_of_le (by omega) le_rfl, ok_bind, List.take_length]
  have size : (data.drop (data.length - 4)).length = 4 := by
    rw [List.length_drop]
    omega
  generalize data.drop (data.length - 4) = tail at size ⊢
  have value : ∀ i, i < 4 → (at_ tail i : InflateWords.Runs UInt8) = .ok (tail.getD i 0) := by
    intro i inside
    rw [at_ne_crash (by omega)]
    simp [show i < tail.length by omega]
  rw [value 0 (by decide), ok_bind, value 1 (by decide), ok_bind, value 2 (by decide), ok_bind,
    value 3 (by decide), ok_bind, adler32_eq, ok_bind]
  exact follows_ite (fun _ => .err _) fun _ => .ok holds

theorem inflateZlib_eq (data : List UInt8) (limit : ℕ) :
    inflateZlib data limit =
      if data.length < 6 then .error .truncated
      else if data.getD 0 0 &&& 0x0f ≠ 8 ∨ data.getD 0 0 >>> 4 > 7 then .error .badZlibHeader
      else if ((data.getD 0 0).toNat * 256 + (data.getD 1 0).toNat) % 31 ≠ 0 then .error .badZlibHeader
      else if data.getD 1 0 &&& 0x20 ≠ 0 then .error .presetDictionary
      else inflate ((data.take (data.length - 4)).drop 2) limit >>= fun out =>
        if adler32 out ≠ fromBeBytes ((data.drop (data.length - 4)).getD 0 0) ((data.drop (data.length - 4)).getD 1 0)
            ((data.drop (data.length - 4)).getD 2 0) ((data.drop (data.length - 4)).getD 3 0) then
          .error .checksumMismatch
        else .ok out := rfl

theorem follows_inflateZlib {data : List UInt8} (limit : ℕ) (short : data.length < 2 ^ 63) :
    Follows (fun r => r.length < 2 ^ 63) (InflateWords.inflateZlib data limit) (inflateZlib data limit) := by
  rw [inflateZlib_eq]
  unfold InflateWords.inflateZlib
  refine follows_ite (fun _ => .err _) fun many => ?_
  have first : (at_ data 0 : InflateWords.Runs UInt8) = .ok (data.getD 0 0) := by
    rw [at_ne_crash (by omega)]
    simp [show 0 < data.length by omega]
  have second : (at_ data 1 : InflateWords.Runs UInt8) = .ok (data.getD 1 0) := by
    rw [at_ne_crash (by omega)]
    simp [show 1 < data.length by omega]
  rw [first, ok_bind, second, ok_bind]
  generalize data.getD 0 0 = cmf
  generalize data.getD 1 0 = flg
  have low := cmf.toNat_lt
  have high := flg.toNat_lt
  refine follows_ite (fun _ => .err _) fun _ => ?_
  rw [fits_of_lt (by omega), ok_bind, fits_of_lt (by omega), ok_bind]
  refine follows_ite (fun _ => .err _) fun _ => follows_ite (fun _ => .err _) fun _ => ?_
  rw [minus_of_le (by omega), ok_bind, slice_of_le (by omega) (by omega), ok_bind]
  refine follows_bind (follows_inflate limit ?_) fun out short => ?_
  · rw [List.length_drop, List.length_take]
    omega
  · exact follows_checkTail short (by omega)

/-! ### The limit -/

theorem length_copied : ∀ (n src : ℕ) (out : List UInt8), (copied src n out).length = out.length + n := by
  intro n
  induction n with
  | zero => exact fun _ _ => rfl
  | succ n ih =>
    intro src out
    rw [copied, ih, List.length_append, List.length_singleton]
    omega

variable {br' : BitReader} {out' : List UInt8}

theorem symbol_limit {limit : ℕ} (read : symbol litlen dist limit br out = .ok (some out', br')) :
    out'.length ≤ limit := by
  rw [symbol_eq] at read
  obtain ⟨⟨sym, next⟩, -, read⟩ := Fallible.bind_ok_iff.mp read
  dsimp only at read
  split at read
  · split at read
    · cases read
    next room =>
    cases read
    rw [List.length_append, List.length_singleton]
    omega
  split at read
  · cases read
  · obtain ⟨⟨⟨length, distance⟩, last⟩, -, read⟩ := Fallible.bind_ok_iff.mp read
    dsimp only at read
    split at read
    · cases read
    split at read
    · cases read
    next room =>
    cases read
    rw [copyBack_eq, length_copied]
    omega

theorem codes_limit {limit : ℕ} (before : out.length ≤ limit)
    (read : codes litlen dist limit br out = .ok (out', br')) : out'.length ≤ limit := by
  fun_induction codes litlen dist limit br out with
  | case1 => cases read
  | case2 br out next last =>
    cases read
    exact before
  | case3 br out out1 next more ih => exact ih (symbol_limit more) read

theorem readBytes_length (read : readBytes br out n = .ok (out', br')) : out'.length = out.length + n := by
  induction n generalizing br out with
  | zero =>
    cases read
    rfl
  | succ n ih =>
    rw [readBytes] at read
    obtain ⟨⟨b, next⟩, -, read⟩ := Fallible.bind_ok_iff.mp read
    rw [ih read, List.length_append, List.length_singleton]
    omega

theorem block_limit {limit kind : ℕ} (before : out.length ≤ limit) (read : block limit kind br out = .ok (out', br')) :
    out'.length ≤ limit := by
  unfold block at read
  split at read
  · obtain ⟨⟨b0, br1⟩, -, read⟩ := Fallible.bind_ok_iff.mp read
    obtain ⟨⟨b1, br2⟩, -, read⟩ := Fallible.bind_ok_iff.mp read
    obtain ⟨⟨c0, br3⟩, -, read⟩ := Fallible.bind_ok_iff.mp read
    obtain ⟨⟨c1, br4⟩, -, read⟩ := Fallible.bind_ok_iff.mp read
    obtain ⟨-, read⟩ := Fallible.unless_ok_iff.mp read
    obtain ⟨-, read⟩ := Fallible.unless_ok_iff.mp read
    obtain ⟨room, read⟩ := Fallible.unless_ok_iff.mp read
    rw [readBytes_length read]
    exact not_lt.mp room
  split at read
  · obtain ⟨tables, -, read⟩ := Fallible.bind_ok_iff.mp read
    exact codes_limit before read
  split at read
  · obtain ⟨⟨tables, br1⟩, -, read⟩ := Fallible.bind_ok_iff.mp read
    exact codes_limit before read
  · cases read

theorem blocks_limit {limit : ℕ} (before : out.length ≤ limit) (read : blocks limit br out = .ok out') :
    out'.length ≤ limit := by
  have one : ∀ {br br' : BitReader} {out out' : List UInt8} {last : Bool}, out.length ≤ limit →
      anyBlock limit br out = .ok ((last, out'), br') → out'.length ≤ limit := by
    intro br br' out out' last before read
    obtain ⟨⟨v, br1⟩, -, read⟩ := Fallible.bind_ok_iff.mp read
    obtain ⟨⟨kind, br2⟩, -, read⟩ := Fallible.bind_ok_iff.mp read
    obtain ⟨⟨next, br3⟩, body, read⟩ := Fallible.bind_ok_iff.mp read
    cases read
    exact block_limit before body
  fun_induction blocks limit br out with
  | case1 => cases read
  | case2 br out out1 next more =>
    cases read
    exact one before more
  | case3 br out last out1 next more notLast ih => exact ih (one before more) read

theorem inflate_limit {data : List UInt8} {limit : ℕ} (read : inflate data limit = .ok out) :
    out.length ≤ limit := blocks_limit (Nat.zero_le _) read

theorem inflateZlib_limit {data : List UInt8} {limit : ℕ} (read : inflateZlib data limit = .ok out) :
    out.length ≤ limit := by
  rw [inflateZlib_eq] at read
  split at read
  · cases read
  split at read
  · cases read
  split at read
  · cases read
  split at read
  · cases read
  obtain ⟨all, inflated, read⟩ := Fallible.bind_ok_iff.mp read
  split at read
  · cases read
  · cases read
    exact inflate_limit inflated

end E5r.InflateSafety
