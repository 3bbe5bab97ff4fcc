import E5r.Deflate
import E5r.Inflate

/-!
What a bit writer has written and what a bit reader has still to read, as lists
of bits (`written`, `unread`). Each write appends to the one, and each read takes
off the front of the other (`Takes`).
-/
namespace E5r.DeflateBits
open BitStream Deflate Inflate Fallible

/-- The whole bytes, and the bits that wait. -/
def written (w : BitWriter) : List Bool := bytesBits w.out ++ bitsOf w.n w.bits.toNat

/-- Less than a byte waits, and nothing else. -/
structure Settled (w : BitWriter) : Prop where
  few : w.n < 8
  small : w.bits.toNat < 2 ^ w.n

private theorem toNat_lowByte (n : ℕ) : bitsOf 8 (UInt8.ofNat n).toNat = bitsOf 8 n := by
  rw [UInt8.toNat_ofNat']
  exact bitsOf_mod 8 n

theorem drain_written (out : List UInt8) (bits : BitVec 32) (n : ℕ) (small : bits.toNat < 2 ^ n) :
    Settled (drain out bits n) ∧ written (drain out bits n) = bytesBits out ++ bitsOf n bits.toNat := by
  fun_induction drain out bits n with
  | case1 out bits n full ih =>
    have shifted : (bits >>> 8).toNat = bits.toNat / 2 ^ 8 := by rw [BitVec.toNat_ushiftRight, Nat.shiftRight_eq_div_pow]
    have split : n = 8 + (n - 8) := by omega
    have less : (bits >>> 8).toNat < 2 ^ (n - 8) := by
      rw [shifted]
      apply Nat.div_lt_of_lt_mul
      rwa [← pow_add, ← split]
    obtain ⟨settled, same⟩ := ih less
    refine ⟨settled, ?_⟩
    rw [same, shifted, bytesBits_append, bytesBits_cons, bytesBits_nil, List.append_nil, toNat_lowByte, List.append_assoc,
      ← bitsOf_add, ← split]
  | case2 out bits n few => exact ⟨⟨not_le.mp few, small⟩, rfl⟩

theorem toNat_mask (v : BitVec 32) {n : ℕ} (few : n < 32) : (v &&& ((1#32 <<< n) - 1#32)).toNat = v.toNat % 2 ^ n := by
  have power : (1#32 <<< n).toNat = 2 ^ n := by
    have one : (1#32).toNat = 1 := rfl
    rw [BitVec.toNat_shiftLeft, one, Nat.shiftLeft_eq, Nat.one_mul]
    exact Nat.mod_eq_of_lt (Nat.pow_lt_pow_right (by decide) few)
  have ones : ((1#32 <<< n) - 1#32).toNat = 2 ^ n - 1 := by
    rw [BitVec.toNat_sub_of_le, power]
    · rfl
    · rw [BitVec.le_def, power]
      exact Nat.one_le_two_pow
  rw [BitVec.toNat_and, ones, Nat.and_two_pow_sub_one_eq_mod]

theorem toNat_or_above {a b : BitVec 32} {m n : ℕ} (smallA : a.toNat < 2 ^ m) (smallB : b.toNat < 2 ^ n)
    (room : m + n ≤ 32) : (a ||| (b <<< m)).toNat = a.toNat + 2 ^ m * b.toNat ∧
      a.toNat + 2 ^ m * b.toNat < 2 ^ (m + n) := by
  have less : a.toNat + 2 ^ m * b.toNat < 2 ^ (m + n) := by
    calc a.toNat + 2 ^ m * b.toNat < 2 ^ m + 2 ^ m * b.toNat := by omega
      _ = 2 ^ m * (b.toNat + 1) := by ring
      _ ≤ 2 ^ m * 2 ^ n := Nat.mul_le_mul_left _ smallB
      _ = 2 ^ (m + n) := (pow_add 2 m n).symm
  refine ⟨?_, less⟩
  have fits : 2 ^ m * b.toNat < 2 ^ 32 :=
    lt_of_lt_of_le (by omega) (Nat.pow_le_pow_right (by decide) room)
  rw [BitVec.toNat_or, BitVec.toNat_shiftLeft, Nat.shiftLeft_eq, Nat.mul_comm, Nat.mod_eq_of_lt fits, Nat.or_comm,
    Nat.mul_comm, ← Nat.shiftLeft_eq, ← Nat.shiftLeft_add_eq_or_of_lt smallA, Nat.add_comm]

theorem put_written {w : BitWriter} (settled : Settled w) (v : BitVec 32) {n : ℕ} (few : n ≤ 16) :
    Settled (w.put v n) ∧ written (w.put v n) = written w ++ bitsOf n v.toNat := by
  have less := settled.few
  have masked := toNat_mask v (n := n) (by omega)
  obtain ⟨same, small⟩ := toNat_or_above settled.small (b := v &&& ((1#32 <<< n) - 1#32)) (n := n)
    (by rw [masked]; exact Nat.mod_lt _ (Nat.two_pow_pos n)) (by omega)
  obtain ⟨after, drained⟩ := drain_written w.out _ (w.n + n) (same ▸ small)
  refine ⟨after, ?_⟩
  rw [BitWriter.put, drained, same, masked, bitsOf_join settled.small, bitsOf_mod, written, List.append_assoc]

private theorem reversed_getLsbD (code : BitVec 32) {n : ℕ} (few : n ≤ 32) (k : ℕ) (within : k ≤ n) (j : ℕ) :
    ((List.range k).foldl (fun rev i => rev ||| (((code >>> (n - 1 - i)) &&& 1#32) <<< i)) 0#32).getLsbD j =
      (decide (j < k) && code.getLsbD (n - 1 - j)) := by
  induction k with
  | zero => simp
  | succ k ih =>
    rw [List.range_succ, List.foldl_append]
    simp only [List.foldl_cons, List.foldl_nil, BitVec.getLsbD_or, ih (by omega), BitVec.getLsbD_shiftLeft,
      BitVec.getLsbD_and, BitVec.getLsbD_ushiftRight, BitVec.getLsbD_one]
    rcases lt_trichotomy j k with before | rfl | after
    · simp [before, Nat.lt_succ_of_lt before]
    · have small : j < 32 := by omega
      simp [small]
    · have notBefore : ¬j < k := by omega
      have notNow : ¬j < k + 1 := by omega
      have high : j - k ≠ 0 := by omega
      simp [notBefore, notNow, high]

theorem putCode_written {w : BitWriter} (settled : Settled w) (code : BitVec 32) {n : ℕ} (few : n ≤ 16) :
    Settled (w.putCode code n) ∧ written (w.putCode code n) = written w ++ (bitsOf n code.toNat).reverse := by
  obtain ⟨after, same⟩ := put_written settled
    ((List.range n).foldl (fun rev i => rev ||| (((code >>> (n - 1 - i)) &&& 1#32) <<< i)) 0#32) few
  refine ⟨after, ?_⟩
  rw [BitWriter.putCode, same, bitsOf_eq_map, reverse_bitsOf]
  congr 1
  apply List.map_congr_left
  intro i inside
  have small : i < n := List.mem_range.mp inside
  have bit := reversed_getLsbD code (n := n) (by omega) n (le_refl n) i
  rw [BitVec.getLsbD, decide_eq_true small, Bool.true_and] at bit
  exact bit

theorem flush_written {w : BitWriter} (settled : Settled w) : ∃ pad, bytesBits w.flush.out = written w ++ pad := by
  rw [BitWriter.flush]
  split
  · refine ⟨bitsOf (8 - w.n) (w.bits.toNat / 2 ^ w.n), ?_⟩
    have few := settled.few
    have split : 8 = w.n + (8 - w.n) := by omega
    rw [bytesBits_append, bytesBits_cons, bytesBits_nil, List.append_nil, toNat_lowByte, written, List.append_assoc,
      ← bitsOf_add, ← split]
  · next none =>
    refine ⟨[], ?_⟩
    have zero : w.n = 0 := by omega
    rw [written, zero, bitsOf, List.append_nil, List.append_nil]

/-- The bits that wait, and the bytes not yet taken in. -/
def unread (br : BitReader) : List Bool := bitsOf br.has br.buf.toNat ++ bytesBits (br.data.drop br.pos)

/-- Less than a byte waits, and nothing else. -/
structure Primed (br : BitReader) : Prop where
  few : br.has < 8
  small : br.buf.toNat < 2 ^ br.has

theorem primed_new (data : List UInt8) : Primed (.new data) :=
  ⟨by simp [BitReader.new], by simp [BitReader.new]⟩

@[simp] theorem unread_new (data : List UInt8) : unread (.new data) = bytesBits data := rfl

/-- A reading function takes certain bits off the front and makes of them a
    result. -/
def Takes {α : Type} (f : BitReader → Except InflateError (α × BitReader)) (bs : List Bool) (a : α) : Prop :=
  ∀ br rest, Primed br → unread br = bs ++ rest → ∃ br', f br = .ok (a, br') ∧ Primed br' ∧ unread br' = rest

theorem fill_unread {br : BitReader} {n : ℕ} (few : n ≤ 16) (small : br.buf.toNat < 2 ^ br.has)
    (enough : n ≤ (unread br).length) : ∃ br', br.fill n = .ok br' ∧ br'.buf.toNat < 2 ^ br'.has ∧ n ≤ br'.has ∧
      br'.has < max (br.has + 1) (n + 8) ∧ unread br' = unread br := by
  fun_induction BitReader.fill br n with
  | case1 br short ended =>
    rw [List.getElem?_eq_none_iff] at ended
    rw [unread, List.drop_eq_nil_of_le ended] at enough
    simp only [bytesBits_nil, List.append_nil, length_bitsOf] at enough
    omega
  | case2 br short b found ih =>
    obtain ⟨inside, rfl⟩ := List.getElem?_eq_some_iff.mp found
    have byte : (br.data[br.pos].toBitVec.setWidth 32).toNat = br.data[br.pos].toNat := by
      rw [BitVec.toNat_setWidth]
      exact Nat.mod_eq_of_lt (lt_of_lt_of_le (UInt8.toNat_lt _) (by decide))
    obtain ⟨joined, less⟩ := toNat_or_above small (b := br.data[br.pos].toBitVec.setWidth 32) (n := 8)
      (by rw [byte]; exact UInt8.toNat_lt _) (by omega)
    have same : unread ⟨br.data, br.pos + 1, br.buf ||| (br.data[br.pos].toBitVec.setWidth 32 <<< br.has), br.has + 8⟩ =
        unread br := by
      rw [unread, unread, joined, bitsOf_join small, byte, List.drop_eq_getElem_cons inside, bytesBits_cons,
        List.append_assoc]
    obtain ⟨br', filled, small', enough', bound, rest⟩ := ih (by rw [joined]; exact less) (by rw [same]; exact enough)
    refine ⟨br', filled, small', enough', ?_, rest.trans same⟩
    simp only at bound
    omega
  | case3 br full => exact ⟨br, rfl, small, by omega, by omega, rfl⟩

theorem bits_unread {br : BitReader} {rest : List Bool} (bs : List Bool) (few : bs.length ≤ 16)
    (small : br.buf.toNat < 2 ^ br.has) (split : unread br = bs ++ rest) :
    ∃ br', br.bits bs.length = .ok (BitVec.ofNat 32 (value bs), br') ∧ br'.buf.toNat < 2 ^ br'.has ∧
      br'.has + bs.length < max (br.has + 1) (bs.length + 8) ∧ unread br' = rest := by
  obtain ⟨br1, filled, small, enough, bound, same⟩ := fill_unread few small
    (by rw [split, List.length_append]; omega)
  have shifted : (br1.buf >>> bs.length).toNat = br1.buf.toNat / 2 ^ bs.length := by
    rw [BitVec.toNat_ushiftRight, Nat.shiftRight_eq_div_pow]
  -- the bits that wait begin with those asked for
  have front : bitsOf bs.length br1.buf.toNat ++
      (bitsOf (br1.has - bs.length) (br1.buf.toNat / 2 ^ bs.length) ++ bytesBits (br1.data.drop br1.pos)) = bs ++ rest := by
    rw [← split, ← same, unread, ← List.append_assoc, ← bitsOf_add, Nat.add_sub_cancel' enough]
  obtain ⟨taken, left⟩ := List.append_inj front (length_bitsOf _ _)
  refine ⟨⟨br1.data, br1.pos, br1.buf >>> bs.length, br1.has - bs.length⟩, ?_, ?_, ?_, ?_⟩
  · simp only [BitReader.bits, filled, bind_ok_iff, pure_ok_iff]
    refine ⟨br1, rfl, ?_⟩
    have notWhole : bs.length ≠ 32 := by omega
    rw [if_neg notWhole]
    congr 1
    apply BitVec.eq_of_toNat_eq
    rw [toNat_mask _ (by omega), BitVec.toNat_ofNat, ← value_bitsOf, taken]
    exact (Nat.mod_eq_of_lt (lt_of_lt_of_le (value_lt bs) (Nat.pow_le_pow_right (by decide) (by omega)))).symm
  · show (br1.buf >>> bs.length).toNat < 2 ^ (br1.has - bs.length)
    rw [shifted]
    apply Nat.div_lt_of_lt_mul
    rwa [← pow_add, Nat.add_sub_cancel' enough]
  · show br1.has - bs.length + bs.length < _
    omega
  · rw [unread, shifted]
    exact left

theorem takes_bits (bs : List Bool) (few : bs.length ≤ 16) :
    Takes (fun br => br.bits bs.length) bs (BitVec.ofNat 32 (value bs)) := by
  intro br rest primed split
  obtain ⟨br', read, small, bound, left⟩ := bits_unread bs few primed.small split
  have := primed.few
  exact ⟨br', read, ⟨by omega, small⟩, left⟩

end E5r.DeflateBits
