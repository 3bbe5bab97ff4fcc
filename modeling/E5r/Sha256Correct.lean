import E5r.Sha256Model
import Mathlib.Tactic.Ring

/-!
The digest of a message is the one the standard defines, for every message whose length
in bits is a 64-bit number.
-/
namespace E5r.Sha256Correct
open BitStream SecureHash Sha256Model

theorem primes_eq : primes =
    [2, 3, 5, 7, 11, 13, 17, 19, 23, 29, 31, 37, 41, 43, 47, 53, 59, 61, 67, 71, 73, 79, 83, 89, 97, 101, 103, 107,
      109, 113, 127, 131, 137, 139, 149, 151, 157, 163, 167, 173, 179, 181, 191, 193, 197, 199, 211, 223, 227, 229,
      233, 239, 241, 251, 257, 263, 269, 271, 277, 281, 283, 293, 307, 311] := by decide +kernel

theorem rootBits_eq {degree n : ℕ} (q : ℕ) {w : Word} (some : 0 < degree)
    (below : (q * 2 ^ 32 + w.toNat) ^ degree ≤ n * 2 ^ (32 * degree))
    (above : n * 2 ^ (32 * degree) < (q * 2 ^ 32 + w.toNat + 1) ^ degree) : rootBits degree n = w := by
  have greatest : Nat.findGreatest (fun r => r ^ degree ≤ n * 2 ^ (32 * degree)) (n * 2 ^ (32 * degree)) =
      q * 2 ^ 32 + w.toNat := by
    rw [Nat.findGreatest_eq_iff]
    refine ⟨(Nat.le_self_pow some.ne' _).trans below, fun _ => below, ?_⟩
    intro s more _
    exact not_le.mpr (above.trans_le (Nat.pow_le_pow_left more degree))
  rw [rootBits, greatest]
  apply BitVec.eq_of_toNat_eq
  rw [BitVec.toNat_ofNat, Nat.add_comm, Nat.add_mul_mod_self_right, Nat.mod_eq_of_lt w.isLt]

theorem roundConstant_eq {t : ℕ} (small : t < 64) : roundConstant t = K.getD t 0 := by
  have roots : ∀ t < 64, ∃ q < 7, (q * 2 ^ 32 + (K.getD t 0).toNat) ^ 3 ≤ primes.getD t 0 * 2 ^ 96 ∧
      primes.getD t 0 * 2 ^ 96 < (q * 2 ^ 32 + (K.getD t 0).toNat + 1) ^ 3 := by
    rw [primes_eq]
    decide +kernel
  obtain ⟨q, -, below, above⟩ := roots t small
  exact rootBits_eq q (by decide) below above

theorem initial_eq : initial = h := by
  rw [initial, primes_eq, h]
  simp only [List.getD_cons_zero, List.getD_cons_succ, Words.mk.injEq]
  exact ⟨rootBits_eq 1 (by decide) (by decide) (by decide), rootBits_eq 1 (by decide) (by decide) (by decide),
    rootBits_eq 2 (by decide) (by decide) (by decide), rootBits_eq 2 (by decide) (by decide) (by decide),
    rootBits_eq 3 (by decide) (by decide) (by decide), rootBits_eq 3 (by decide) (by decide) (by decide),
    rootBits_eq 4 (by decide) (by decide) (by decide), rootBits_eq 4 (by decide) (by decide) (by decide)⟩

@[simp] theorem length_bits (n v : ℕ) : (bits n v).length = n := by simp [bits]

theorem octets_append (xs ys : List UInt8) : octets (xs ++ ys) = octets xs ++ octets ys := List.flatMap_append

@[simp] theorem length_octets (bytes : List UInt8) : (octets bytes).length = 8 * bytes.length := by
  induction bytes with
  | nil => rfl
  | cons b bytes ih =>
    rw [octets, List.flatMap_cons, List.length_append, length_bits, ← octets, ih, List.length_cons]
    ring

theorem octets_drop (bytes : List UInt8) (n : ℕ) : octets (bytes.drop n) = (octets bytes).drop (8 * n) := by
  by_cases inside : n ≤ bytes.length
  · have first : (octets (bytes.take n)).length = 8 * n := by
      rw [length_octets, List.length_take, Nat.min_eq_left inside]
    conv_rhs => rw [← List.take_append_drop n bytes, octets_append]
    rw [List.drop_append_of_le_length first.ge, ← first, List.drop_length, List.nil_append]
  · rw [List.drop_of_length_le (by omega), List.drop_of_length_le (by rw [length_octets]; omega)]
    rfl

theorem octets_take (bytes : List UInt8) (n : ℕ) : octets (bytes.take n) = (octets bytes).take (8 * n) := by
  by_cases inside : n ≤ bytes.length
  · have first : (octets (bytes.take n)).length = 8 * n := by
      rw [length_octets, List.length_take, Nat.min_eq_left inside]
    conv_rhs => rw [← List.take_append_drop n bytes, octets_append]
    rw [← first, List.take_left]
  · rw [List.take_of_length_le (by omega), List.take_of_length_le (by rw [length_octets]; omega)]

theorem value_append (xs ys : List Bool) : value (xs ++ ys) = value xs + 2 ^ xs.length * value ys := by
  induction xs with
  | nil => simp [value]
  | cons x xs ih =>
    rw [List.cons_append, value, value, ih, List.length_cons, pow_succ]
    ring

theorem fromBeBytes_eq (bytes : List UInt8) : fromBeBytes bytes = word (octets bytes) := by
  rw [fromBeBytes, word]
  congr 1
  induction bytes using List.reverseRecOn with
  | nil => rfl
  | append_singleton bytes b ih =>
    have last : (octets [b]).reverse = bitsOf 8 b.toNat := by simp [octets, bits]
    rw [List.foldl_append, ih, octets_append, List.reverse_append, last, value_append, value_bitsOf, length_bitsOf,
      Nat.mod_eq_of_lt b.toNat_lt]
    exact Nat.add_comm ..

/-- A number is written as its bits. -/
theorem octets_toBeBytes (n v : ℕ) : octets (toBeBytes n v) = bits (8 * n) v := by
  induction n with
  | zero => rfl
  | succ n ih =>
    have first : bits 8 (UInt8.ofNat (v / 256 ^ n)).toNat = (bitsOf 8 (v / 2 ^ (8 * n))).reverse := by
      rw [bits, UInt8.toNat_ofNat', bitsOf_mod, Nat.pow_mul]
    rw [toBeBytes, octets, List.flatMap_cons, first, ← octets, ih, bits, bits, Nat.mul_succ, bitsOf_add,
      List.reverse_append]

theorem fill_eq (msg : List UInt8) : fill msg = msg ++ List.replicate ((120 - msg.length % 64) % 64) 0 := by
  fun_induction fill msg with
  | case1 msg more ih =>
    have one : (120 - msg.length % 64) % 64 = (120 - (msg ++ [0]).length % 64) % 64 + 1 := by
      rw [List.length_append, List.length_singleton]
      omega
    rw [ih, one, List.replicate_succ, List.append_assoc]
    rfl
  | case2 msg done =>
    have none : (120 - msg.length % 64) % 64 = 0 := by omega
    rw [none, List.replicate_zero, List.append_nil]

theorem zeros_eq (n : ℕ) : zeros (8 * n) = 7 + 8 * ((120 - (n + 1) % 64) % 64) := by
  rw [zeros, Nat.find_eq_iff]
  constructor
  · omega
  · intro k fewer
    omega

theorem octets_zeros (n : ℕ) : octets (List.replicate n 0) = List.replicate (8 * n) false := by
  induction n with
  | zero => rfl
  | succ n ih =>
    rw [List.replicate_succ, octets, List.flatMap_cons, ← octets, ih, Nat.mul_succ, Nat.add_comm,
      List.replicate_add]
    rfl

theorem padded_eq {data : List UInt8} (short : data.length < 2 ^ 61) : octets (padded data) = pad (octets data) := by
  have first : octets [0x80] = true :: List.replicate 7 false := by decide
  have length : data.length % 2 ^ 64 * 8 % 2 ^ 64 = 8 * data.length := by omega
  rw [padded, length, fill_eq, octets_append, octets_append, octets_append, octets_zeros, octets_toBeBytes, first, pad,
    length_octets, zeros_eq, List.length_append, List.length_singleton, List.replicate_add]
  simp

theorem length_padded (data : List UInt8) : (padded data).length % 64 = 0 := by
  have eight (v : ℕ) : (toBeBytes 8 v).length = 8 := rfl
  rw [padded, fill_eq]
  simp only [List.length_append, List.length_singleton, List.length_replicate, eight]
  omega

theorem set_words (parts : List (List UInt8)) : ∀ (k : ℕ) (w : List Word), k + parts.length ≤ w.length →
    (parts.zipIdx k).foldl (fun w p => w.set p.2 (fromBeBytes p.1)) w =
      w.take k ++ parts.map fromBeBytes ++ w.drop (k + parts.length) := by
  induction parts with
  | nil =>
    intro k w _
    simp
  | cons part parts ih =>
    intro k w room
    rw [List.length_cons] at room
    rw [List.zipIdx_cons, List.foldl_cons, ih (k + 1) _ (by rw [List.length_set]; omega)]
    have front : (w.set k (fromBeBytes part)).take (k + 1) = w.take k ++ [fromBeBytes part] := by
      rw [List.take_add_one, List.take_set_of_le (le_refl k), List.getElem?_set_self (by omega)]
      rfl
    rw [front, List.drop_set_of_lt (by omega), List.map_cons, List.length_cons]
    simp [Nat.add_assoc, Nat.add_comm 1]

theorem load_eq {block : List UInt8} (whole : block.length = 64) :
    load block = (chunksExact 4 block).map fromBeBytes ++ List.replicate 48 0 := by
  have count : (chunksExact 4 block).length = 16 := by rw [chunksExact, List.length_map, List.length_range, whole]
  rw [load, set_words _ 0 _ (by rw [count, List.length_replicate]; decide), count]
  rfl

theorem load_word {block : List UInt8} (whole : block.length = 64) {t : ℕ} (small : t < 16) :
    (load block).getD t 0 = blockWord (octets block) 0 t := by
  have count : (chunksExact 4 block).length = 16 := by rw [chunksExact, List.length_map, List.length_range, whole]
  have part : (chunksExact 4 block)[t]? = some ((block.drop (4 * t)).take 4) := by
    rw [chunksExact, List.getElem?_map, List.getElem?_range (by omega)]
    rfl
  rw [load_eq whole, List.getD_eq_getElem?_getD,
    List.getElem?_append_left (by rw [List.length_map, count]; exact small), List.getElem?_map, part, Option.map_some,
    Option.getD_some, fromBeBytes_eq, octets_take, octets_drop, blockWord]
  congr 3
  omega

variable {block : List UInt8} {M : ℕ → Word}

theorem expand_words (whole : block.length = 64) (parsed : ∀ t < 16, (load block).getD t 0 = M t) (n : ℕ)
    (few : n ≤ 48) : ((List.range' 16 n).foldl extend (load block)).length = 64 ∧
      ∀ t < 16 + n, ((List.range' 16 n).foldl extend (load block)).getD t 0 = schedule M t := by
  induction n with
  | zero =>
    constructor
    · rw [load_eq whole]
      simp [chunksExact, whole]
    · intro t small
      rw [schedule, if_pos small]
      exact parsed t small
  | succ n ih =>
    obtain ⟨length, words⟩ := ih (by omega)
    rw [List.range'_1_concat, List.foldl_append, List.foldl_cons, List.foldl_nil]
    generalize (List.range' 16 n).foldl extend (load block) = w at length words
    rw [extend]
    dsimp only
    refine ⟨by rw [List.length_set, length], ?_⟩
    intro t small
    rw [List.getD_eq_getElem?_getD, List.getElem?_set]
    split
    · next last =>
      subst last
      conv_rhs => rw [schedule, if_neg (by omega), sigma0, sigma1]
      rw [if_pos (by omega), Option.getD_some, words (16 + n - 16) (by omega), words (16 + n - 15) (by omega),
        words (16 + n - 7) (by omega), words (16 + n - 2) (by omega)]
      ac_rfl
    · rw [← List.getD_eq_getElem?_getD]
      exact words t (by omega)

theorem turn_eq (w : List Word) (v : Words) (i : ℕ) : turn w v i = round (K.getD i 0) (w.getD i 0) v := rfl

/-- A block is compressed as the standard says. -/
theorem step_eq (whole : block.length = 64) (parsed : ∀ t < 16, (load block).getD t 0 = M t) (v : Words) :
    step v block = compress v M := by
  obtain ⟨-, words⟩ := expand_words whole parsed 48 (le_refl 48)
  have turns (n : ℕ) (few : n ≤ 64) : (List.range n).foldl (turn (expand block)) v = rounds (schedule M) v n := by
    induction n with
    | zero => rfl
    | succ n ih =>
      rw [List.range_succ, List.foldl_append, ih (by omega), rounds, roundConstant_eq few, ← words n few]
      exact turn_eq ..
  rw [step, turns 64 (le_refl 64), compress, Words.add]
  simp only [BitVec.add_comm]

/-- The hash value after some blocks. -/
theorem chain_eq (msg : List UInt8) (n : ℕ) (few : n ≤ msg.length / 64) :
    ((List.range n).map fun i => (msg.drop (64 * i)).take 64).foldl step h = chain (octets msg) n := by
  induction n with
  | zero => exact initial_eq.symm
  | succ n ih =>
    have whole : ((msg.drop (64 * n)).take 64).length = 64 := by
      rw [List.length_take, List.length_drop]
      omega
    rw [List.range_succ, List.map_append, List.foldl_append, ih (by omega), chain]
    apply step_eq whole
    intro t small
    have within : min 32 (8 * 64 - (512 * 0 + 32 * t)) = 32 := by omega
    have place : 8 * (64 * n) + (512 * 0 + 32 * t) = 512 * n + 32 * t := by omega
    rw [load_word whole small, blockWord, blockWord, octets_take, octets_drop, List.drop_take, List.take_take, within,
      List.drop_drop, place]

/-- What the digest of a message is: the padding is the one of the standard, it ends on
    a block and with the length in bits, every block is compressed as the standard says,
    and the digest is the standard's. -/
structure Standard (data : List UInt8) : Prop where
  padding : octets (padded data) = pad (octets data)
  boundary : (padded data).length % 64 = 0
  bitLength : octets ((padded data).drop ((padded data).length - 8)) = bits 64 (8 * data.length)
  compression : ∀ v block, block.length = 64 → step v block = compress v (blockWord (octets block) 0)
  digest : octets (digest data) = sha256 (octets data)

theorem digest_standard (data : List UInt8) (short : data.length < 2 ^ 61) : Standard data where
  padding := padded_eq short
  boundary := length_padded data
  bitLength := by
    have length : data.length % 2 ^ 64 * 8 % 2 ^ 64 = 8 * data.length := by omega
    rw [padded, List.length_append, show (toBeBytes 8 _).length = 8 from rfl, Nat.add_sub_cancel, List.drop_left,
      octets_toBeBytes, length]
  compression v block whole := step_eq whole (fun _ small => load_word whole small) v
  digest := by
    have blocks : (pad (octets data)).length / 512 = (padded data).length / 64 := by
      rw [← padded_eq short, length_octets]
      omega
    rw [sha256, blocks, ← padded_eq short, ← chain_eq _ _ (le_refl _), Sha256Model.digest, chunksExact, octets,
      List.flatMap_assoc]
    apply List.flatMap_congr
    intro x _
    exact octets_toBeBytes 4 x.toNat

theorem digest_standard_abc : Standard [0x61, 0x62, 0x63] := digest_standard [0x61, 0x62, 0x63] (by decide)

/-- No two messages are hashed as the same blocks. -/
theorem padded_injective {a b : List UInt8} (shortA : a.length < 2 ^ 61) (shortB : b.length < 2 ^ 61)
    (same : padded a = padded b) : a = b := by
  rw [padded, padded, fill_eq, fill_eq] at same
  obtain ⟨fronts, backs⟩ := List.append_inj' same rfl
  have counts := congrArg (fun bytes => value (octets bytes).reverse) backs
  simp only [octets_toBeBytes, bits, List.reverse_reverse, value_bitsOf] at counts
  have sizes : a.length = b.length := by omega
  rw [List.append_assoc, List.append_assoc] at fronts
  exact (List.append_inj fronts sizes).1

theorem padded_injective_one : padded [0x61] ≠ padded [0x62] := fun same =>
  absurd (padded_injective (by decide) (by decide) same) (by decide)

end E5r.Sha256Correct
