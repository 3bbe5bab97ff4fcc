import E5r.Chunks
import E5r.Numerals
import Mathlib.Data.Nat.Digits.Lemmas

/-!
A file packed as the decimals of its 64-byte little-endian words, and the reader
that takes the bytes out of the words again.
-/
namespace E5r.RamWords
open Chunks

/-- A group of at most four bytes, the last one most significant. -/
def limb (c : List UInt8) : UInt32 := c.reverse.foldl (fun a b => a <<< 8 ||| b.toUInt32) 0

/-- The base-2^32 limbs of little-endian bytes, the most significant first. -/
def limbs (le : List UInt8) : List UInt32 := (chunks 4 le).reverse.map limb

/-- One pass of the division of limbs by 10^9: the quotient and the remainder. -/
def divide : List UInt32 → UInt64 → List UInt32 × UInt64
  | [], rem => ([], rem)
  | l :: ls, rem =>
    let cur := rem <<< 32 ||| l.toUInt64
    let rest := divide ls (cur % 1000000000)
    ((cur / 1000000000).toUInt32 :: rest.1, rest.2)

def value (ls : List UInt32) : ℕ := Nat.ofDigits (2 ^ 32) (ls.reverse.map UInt32.toNat)

theorem value_cons (l : UInt32) (ls : List UInt32) : value (l :: ls) = l.toNat * 2 ^ (32 * ls.length) + value ls := by
  rw [value, value, List.reverse_cons, List.map_append, Nat.ofDigits_append, List.length_map, List.length_reverse,
    ← Nat.pow_mul, List.map_singleton, Nat.ofDigits_singleton]
  ring

theorem divide_spec (ls : List UInt32) : ∀ {rem : UInt64}, rem.toNat < 1000000000 →
    (divide ls rem).2.toNat < 1000000000 ∧ (divide ls rem).1.length = ls.length ∧
      rem.toNat * 2 ^ (32 * ls.length) + value ls =
        1000000000 * value (divide ls rem).1 + (divide ls rem).2.toNat := by
  induction ls with
  | nil =>
    intro rem small
    refine ⟨small, rfl, ?_⟩
    simp [divide, value]
  | cons l ls ih =>
    intro rem small
    have low : l.toNat < 2 ^ 32 := l.toNat_lt
    have cur : (rem <<< 32 ||| l.toUInt64).toNat = rem.toNat * 2 ^ 32 + l.toNat := by
      have shifted : (rem <<< 32).toNat = rem.toNat * 2 ^ 32 := by
        rw [UInt64.toNat_shiftLeft]
        show rem.toNat <<< 32 % 2 ^ 64 = _
        rw [Nat.shiftLeft_eq, Nat.mod_eq_of_lt (by omega)]
      rw [UInt64.toNat_or, shifted, UInt32.toNat_toUInt64, Nat.mul_comm, Nat.two_pow_add_eq_or_of_lt low]
    simp only [divide]
    generalize rem <<< 32 ||| l.toUInt64 = c at cur
    have billion : (1000000000 : UInt64).toNat = 1000000000 := rfl
    have modulus : (c % 1000000000).toNat = c.toNat % 1000000000 := by rw [UInt64.toNat_mod, billion]
    have quotient : (c / 1000000000).toUInt32.toNat = c.toNat / 1000000000 := by
      rw [UInt64.toNat_toUInt32, UInt64.toNat_div, billion]
      apply Nat.mod_eq_of_lt
      omega
    obtain ⟨below, length, sum⟩ := ih (by rw [modulus]; exact Nat.mod_lt _ (by decide))
    refine ⟨below, by rw [List.length_cons, length, List.length_cons], ?_⟩
    rw [value_cons, value_cons, length, quotient, List.length_cons]
    rw [modulus] at sum
    have split := Nat.div_add_mod c.toNat 1000000000
    have power : 2 ^ (32 * (ls.length + 1)) = 2 ^ 32 * 2 ^ (32 * ls.length) := by
      rw [Nat.mul_succ, Nat.pow_add, Nat.mul_comm]
    calc rem.toNat * 2 ^ (32 * (ls.length + 1)) + (l.toNat * 2 ^ (32 * ls.length) + value ls)
        = c.toNat * 2 ^ (32 * ls.length) + value ls := by
          rw [cur, power]
          ring
      _ = (1000000000 * (c.toNat / 1000000000) + c.toNat % 1000000000) * 2 ^ (32 * ls.length) + value ls := by
          rw [split]
      _ = 1000000000 * (c.toNat / 1000000000 * 2 ^ (32 * ls.length)) +
            (c.toNat % 1000000000 * 2 ^ (32 * ls.length) + value ls) := by ring
      _ = 1000000000 * (c.toNat / 1000000000 * 2 ^ (32 * ls.length) + value (divide ls (c % 1000000000)).1) +
            (divide ls (c % 1000000000)).2.toNat := by
          rw [sum]
          ring

theorem value_pos {ls : List UInt32} (some : ls.any (· != 0) = true) : 0 < value ls := by
  induction ls with
  | nil => cases some
  | cons l ls ih =>
    rw [value_cons]
    rw [List.any_cons, Bool.or_eq_true] at some
    rcases some with first | rest
    · have positive : 0 < l.toNat := by
        rw [Nat.pos_iff_ne_zero]
        intro zero
        have : l = 0 := UInt32.toNat_inj.mp zero
        simp [this] at first
      have := Nat.mul_pos positive (Nat.two_pow_pos (32 * ls.length))
      omega
    · have := ih rest
      omega

theorem value_zero {ls : List UInt32} (none : ¬ls.any (· != 0) = true) : value ls = 0 := by
  induction ls with
  | nil => rfl
  | cons l ls ih =>
    rw [List.any_cons, Bool.or_eq_true, not_or] at none
    have zero : l = 0 := by simpa using none.1
    rw [value_cons, ih none.2, zero]
    simp

theorem value_divide (ls : List UInt32) :
    value ls = 1000000000 * value (divide ls 0).1 + (divide ls 0).2.toNat ∧ (divide ls 0).2.toNat < 1000000000 := by
  obtain ⟨below, -, sum⟩ := @divide_spec ls 0 (by decide)
  refine ⟨?_, below⟩
  rw [← sum]
  simp

/-- The groups of nine decimal digits of limbs, the least significant first. -/
def groups (ls : List UInt32) : List UInt32 :=
  if ls.any (· != 0) then (divide ls 0).2.toUInt32 :: groups (divide ls 0).1 else []
termination_by value ls
decreasing_by
  have positive := value_pos ‹_›
  obtain ⟨sum, -⟩ := value_divide ls
  omega

def nineDigits (g : UInt32) : List Char := (Nat.toDigits 10 g.toNat).leftpad 9 '0'

def leDecimal (le : List UInt8) : String :=
  match (groups (limbs le)).reverse with
  | [] => "0"
  | top :: rest => String.ofList (Nat.toDigits 10 top.toNat ++ rest.flatMap nineDigits)

def pack (elf : List UInt8) : List String := (chunks 64 elf).map leDecimal

structure File where
  len : ℕ
  words : List ℕ

def File.byte (f : File) (i : ℕ) : ℕ :=
  if i < f.len then f.words.getD (i / 64) 0 / 256 ^ (i % 64) % 256 else 0

def exported (elf : List UInt8) : File := ⟨elf.length, (pack elf).map fun w => Nat.ofDigitChars 10 w.toList 0⟩

def leValue (le : List UInt8) : ℕ := Nat.ofDigits 256 (le.map UInt8.toNat)

theorem leValue_append (xs ys : List UInt8) : leValue (xs ++ ys) = leValue xs + 256 ^ xs.length * leValue ys := by
  rw [leValue, leValue, leValue, List.map_append, Nat.ofDigits_append, List.length_map]

theorem leValue_lt (le : List UInt8) : leValue le < 256 ^ le.length := by
  have digits : ∀ x ∈ le.map UInt8.toNat, x < 256 := by
    intro x member
    obtain ⟨b, -, rfl⟩ := List.mem_map.mp member
    exact b.toNat_lt
  have below := Nat.ofDigits_lt_base_pow_length (by decide) digits
  rwa [List.length_map] at below

theorem limb_value {c : List UInt8} (short : c.length ≤ 4) : (limb c).toNat = leValue c := by
  induction c with
  | nil => rfl
  | cons b c ih =>
    have few : c.length ≤ 3 := by
      rw [List.length_cons] at short
      omega
    have rest := ih (by omega)
    have below : leValue c < 2 ^ 24 := by
      have limit : 256 ^ c.length ≤ 256 ^ 3 := Nat.pow_le_pow_right (by decide) few
      have := leValue_lt c
      omega
    have low : b.toNat < 2 ^ 8 := b.toNat_lt
    rw [limb, List.reverse_cons, List.foldl_append, ← limb]
    simp only [List.foldl_cons, List.foldl_nil]
    have shifted : (limb c <<< 8).toNat = 2 ^ 8 * leValue c := by
      rw [UInt32.toNat_shiftLeft]
      show (limb c).toNat <<< 8 % 2 ^ 32 = _
      rw [Nat.shiftLeft_eq, rest, Nat.mod_eq_of_lt (by omega), Nat.mul_comm]
    rw [UInt32.toNat_or, shifted, UInt8.toNat_toUInt32, ← Nat.two_pow_add_eq_or_of_lt low]
    simp only [leValue, List.map_cons, Nat.ofDigits_cons]
    omega

theorem limbs_value (le : List UInt8) : value (limbs le) = leValue le := by
  induction length : le.length using Nat.strongRecOn generalizing le with
  | ind n ih =>
    by_cases empty : le = []
    · subst empty
      rfl
    · have positive := List.length_pos_of_ne_nil empty
      have rest := ih (le.drop 4).length (by rw [List.length_drop]; omega) (le.drop 4) rfl
      have cut : limbs le = limbs (le.drop 4) ++ [limb (le.take 4)] := by
        rw [limbs, chunks_step (by decide) empty, List.reverse_cons, List.map_append, ← limbs]
        rfl
      have first := limb_value (List.length_take_le 4 le)
      have whole : value (limbs le) = (limb (le.take 4)).toNat + 2 ^ 32 * value (limbs (le.drop 4)) := by
        rw [cut, value, List.reverse_append, List.reverse_singleton, List.map_append, Nat.ofDigits_append]
        simp [value]
      rw [whole, first, rest]
      conv_rhs => rw [← List.take_append_drop 4 le]
      rw [leValue_append]
      by_cases long : 4 ≤ le.length
      · rw [List.length_take_of_le long]
        norm_num
      · rw [List.drop_eq_nil_of_le (by omega)]
        simp [leValue]

theorem groups_spec (ls : List UInt32) :
    Nat.ofDigits 1000000000 ((groups ls).map UInt32.toNat) = value ls ∧
      (∀ g ∈ groups ls, g.toNat < 1000000000) ∧ (groups ls).getLast? ≠ some 0 := by
  induction number : value ls using Nat.strongRecOn generalizing ls with
  | ind n ih =>
    rw [groups]
    by_cases nonzero : ls.any (· != 0) = true
    · obtain ⟨sum, below⟩ := value_divide ls
      have positive := value_pos nonzero
      obtain ⟨rest, small, last⟩ := ih (value (divide ls 0).1) (by omega) _ rfl
      have group : (divide ls 0).2.toUInt32.toNat = (divide ls 0).2.toNat := by
        rw [UInt64.toNat_toUInt32]
        exact Nat.mod_eq_of_lt (by omega)
      rw [if_pos nonzero]
      refine ⟨?_, ?_, ?_⟩
      · rw [List.map_cons, Nat.ofDigits_cons, rest, group]
        omega
      · intro g member
        rcases List.mem_cons.mp member with rfl | later
        · rw [group]
          exact below
        · exact small g later
      · cases more : groups (divide ls 0).1 with
        | nil =>
          rw [more] at rest
          have top : (divide ls 0).2.toNat ≠ 0 := by
            simp only [List.map_nil, Nat.ofDigits_nil] at rest
            omega
          rw [List.getLast?_singleton]
          intro zero
          rw [Option.some_inj.mp zero] at group
          exact top group.symm
        | cons g gs =>
          rw [more] at last
          rw [List.getLast?_cons_cons]
          exact last
    · rw [if_neg nonzero]
      have zero := value_zero nonzero
      exact ⟨by rw [← number, zero]; rfl, by simp, by simp⟩

private theorem groups_decimal (rest : List UInt32) : ∀ {q : ℕ}, 0 < q → (∀ g ∈ rest, g.toNat < 1000000000) →
    Nat.toDigits 10 (rest.foldl (fun v g => g.toNat + 1000000000 * v) q) = Nat.toDigits 10 q ++ rest.flatMap nineDigits := by
  induction rest with
  | nil =>
    intro q _ _
    simp
  | cons g rest ih =>
    intro q positive small
    have first := small g (List.mem_cons_self ..)
    have group := Numerals.toDigits_group (k := 9) (by decide) positive (r := g.toNat) (by omega)
    have number : g.toNat + 1000000000 * q = 10 ^ 9 * q + g.toNat := by omega
    rw [List.foldl_cons, ih (by omega) (fun g' member => small g' (List.mem_cons_of_mem _ member)), List.flatMap_cons,
      number, group, List.append_assoc]
    rfl

theorem leDecimal_eq (le : List UInt8) : leDecimal le = (leValue le).repr := by
  obtain ⟨sum, small, last⟩ := groups_spec (limbs le)
  rw [limbs_value] at sum
  rw [leDecimal]
  cases order : (groups (limbs le)).reverse with
  | nil =>
    rw [List.reverse_eq_nil_iff.mp order] at sum
    rw [← sum]
    rfl
  | cons top rest =>
    have reversed : groups (limbs le) = (top :: rest).reverse := by rw [← order, List.reverse_reverse]
    rw [reversed] at sum small last
    have positive : 0 < top.toNat := by
      rw [Nat.pos_iff_ne_zero]
      intro zero
      have : top = 0 := UInt32.toNat_inj.mp zero
      simp [this] at last
    have folded : rest.foldl (fun v g => g.toNat + 1000000000 * v) top.toNat = leValue le := by
      rw [← sum, Nat.ofDigits_eq_foldr, List.foldr_map, List.foldr_reverse, List.foldl_cons]
      simp
    have decimal := groups_decimal rest positive (fun g member => small g (by simp [member]))
    rw [folded] at decimal
    rw [Nat.repr_eq_ofList_toDigits, decimal]

/-- A decimal as it is written: digits, and no zero before them. -/
structure Canonical (w : String) : Prop where
  some : w.toList ≠ []
  digits : ∀ c ∈ w.toList, c.isDigit = true
  leading : w.toList.head? = Option.some '0' → w = "0"

theorem canonical_repr (n : ℕ) : Canonical n.repr := by
  refine ⟨?_, ?_, ?_⟩
  · rw [Nat.toList_repr]
    exact Nat.toDigits_ne_nil
  · intro c member
    rw [Nat.toList_repr] at member
    exact Nat.isDigit_of_mem_toDigits (by decide) (by decide) member
  · intro zero
    rw [Nat.toList_repr] at zero
    rcases Nat.eq_zero_or_pos n with rfl | positive
    · rfl
    · exact absurd zero (Numerals.toDigits_head positive)

theorem leValue_byte {le : List UInt8} {i : ℕ} {b : UInt8} (at_ : le[i]? = some b) :
    leValue le / 256 ^ i % 256 = b.toNat := by
  induction le generalizing i with
  | nil => cases at_
  | cons c le ih =>
    have low : c.toNat < 256 := c.toNat_lt
    have whole : leValue (c :: le) = c.toNat + 256 * leValue le := by
      rw [leValue, List.map_cons, Nat.ofDigits_cons, ← leValue]
    rw [whole]
    cases i with
    | zero =>
      rw [List.getElem?_cons_zero, Option.some_inj] at at_
      rw [← at_]
      omega
    | succ i =>
      rw [List.getElem?_cons_succ] at at_
      have next : (c.toNat + 256 * leValue le) / 256 = leValue le := by omega
      rw [Nat.pow_succ', ← Nat.div_div_eq_div_mul, next]
      exact ih at_

/-- The words of a packed file are the canonical decimals of its 64-byte
    little-endian chunks, and reading them gives the file back. -/
theorem pack_correct (elf : List UInt8) :
    pack elf = (chunks 64 elf).map (fun c => (leValue c).repr) ∧ (∀ w ∈ pack elf, Canonical w) ∧
      (List.range (exported elf).len).map (exported elf).byte = elf.map UInt8.toNat := by
  have words : pack elf = (chunks 64 elf).map (fun c => (leValue c).repr) := by
    rw [pack]
    apply List.map_congr_left
    intro c _
    exact leDecimal_eq c
  refine ⟨words, ?_, ?_⟩
  · intro w member
    rw [words] at member
    obtain ⟨c, -, rfl⟩ := List.mem_map.mp member
    exact canonical_repr _
  · apply List.ext_getElem?
    intro i
    rw [List.getElem?_map, List.getElem?_map]
    by_cases inside : i < elf.length
    · obtain ⟨c, chunk, member⟩ := chunks_get (n := 64) (by decide) inside
      have byte : elf[i]? = some elf[i] := List.getElem?_eq_getElem inside
      rw [byte] at member
      have number : (exported elf).words[i / 64]? = some (leValue c) := by
        rw [exported, words, List.map_map, List.getElem?_map, chunk]
        simp
      have range : (List.range (exported elf).len)[i]? = some i := List.getElem?_range inside
      have within : i < (exported elf).len := inside
      rw [range, Option.map_some, File.byte, if_pos within, List.getD_eq_getElem?_getD, number,
        Option.getD_some, leValue_byte member, byte]
      rfl
    · have outside : (List.range (exported elf).len)[i]? = none :=
        List.getElem?_eq_none (by rw [List.length_range]; exact Nat.le_of_not_lt inside)
      rw [outside, List.getElem?_eq_none (Nat.le_of_not_lt inside)]
      rfl

end E5r.RamWords
