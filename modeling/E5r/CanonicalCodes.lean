import Mathlib.Data.List.GetD
import E5r.BitStream

/-!
Canonical prefix codes. A list gives each symbol the length of its code, or zero where
it has none; the codes of one length are consecutive numbers in the order of the
symbols, and the shorter codes come first. Reading bits until the number read is one of
a code's length finds the symbol whose code they are (`codeBits_reads`, `symbol_of_bits`).
-/
namespace E5r.CanonicalCodes
open BitStream

variable {lens : List ℕ}

def codes (lens : List ℕ) (n : ℕ) : ℕ := if n = 0 then 0 else lens.count n

/-- How many numbers of `n` bits begin with a code. -/
def taken (lens : List ℕ) : ℕ → ℕ
  | 0 => 0
  | n + 1 => 2 * taken lens n + codes lens (n + 1)

/-- The first code of a length, behind all that begin with a shorter one. -/
def first (lens : List ℕ) : ℕ → ℕ
  | 0 => 0
  | n + 1 => 2 * taken lens n

def shorter (lens : List ℕ) : ℕ → ℕ
  | 0 => 0
  | n + 1 => shorter lens n + codes lens n

def lengthOf (lens : List ℕ) (sym : ℕ) : ℕ := lens.getD sym 0

/-- How many symbols before it have codes of the same length. -/
def rank (lens : List ℕ) (sym : ℕ) : ℕ := (lens.take sym).count (lengthOf lens sym)

def codeOf (lens : List ℕ) (sym : ℕ) : ℕ := first lens (lengthOf lens sym) + rank lens sym

def codeBits (lens : List ℕ) (sym : ℕ) : List Bool := (bitsOf (lengthOf lens sym) (codeOf lens sym)).reverse

/-- The numbers of `n` bits that begin with a code, counted code by code. -/
def weight (n : ℕ) (lens : List ℕ) : ℕ := (lens.map fun l => if l = 0 ∨ n < l then 0 else 2 ^ (n - l)).sum

/-- There are more codes than numbers. -/
def OverSubscribed (longest : ℕ) (lens : List ℕ) : Prop := 2 ^ longest < weight longest lens

theorem taken_eq (lens : List ℕ) (n : ℕ) : taken lens n = first lens n + codes lens n := by
  cases n <;> rfl

theorem codes_cons (l : ℕ) (lens : List ℕ) (n : ℕ) : codes (l :: lens) n = codes lens n + if l = n ∧ n ≠ 0 then 1 else 0 := by
  unfold codes
  rw [List.count_cons]
  by_cases zero : n = 0
  · simp [zero]
  · simp [zero]

theorem weight_eq (n : ℕ) (lens : List ℕ) : weight n lens = taken lens n := by
  induction lens with
  | nil =>
    have none_ (n : ℕ) : taken [] n = 0 := by
      induction n with
      | zero => rfl
      | succ n ih =>
        rw [taken, ih]
        rfl
    rw [none_]
    rfl
  | cons l lens ih =>
    have one (n : ℕ) : taken (l :: lens) n = taken lens n + if l = 0 ∨ n < l then 0 else 2 ^ (n - l) := by
      induction n with
      | zero =>
        have all : l = 0 ∨ 0 < l := by omega
        rw [if_pos all]
        rfl
      | succ n ih =>
        rw [taken, taken, ih, codes_cons]
        by_cases zero : l = 0
        · simp [zero]
        · by_cases last : l = n + 1
          · subst last
            simp
            ring
          · by_cases above : n + 1 < l
            · have past : n < l := by omega
              simp [zero, last, above, past]
            · have below : ¬ n < l := by omega
              have more : n + 1 - l = n - l + 1 := by omega
              simp only [zero, above, below, last, more, false_and, or_self, if_false, pow_succ]
              ring
    rw [one, ← ih, weight, weight, List.map_cons, List.sum_cons, Nat.add_comm]

theorem taken_mono {m n : ℕ} (le : m ≤ n) : taken lens m * 2 ^ (n - m) ≤ taken lens n := by
  induction n, le using Nat.le_induction with
  | base => simp
  | succ n le ih =>
    rw [taken, Nat.succ_sub le, pow_succ]
    calc taken lens m * (2 ^ (n - m) * 2) = 2 * (taken lens m * 2 ^ (n - m)) := by ring
      _ ≤ 2 * taken lens n + codes lens (n + 1) := by omega

/-- Where the longest codes have room, so have all. -/
theorem taken_le {longest n : ℕ} (room : taken lens longest ≤ 2 ^ longest) (le : n ≤ longest) : taken lens n ≤ 2 ^ n := by
  have mono : taken lens n * 2 ^ (longest - n) ≤ 2 ^ n * 2 ^ (longest - n) := by
    rw [← pow_add, Nat.add_sub_cancel' le]
    exact (taken_mono le).trans room
  exact Nat.le_of_mul_le_mul_right mono (Nat.two_pow_pos _)

theorem shorter_mono {m n : ℕ} (le : m ≤ n) : shorter lens m ≤ shorter lens n := by
  induction n, le using Nat.le_induction with
  | base => exact le_rfl
  | succ n _ ih => exact ih.trans (Nat.le_add_right _ _)

theorem shorter_le (lens : List ℕ) (n : ℕ) : shorter lens n ≤ lens.length := by
  have counted : shorter lens n = (lens.filter fun l => decide (l ≠ 0 ∧ l < n)).length := by
    induction lens with
    | nil =>
      induction n with
      | zero => rfl
      | succ n ih =>
        rw [shorter, ih]
        unfold codes
        split <;> rfl
    | cons l lens ih =>
      have one (n : ℕ) : shorter (l :: lens) n = shorter lens n + if l ≠ 0 ∧ l < n then 1 else 0 := by
        induction n with
        | zero => simp [shorter]
        | succ n ih =>
          rw [shorter, shorter, ih, codes_cons]
          split <;> split <;> split <;> omega
      rw [one, ih, List.filter_cons]
      by_cases inside : l ≠ 0 ∧ l < n
      · rw [if_pos inside, if_pos (decide_eq_true inside), List.length_cons]
      · rw [if_neg inside, if_neg (by rw [decide_eq_true_eq]; exact inside)]
        rfl
  rw [counted]
  exact List.length_filter_le _ _

theorem rank_lt {sym : ℕ} (within : sym < lens.length) : rank lens sym < lens.count (lengthOf lens sym) := by
  have split := List.take_append_drop sym lens
  have here : lens.drop sym = lengthOf lens sym :: lens.drop (sym + 1) := by
    rw [lengthOf, List.getD_eq_getElem _ _ within]
    exact List.drop_eq_getElem_cons within
  calc rank lens sym < (lens.take sym).count (lengthOf lens sym) + (lens.drop sym).count (lengthOf lens sym) := by
        rw [here, List.count_cons_self]
        unfold rank
        omega
    _ = lens.count (lengthOf lens sym) := by rw [← List.count_append, split]

theorem exists_rank {n : ℕ} (lens : List ℕ) : ∀ {r : ℕ}, r < lens.count n →
    ∃ sym < lens.length, lengthOf lens sym = n ∧ rank lens sym = r := by
  induction lens with
  | nil => exact fun below => nomatch below
  | cons l lens ih =>
    intro r below
    rw [List.count_cons] at below
    by_cases same : l = n
    · subst same
      cases r with
      | zero => exact ⟨0, Nat.zero_lt_succ _, rfl, rfl⟩
      | succ r =>
        obtain ⟨sym, within, length, ranked⟩ := @ih r (by simp at below; omega)
        refine ⟨sym + 1, Nat.succ_lt_succ within, length, ?_⟩
        unfold rank at ranked ⊢
        have here : lengthOf (l :: lens) (sym + 1) = lengthOf lens sym := rfl
        rw [here, List.take_succ_cons, List.count_cons, ranked, length]
        simp
    · obtain ⟨sym, within, length, ranked⟩ := @ih r (by simpa [same] using below)
      refine ⟨sym + 1, Nat.succ_lt_succ within, length, ?_⟩
      unfold rank at ranked ⊢
      have here : lengthOf (l :: lens) (sym + 1) = lengthOf lens sym := rfl
      rw [here, List.take_succ_cons, List.count_cons, ranked, length]
      simp [same]

theorem rank_injective {s t : ℕ} (less : s < t) (within : t < lens.length) (same : lengthOf lens s = lengthOf lens t) :
    rank lens s < rank lens t := by
  have inside : s < (lens.take t).length := by rw [List.length_take]; omega
  have before : lengthOf (lens.take t) s = lengthOf lens s := by
    rw [lengthOf, lengthOf, List.getD_eq_getElem _ _ inside, List.getD_eq_getElem _ _ (by omega), List.getElem_take]
  have := rank_lt inside
  unfold rank at this ⊢
  rw [before, List.take_take, Nat.min_eq_left (by omega)] at this
  rwa [← same]

/-- The place of a symbol among all that have codes, in the order of the codes. -/
def slot (lens : List ℕ) (sym : ℕ) : ℕ := shorter lens (lengthOf lens sym) + rank lens sym

theorem slot_lt {sym : ℕ} (within : sym < lens.length) (coded : lengthOf lens sym ≠ 0) :
    slot lens sym < shorter lens (lengthOf lens sym + 1) := by
  have := rank_lt within
  rw [shorter, codes, if_neg coded]
  unfold slot
  omega

theorem slot_lt_length {sym : ℕ} (within : sym < lens.length) (coded : lengthOf lens sym ≠ 0) :
    slot lens sym < lens.length :=
  (slot_lt within coded).trans_le (shorter_le lens _)

theorem slot_injective {s t : ℕ} (withinS : s < lens.length) (withinT : t < lens.length) (codedS : lengthOf lens s ≠ 0)
    (codedT : lengthOf lens t ≠ 0) (same : slot lens s = slot lens t) : s = t := by
  have belowS := slot_lt withinS codedS
  have belowT := slot_lt withinT codedT
  rcases Nat.lt_trichotomy (lengthOf lens s) (lengthOf lens t) with less | equal | more
  · have above : shorter lens (lengthOf lens s + 1) ≤ shorter lens (lengthOf lens t) := shorter_mono less
    have from_ : shorter lens (lengthOf lens t) ≤ slot lens t := Nat.le_add_right _ _
    omega
  · have ranks : rank lens s = rank lens t := by
      unfold slot at same
      rw [equal] at same
      omega
    rcases Nat.lt_trichotomy s t with before | is | after
    · have := rank_injective before withinT equal
      omega
    · exact is
    · have := rank_injective after withinS equal.symm
      omega
  · have above : shorter lens (lengthOf lens t + 1) ≤ shorter lens (lengthOf lens s) := shorter_mono more
    have from_ : shorter lens (lengthOf lens s) ≤ slot lens s := Nat.le_add_right _ _
    omega

def number (bs : List Bool) : ℕ := value bs.reverse

theorem number_lt (bs : List Bool) : number bs < 2 ^ bs.length := by
  have := value_lt bs.reverse
  rwa [List.length_reverse] at this

theorem codeOf_lt {longest sym : ℕ} (room : taken lens longest ≤ 2 ^ longest) (short : ∀ l ∈ lens, l ≤ longest)
    (within : sym < lens.length) (coded : lengthOf lens sym ≠ 0) : codeOf lens sym < 2 ^ lengthOf lens sym := by
  have member : lengthOf lens sym ∈ lens := by
    rw [lengthOf, List.getD_eq_getElem _ _ within]
    exact List.getElem_mem within
  have fits := taken_le room (short _ member)
  have below := rank_lt within
  rw [taken_eq, codes, if_neg coded] at fits
  unfold codeOf
  omega

@[simp] theorem length_codeBits (lens : List ℕ) (sym : ℕ) : (codeBits lens sym).length = lengthOf lens sym := by
  rw [codeBits, List.length_reverse, length_bitsOf]

theorem number_codeBits {longest sym : ℕ} (room : taken lens longest ≤ 2 ^ longest) (short : ∀ l ∈ lens, l ≤ longest)
    (within : sym < lens.length) (coded : lengthOf lens sym ≠ 0) : number (codeBits lens sym) = codeOf lens sym := by
  rw [number, codeBits, List.reverse_reverse, value_bitsOf]
  exact Nat.mod_eq_of_lt (codeOf_lt room short within coded)

theorem eq_codeBits {bs : List Bool} {sym : ℕ} (length : bs.length = lengthOf lens sym) (is : number bs = codeOf lens sym) :
    bs = codeBits lens sym := by
  rw [codeBits, ← is, ← length, number]
  have := bitsOf_value bs.reverse
  rw [List.length_reverse] at this
  rw [this, List.reverse_reverse]

theorem number_append (a b : List Bool) : number (a ++ b) = number a * 2 ^ b.length + number b := by
  induction b using List.reverseRecOn with
  | nil => simp [number, value]
  | append_singleton b x ih =>
    rw [← List.append_assoc]
    have last (l : List Bool) : number (l ++ [x]) = 2 * number l + x.toNat := by
      rw [number, List.reverse_append, List.reverse_singleton, List.singleton_append, value, number, Nat.add_comm]
    rw [last, last, ih, List.length_append, List.length_singleton, pow_succ]
    ring

theorem number_concat (done : List Bool) (b : Bool) : number (done ++ [b]) = 2 * number done + b.toNat := by
  rw [number_append, List.length_singleton, pow_one, Nat.mul_comm]
  congr 1

theorem codeBits_reads {longest sym n : ℕ} (room : taken lens longest ≤ 2 ^ longest) (short : ∀ l ∈ lens, l ≤ longest)
    (within : sym < lens.length) (less : n < lengthOf lens sym) :
    taken lens n ≤ number ((codeBits lens sym).take n) := by
  have coded : lengthOf lens sym ≠ 0 := by omega
  have whole := number_append ((codeBits lens sym).take n) ((codeBits lens sym).drop n)
  rw [List.take_append_drop, number_codeBits room short within coded, List.length_drop, length_codeBits] at whole
  have rest := number_lt ((codeBits lens sym).drop n)
  rw [List.length_drop, length_codeBits] at rest
  have above : taken lens n * 2 ^ (lengthOf lens sym - n) ≤ codeOf lens sym := by
    unfold codeOf
    obtain ⟨before, is⟩ := Nat.exists_eq_succ_of_ne_zero coded
    rw [is] at less ⊢
    have mono := @taken_mono lens n before (by omega)
    have more : before.succ - n = before - n + 1 := by omega
    rw [first, more, pow_succ]
    calc taken lens n * (2 ^ (before - n) * 2) = 2 * (taken lens n * 2 ^ (before - n)) := by ring
      _ ≤ _ := by omega
  by_contra fewer
  have step : (number ((codeBits lens sym).take n) + 1) * 2 ^ (lengthOf lens sym - n) ≤
      taken lens n * 2 ^ (lengthOf lens sym - n) := Nat.mul_le_mul_right _ (by omega)
  rw [Nat.add_mul, Nat.one_mul] at step
  omega

theorem symbol_of_bits {bs : List Bool} (some_ : bs ≠ []) (from_ : first lens bs.length ≤ number bs)
    (below : number bs < taken lens bs.length) : ∃ sym < lens.length, lengthOf lens sym = bs.length ∧
      slot lens sym = shorter lens bs.length + (number bs - first lens bs.length) ∧ bs = codeBits lens sym := by
  have long : bs.length ≠ 0 := fun none_ => some_ (List.length_eq_zero_iff.mp none_)
  rw [taken_eq, codes, if_neg long] at below
  obtain ⟨sym, within, length, ranked⟩ := @exists_rank bs.length lens (number bs - first lens bs.length) (by omega)
  refine ⟨sym, within, length, ?_, eq_codeBits length.symm ?_⟩
  · rw [slot, length, ranked]
  · rw [codeOf, length, ranked]
    omega

end E5r.CanonicalCodes
