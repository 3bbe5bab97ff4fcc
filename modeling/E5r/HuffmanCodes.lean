import E5r.CanonicalCodes
import E5r.DeflateBits

/-!
Huffman tables decode the canonical prefix code of their lengths. The decoder never
builds a code: it counts how far the bits read are past the first code of each length.
A table is refused exactly when a length is above fifteen or the codes are more than
there are numbers (`huffman_canonical`).
-/
namespace E5r.HuffmanCodes
open BitStream Inflate Fallible DeflateBits CanonicalCodes

def numbers (lengths : List UInt8) : List ℕ := lengths.map UInt8.toNat

/-- The bits that wait are in the buffer, and no others. -/
def Held (br : BitReader) : Prop := br.buf.toNat < 2 ^ br.has

theorem bit_held {br : BitReader} {b : Bool} {rest : List Bool} (held : Held br) (split : unread br = b :: rest) :
    ∃ br', br.bits 1 = .ok (BitVec.ofNat 32 b.toNat, br') ∧ Held br' ∧ unread br' = rest := by
  obtain ⟨br', read, small, -, left⟩ := bits_unread [b] (by simp) held split
  have same : value [b] = b.toNat := by cases b <;> rfl
  rw [same] at read
  exact ⟨br', read, small, left⟩

theorem bit_unread {br br' : BitReader} {v : BitVec 32} (held : Held br) (read : br.bits 1 = .ok (v, br')) :
    ∃ b, v = BitVec.ofNat 32 b.toNat ∧ Held br' ∧ unread br = b :: unread br' := by
  cases split : unread br with
  | nil =>
    have left := BitReader.bits_left read
    have none_ : br.left = (unread br).length := by
      rw [unread, List.length_append, length_bitsOf, length_bytesBits, List.length_drop, BitReader.left]
      omega
    rw [split, List.length_nil] at none_
    omega
  | cons b rest =>
    obtain ⟨br1, again, small, left⟩ := bit_held held split
    rw [again] at read
    cases read
    exact ⟨b, rfl, small, by rw [left]⟩

theorem bit_primed {br br' : BitReader} {v : BitVec 32} (primed : Primed br) (read : br.bits 1 = .ok (v, br')) :
    Primed br' := by
  obtain ⟨b, -, -, split⟩ := bit_unread primed.small read
  obtain ⟨br1, again, primed1, -⟩ := takes_bits [b] (by simp) br (unread br') primed split
  obtain ⟨-, rfl⟩ := Prod.mk.inj (Except.ok.inj (read.symm.trans again))
  exact primed1

theorem decodeFrom_primed {symbols counts : List ℕ} {code first index sym : ℕ} {br br' : BitReader} (primed : Primed br)
    (ran : Huffman.decodeFrom symbols br code first index counts = .ok (sym, br')) : Primed br' := by
  induction counts generalizing code first index br with
  | nil => cases ran
  | cons count rest ih =>
    simp only [Huffman.decodeFrom, bind_ok_iff, Prod.exists] at ran
    obtain ⟨v, br1, read, ran⟩ := ran
    have primed1 := bit_primed primed read
    split at ran
    · split at ran
      · cases ran
        exact primed1
      · cases ran
    · exact ih primed1 ran

def Placed (lens symbols : List ℕ) : Prop :=
  ∀ sym < lens.length, lengthOf lens sym ≠ 0 → symbols[slot lens sym]? = some sym

theorem decodeFrom_turn {symbols : List ℕ} {lens : List ℕ} {n k : ℕ} {br br1 : BitReader} {done : List Bool} {b : Bool}
    (read : br.bits 1 = .ok (BitVec.ofNat 32 b.toNat, br1)) (from_ : first lens (n + 1) ≤ number (done ++ [b])) :
    Huffman.decodeFrom symbols br (2 * number done) (first lens (n + 1)) (shorter lens (n + 1))
      ((List.range' (n + 1) (k + 1)).map (codes lens)) =
    if number (done ++ [b]) < taken lens (n + 1) then
      match symbols[shorter lens (n + 1) + (number (done ++ [b]) - first lens (n + 1))]? with
      | some sym => .ok (sym, br1)
      | none => .error .badHuffmanCode
    else Huffman.decodeFrom symbols br1 (2 * number (done ++ [b])) (first lens (n + 2)) (shorter lens (n + 2))
      ((List.range' (n + 2) k).map (codes lens)) := by
  have bit : (BitVec.ofNat 32 b.toNat).toNat = b.toNat := by cases b <;> rfl
  have joined : 2 * number done ||| b.toNat = number (done ++ [b]) := by
    rw [number_concat, ← pow_one 2, Nat.two_pow_add_eq_or_of_lt (Bool.toNat_lt b)]
  rw [List.range'_succ, List.map_cons, Huffman.decodeFrom, read]
  show (if ((2 * number done ||| (BitVec.ofNat 32 b.toNat).toNat : ℕ) : ℤ) - _ < _ then _ else _) = _
  rw [bit, joined]
  by_cases ends : number (done ++ [b]) < taken lens (n + 1)
  · have low : ((number (done ++ [b]) : ℕ) : ℤ) - (first lens (n + 1) : ℕ) < (codes lens (n + 1) : ℕ) := by
      rw [taken_eq] at ends
      omega
    rw [if_pos ends, if_pos low]
    have natural : ¬ ((shorter lens (n + 1) : ℕ) : ℤ) + ((number (done ++ [b]) : ℕ) - (first lens (n + 1) : ℕ)) < 0 := by omega
    have place : (((shorter lens (n + 1) : ℕ) : ℤ) + ((number (done ++ [b]) : ℕ) - (first lens (n + 1) : ℕ))).toNat =
        shorter lens (n + 1) + (number (done ++ [b]) - first lens (n + 1)) := by omega
    rw [if_neg natural, place]
    rfl
  · have high : ¬ ((number (done ++ [b]) : ℕ) : ℤ) - (first lens (n + 1) : ℕ) < (codes lens (n + 1) : ℕ) := by
      rw [taken_eq] at ends
      omega
    have double (x : ℕ) : x <<< 1 = 2 * x := by rw [Nat.shiftLeft_eq, pow_one, Nat.mul_comm]
    have next : first lens (n + 2) = 2 * taken lens (n + 1) := rfl
    rw [if_neg ends, if_neg high, double, double, next, taken_eq]
    rfl

section
variable {lens symbols : List ℕ} {longest : ℕ} (room : taken lens longest ≤ 2 ^ longest)
  (short : ∀ l ∈ lens, l ≤ longest) (placed : Placed lens symbols)
include room short placed

theorem decodeFrom_finds {sym : ℕ} (within : sym < lens.length) (coded : lengthOf lens sym ≠ 0) (k : ℕ) :
    ∀ {n : ℕ} {br : BitReader} {done ahead rest : List Bool}, n + k = longest → done.length = n → Held br →
      codeBits lens sym = done ++ ahead → ahead ≠ [] → unread br = ahead ++ rest →
      ∃ br', Huffman.decodeFrom symbols br (2 * number done) (first lens (n + 1)) (shorter lens (n + 1))
        ((List.range' (n + 1) k).map (codes lens)) = .ok (sym, br') ∧ Held br' ∧ unread br' = rest := by
  have member : lengthOf lens sym ∈ lens := by
    rw [lengthOf, List.getD_eq_getElem _ _ within]
    exact List.getElem_mem within
  have most := short _ member
  induction k with
  | zero =>
    intro n br done ahead rest all length held spells some_ split
    have whole := congrArg List.length spells
    have positive := List.length_pos_iff.mpr some_
    rw [length_codeBits, List.length_append] at whole
    omega
  | succ k ih =>
    intro n br done ahead rest all length held spells some_ split
    obtain ⟨b, ahead, rfl⟩ := List.exists_cons_of_ne_nil some_
    obtain ⟨br1, read, held1, left⟩ := bit_held held split
    have whole := congrArg List.length spells
    rw [length_codeBits, List.length_append, List.length_cons] at whole
    have concat : codeBits lens sym = (done ++ [b]) ++ ahead := by rw [spells, List.append_assoc, List.singleton_append]
    by_cases last : ahead = []
    · subst last
      rw [List.append_nil] at concat
      have is : number (done ++ [b]) = first lens (n + 1) + rank lens sym := by
        have same : lengthOf lens sym = n + 1 := by rw [whole, length]; rfl
        rw [← concat, number_codeBits room short within coded, codeOf, same]
      have same : lengthOf lens sym = n + 1 := by rw [whole, length]; rfl
      have below := rank_lt within
      have ends : number (done ++ [b]) < taken lens (n + 1) := by
        rw [is, taken_eq, CanonicalCodes.codes, if_neg (Nat.succ_ne_zero n), ← same]
        omega
      have place : shorter lens (n + 1) + (number (done ++ [b]) - first lens (n + 1)) = slot lens sym := by
        rw [is, slot, same]
        omega
      rw [decodeFrom_turn read (by omega), if_pos ends, place, placed sym within coded]
      exact ⟨br1, rfl, held1, left⟩
    · have positive := List.length_pos_iff.mpr last
      have past := codeBits_reads room short within (show n + 1 < lengthOf lens sym by omega)
      have front : (codeBits lens sym).take (n + 1) = done ++ [b] := by
        rw [concat]
        exact List.take_left' (by rw [List.length_append, length]; rfl)
      rw [front] at past
      have from_ : first lens (n + 1) ≤ number (done ++ [b]) := by
        rw [taken_eq] at past
        omega
      rw [decodeFrom_turn read from_, if_neg (by omega)]
      exact ih (by omega) (by rw [List.length_append, length]; rfl) held1 concat last left

theorem decodeFrom_sound (k : ℕ) : ∀ {n sym : ℕ} {br br' : BitReader} {done : List Bool}, done.length = n → Held br →
    taken lens n ≤ number done →
    Huffman.decodeFrom symbols br (2 * number done) (first lens (n + 1)) (shorter lens (n + 1))
      ((List.range' (n + 1) k).map (codes lens)) = .ok (sym, br') →
    ∃ code, sym < lens.length ∧ lengthOf lens sym ≠ 0 ∧ codeBits lens sym = done ++ code ∧ Held br' ∧
      unread br = code ++ unread br' := by
  induction k with
  | zero =>
    intro n sym br br' done length held past ran
    cases ran
  | succ k ih =>
    intro n sym br br' done length held past ran
    have taken1 : ∃ v br1, br.bits 1 = .ok (v, br1) := by
      rw [List.range'_succ, List.map_cons, Huffman.decodeFrom] at ran
      obtain ⟨⟨v, br1⟩, read, -⟩ := bind_ok_iff.mp ran
      exact ⟨v, br1, read⟩
    obtain ⟨v, br1, read⟩ := taken1
    obtain ⟨b, rfl, held1, split⟩ := bit_unread held read
    have from_ : first lens (n + 1) ≤ number (done ++ [b]) := by
      rw [number_concat, first]
      omega
    rw [decodeFrom_turn read from_] at ran
    have longer : (done ++ [b]).length = n + 1 := by rw [List.length_append, length]; rfl
    split at ran
    · next ends =>
      obtain ⟨t, within, same, place, spells⟩ := @symbol_of_bits lens (done ++ [b]) (by simp)
        (by rw [longer]; exact from_) (by rw [longer]; exact ends)
      rw [longer] at same place
      have coded : lengthOf lens t ≠ 0 := by omega
      rw [← place, placed t within coded] at ran
      cases ran
      exact ⟨[b], within, coded, spells.symm, held1, split⟩
    · next beyond =>
      obtain ⟨code, within, coded, spells, held', rest⟩ := ih longer held1 (by omega) ran
      exact ⟨b :: code, within, coded, by rw [spells, List.append_assoc, List.singleton_append], held',
        by rw [split, rest, List.cons_append]⟩
end

theorem length_numbers (lengths : List UInt8) : (numbers lengths).length = lengths.length := List.length_map ..

theorem numbers_le {lengths : List UInt8} (short : ∀ l ∈ lengths, l.toNat ≤ 15) : ∀ l ∈ numbers lengths, l ≤ 15 := by
  intro l member
  obtain ⟨b, inside, rfl⟩ := List.mem_map.mp member
  exact short b inside

/-- The symbols enter the places of their codes one after another. -/
theorem place_spec {lens : List ℕ} (few : lens.length < 2 ^ 16) (short : ∀ l ∈ lens, l ≤ 15) (rest : List UInt8) :
    ∀ {sym : ℕ} {offs symbols : List ℕ}, lens = lens.take sym ++ numbers rest → sym + rest.length = lens.length →
      symbols.length = lens.length → offs.length = 17 →
      (∀ l, l ≤ 15 → l ≠ 0 → offs.getD l 0 = shorter lens l + (lens.take sym).count l) →
      (∀ s < sym, lengthOf lens s ≠ 0 → symbols[slot lens s]? = some s) →
      ∃ out, place sym rest offs symbols = .ok out ∧ Placed lens out := by
  induction rest with
  | nil =>
    intro sym offs symbols _ all _ _ _ before
    rw [List.length_nil, Nat.add_zero] at all
    exact ⟨symbols, rfl, fun s within coded => before s (by omega) coded⟩
  | cons l rest ih =>
    intro sym offs symbols splits all size wide counts before
    rw [List.length_cons] at all
    have within : sym < lens.length := by omega
    have front : (lens.take sym).length = sym := by rw [List.length_take]; omega
    have here : lengthOf lens sym = l.toNat := by
      rw [lengthOf, splits, List.getD_append_right _ _ _ _ front.le, front, Nat.sub_self]
      rfl
    have next : lens.take (sym + 1) = lens.take sym ++ [l.toNat] := by
      rw [List.take_succ_eq_append_getElem within, ← here, lengthOf, List.getD_eq_getElem _ _ within]
    have splits' : lens = lens.take (sym + 1) ++ numbers rest := by
      rw [next, List.append_assoc]
      exact splits
    have most : l.toNat ≤ 15 := by
      refine short _ ?_
      rw [← here, lengthOf, List.getD_eq_getElem _ _ within]
      exact List.getElem_mem within
    rw [place]
    by_cases none_ : l = 0
    · rw [if_neg (not_not.mpr none_)]
      refine ih splits' (by omega) size wide (fun m le some_ => ?_) fun s below coded => ?_
      · have other : l.toNat ≠ m := by
          subst none_
          exact fun same => some_ same.symm
        rw [counts m le some_, next, List.count_append, List.count_singleton, if_neg (by simpa using other), Nat.add_zero]
      · have old : s ≠ sym := by
          rintro rfl
          rw [here, none_] at coded
          exact coded rfl
        exact before s (by omega) coded
    · rw [if_pos none_]
      have coded : lengthOf lens sym ≠ 0 := by
        rw [here]
        exact fun zero => none_ (UInt8.toNat_inj.mp zero)
      have positive : l.toNat ≠ 0 := by rwa [← here]
      have slot_ : offs.getD l.toNat 0 = slot lens sym := by
        rw [counts _ most positive, slot, rank, here]
      have inside := slot_lt_length within coded
      dsimp only
      rw [slot_, size, if_neg (by omega), Nat.mod_eq_of_lt (show slot lens sym + 1 < 2 ^ 16 by omega),
        Nat.mod_eq_of_lt (show sym < 2 ^ 16 by omega)]
      refine ih splits' (by omega) (by rw [List.length_set, size]) (by rw [List.length_set, wide]) (fun m le some_ => ?_)
        fun s below codedS => ?_
      · rw [next, List.count_append, List.count_singleton]
        by_cases same : m = l.toNat
        · subst same
          rw [List.getD_eq_getElem _ _ (by rw [List.length_set]; omega), List.getElem_set_self, slot, rank, here]
          simp [Nat.add_assoc]
        · have other : ¬ (l.toNat == m) = true := by simpa using fun is => same is.symm
          rw [if_neg other, ← Nat.add_assoc, ← counts m le some_]
          rw [List.getD_eq_getElem _ _ (by rw [List.length_set]; omega), List.getD_eq_getElem _ _ (by omega),
            List.getElem_set_ne (fun is => same is.symm)]
          exact (Nat.add_zero _).symm
      · by_cases old : s = sym
        · subst old
          rw [List.getElem?_set_self (by rw [size]; exact inside)]
        · have apart : slot lens sym ≠ slot lens s := fun same =>
            old (slot_injective within (by omega) coded codedS same).symm
          rw [List.getElem?_set_ne apart]
          exact before s (by omega) codedS

theorem count_numbers (lengths : List UInt8) {n : ℕ} (small : n < 256) :
    lengths.count (UInt8.ofNat n) = (numbers lengths).count n := by
  have back : (UInt8.ofNat n).toNat = n := UInt8.toNat_ofNat_of_lt small
  rw [numbers, ← back, List.count_map_of_injective _ _ fun a b same => UInt8.toNat_inj.mp same, back]

/-- How many codes there are of each length, from length one on. -/
def counted (lens : List ℕ) : List ℕ := (List.range' 1 15).map (CanonicalCodes.codes lens)

theorem counts_eq {lengths : List UInt8} (few : lengths.length < 2 ^ 16) :
    ((List.range (MAX_BITS + 1)).map (fun n => lengths.count (UInt8.ofNat n) % 2 ^ 16)).tail =
      counted (numbers lengths) := by
  have split : List.range (MAX_BITS + 1) = 0 :: List.range' 1 15 := rfl
  rw [split, List.map_cons, List.tail_cons, counted]
  refine List.map_congr_left fun n member => ?_
  have bounds := List.mem_range'_1.mp member
  have most : lengths.count (UInt8.ofNat n) ≤ lengths.length := List.count_le_length
  rw [Nat.mod_eq_of_lt (by omega), count_numbers lengths (by omega), CanonicalCodes.codes, if_neg (by omega)]

theorem subscribed_iff {lens : List ℕ} (k : ℕ) : ∀ {n : ℕ}, taken lens n ≤ 2 ^ n →
    (subscribed (2 ^ n - (taken lens n : ℕ)) ((List.range' (n + 1) k).map (CanonicalCodes.codes lens)) = true ↔
      taken lens (n + k) ≤ 2 ^ (n + k)) := by
  induction k with
  | zero => exact fun {n} room => ⟨fun _ => room, fun _ => rfl⟩
  | succ k ih =>
    intro n room
    have left : ((2 ^ n : ℤ) - (taken lens n : ℕ)) * 2 - (CanonicalCodes.codes lens (n + 1) : ℕ) =
        2 ^ (n + 1) - (taken lens (n + 1) : ℕ) := by
      rw [taken, pow_succ]
      push_cast
      ring
    have power : (2 ^ (n + 1) : ℤ) = ((2 ^ (n + 1) : ℕ) : ℤ) := by push_cast; rfl
    have more : n + (k + 1) = n + 1 + k := by omega
    rw [List.range'_succ, List.map_cons, subscribed, left, Bool.and_eq_true, decide_eq_true_eq, more]
    constructor
    · rintro ⟨fits, rest⟩
      exact (ih (by omega)).mp rest
    · intro room'
      have fits := taken_le room' (Nat.le_add_right (n + 1) k)
      exact ⟨by omega, (ih fits).mpr room'⟩

theorem scanl_shorter {lens : List ℕ} (few : lens.length < 2 ^ 16) (k : ℕ) : ∀ n : ℕ,
    ((List.range' n k).map (CanonicalCodes.codes lens)).scanl (fun a b => (a + b) % 2 ^ 16) (shorter lens n) =
      (List.range' n (k + 1)).map (shorter lens) := by
  induction k with
  | zero => exact fun n => rfl
  | succ k ih =>
    intro n
    have small := shorter_le lens (n + 1)
    have next : (shorter lens n + CanonicalCodes.codes lens n) % 2 ^ 16 = shorter lens (n + 1) := by
      rw [Nat.mod_eq_of_lt (by rw [shorter] at small; omega)]
      rfl
    rw [List.range'_succ, List.map_cons, List.scanl_cons, next, ih (n + 1)]
    rfl

/-- The tables that are built, and what they decode. -/
theorem new_spec {lengths : List UInt8} (few : lengths.length < 2 ^ 16) :
    (Huffman.new lengths = .error .badHuffmanTable ↔
      (∃ l ∈ lengths, 15 < l.toNat) ∨ OverSubscribed 15 (numbers lengths)) ∧
    (∀ e, Huffman.new lengths = .error e → e = .badHuffmanTable) ∧
    ∀ h, Huffman.new lengths = .ok h → (∀ l ∈ numbers lengths, l ≤ 15) ∧ taken (numbers lengths) 15 ≤ 2 ^ 15 ∧
      h.counts.tail = counted (numbers lengths) ∧ Placed (numbers lengths) h.symbols := by
  unfold Huffman.new
  by_cases long : ∃ l ∈ lengths, 15 < l.toNat
  · have refused : lengths.any (fun l => decide (l.toNat > MAX_BITS)) = true :=
      List.any_eq_true.mpr (long.imp fun l is => ⟨is.1, decide_eq_true is.2⟩)
    rw [if_pos refused]
    exact ⟨⟨fun _ => .inl long, fun _ => rfl⟩, fun e is => by cases is; rfl, fun h is => by cases is⟩
  · have short (l : UInt8) (member : l ∈ lengths) : l.toNat ≤ 15 := by
      by_contra above
      exact long ⟨l, member, by omega⟩
    have accepted : ¬ lengths.any (fun l => decide (l.toNat > MAX_BITS)) = true := fun refused => by
      obtain ⟨l, member, is⟩ := List.any_eq_true.mp refused
      exact long ⟨l, member, of_decide_eq_true is⟩
    have decides : subscribed 1 (counted (numbers lengths)) = true ↔ taken (numbers lengths) 15 ≤ 2 ^ 15 :=
      @subscribed_iff (numbers lengths) 15 0 (Nat.zero_le _)
    rw [if_neg accepted]
    dsimp only
    rw [counts_eq few]
    by_cases fits_ : taken (numbers lengths) 15 ≤ 2 ^ 15
    · have room : ¬ (!subscribed 1 (counted (numbers lengths))) = true := by
        rw [decides.mpr fits_]
        decide
      have fits : ¬ OverSubscribed 15 (numbers lengths) := by
        rw [OverSubscribed, weight_eq]
        omega
      have few' : (numbers lengths).length < 2 ^ 16 := by rwa [length_numbers]
      have offs : 0 :: (counted (numbers lengths)).scanl (fun a b => (a + b) % 2 ^ 16) 0 =
          0 :: (List.range' 1 16).map (shorter (numbers lengths)) := congrArg _ (scanl_shorter few' 15 1)
      obtain ⟨out, placed, at_⟩ := @place_spec (numbers lengths) few' (numbers_le short) lengths 0
        (0 :: (List.range' 1 16).map (shorter (numbers lengths))) (List.replicate lengths.length 0) rfl
        (by rw [length_numbers, Nat.zero_add]) (by rw [List.length_replicate, length_numbers]) (by simp)
        (fun l le some_ => by
          obtain ⟨m, rfl⟩ := Nat.exists_eq_succ_of_ne_zero some_
          rw [List.getD_cons_succ, List.getD_eq_getElem _ _ (by simp; omega), List.getElem_map, List.getElem_range']
          simp [Nat.add_comm])
        (fun s below => absurd below (Nat.not_lt_zero s))
      rw [if_neg room, offs, placed]
      refine ⟨⟨fun is => (nomatch is), fun refused => ?_⟩, fun e is => (nomatch is), fun h is => ?_⟩
      · rcases refused with above | fits_
        · exact absurd above long
        · exact absurd fits_ fits
      · obtain rfl := Except.ok.inj is
        exact ⟨numbers_le short, fits_, counts_eq few, at_⟩
    · have refused : (!subscribed 1 (counted (numbers lengths))) = true := by
        cases is : subscribed 1 (counted (numbers lengths)) with
        | true => exact absurd (decides.mp is) fits_
        | false => rfl
      rw [if_pos refused]
      refine ⟨⟨fun _ => .inr ?_, fun _ => rfl⟩, fun e is => by cases is; rfl, fun h is => by cases is⟩
      rw [OverSubscribed, weight_eq]
      omega

theorem decode_eq {lens : List ℕ} {h : Huffman} (counts : h.counts.tail = counted lens) (br : BitReader) :
    h.decode br = Huffman.decodeFrom h.symbols br (2 * number []) (first lens (0 + 1)) (shorter lens (0 + 1))
      ((List.range' (0 + 1) 15).map (CanonicalCodes.codes lens)) := by
  rw [Huffman.decode, counts]
  rfl

section
variable {lengths : List UInt8} (few : lengths.length < 2 ^ 16) {h : Huffman} (built : Huffman.new lengths = .ok h)
include few built

theorem decode_finds {br : BitReader} (held : Held br) {sym : ℕ} {rest : List Bool} (within : sym < lengths.length)
    (coded : lengthOf (numbers lengths) sym ≠ 0) (split : unread br = codeBits (numbers lengths) sym ++ rest) :
    ∃ br', h.decode br = .ok (sym, br') ∧ Held br' ∧ unread br' = rest := by
  obtain ⟨short, room, counts, placed⟩ := (new_spec few).2.2 h built
  have some_ : codeBits (numbers lengths) sym ≠ [] := by
    intro none_
    have := congrArg List.length none_
    rw [length_codeBits] at this
    exact coded this
  rw [decode_eq counts]
  exact decodeFrom_finds room short placed (by rwa [length_numbers]) coded 15 rfl rfl held rfl some_ split

theorem decode_takes {sym : ℕ} (within : sym < lengths.length) (coded : lengthOf (numbers lengths) sym ≠ 0) :
    Takes h.decode (codeBits (numbers lengths) sym) sym := by
  intro br rest primed split
  obtain ⟨br', found, -, left⟩ := decode_finds few built primed.small within coded split
  exact ⟨br', found, decodeFrom_primed primed found, left⟩

end

/-- For every vector of lengths: a table is refused exactly when a length is above fifteen
    or the codes are over-subscribed; one that is built decodes a symbol's code to the
    symbol and takes exactly its bits, and fails on bits that begin with no code. -/
theorem huffman_canonical (lengths : List UInt8) (few : lengths.length < 2 ^ 16) :
    (Huffman.new lengths = .error .badHuffmanTable ↔
      (∃ l ∈ lengths, 15 < l.toNat) ∨ OverSubscribed 15 (numbers lengths)) ∧
    (∀ e, Huffman.new lengths = .error e → e = .badHuffmanTable) ∧
    ∀ h, Huffman.new lengths = .ok h → ∀ br, Held br →
      (∀ sym rest, sym < lengths.length → lengthOf (numbers lengths) sym ≠ 0 →
        unread br = codeBits (numbers lengths) sym ++ rest →
        ∃ br', h.decode br = .ok (sym, br') ∧ Held br' ∧ unread br' = rest) ∧
      ((∀ sym < lengths.length, lengthOf (numbers lengths) sym ≠ 0 → ¬ codeBits (numbers lengths) sym <+: unread br) →
        ∃ e, h.decode br = .error e) := by
  obtain ⟨refuses, kind, built⟩ := new_spec few
  refine ⟨refuses, kind, fun h is br held => ?_⟩
  obtain ⟨short, room, counts, placed⟩ := built h is
  constructor
  · intro sym rest within coded split
    exact decode_finds few is held within coded split
  · intro none_
    rw [decode_eq counts]
    cases ran : Huffman.decodeFrom h.symbols br (2 * number []) (first (numbers lengths) (0 + 1))
        (shorter (numbers lengths) (0 + 1)) ((List.range' (0 + 1) 15).map (CanonicalCodes.codes (numbers lengths))) with
    | error e => exact ⟨e, rfl⟩
    | ok found =>
      obtain ⟨sym, br'⟩ := found
      obtain ⟨code, within, coded, spells, -, split⟩ := decodeFrom_sound room short placed 15 rfl held (Nat.zero_le _) ran
      rw [length_numbers] at within
      rw [List.nil_append] at spells
      exact absurd ⟨_, by rw [spells, split]⟩ (none_ sym within coded)

/-- An incomplete code of three symbols. -/
theorem huffman_canonical_three :
    (Huffman.new [1, 3, 3] = .error .badHuffmanTable ↔
      (∃ l ∈ ([1, 3, 3] : List UInt8), 15 < l.toNat) ∨ OverSubscribed 15 (numbers [1, 3, 3])) ∧
    ∃ h, Huffman.new [1, 3, 3] = .ok h ∧ ∃ br', h.decode (.new [0b101]) = .ok (2, br') ∧ Held br' := by
  have spec := huffman_canonical [1, 3, 3] (by decide)
  refine ⟨spec.1, ?_⟩
  cases built : Huffman.new [1, 3, 3] with
  | error e =>
    have kind := spec.2.1 e built
    subst kind
    exact absurd built (by decide +kernel)
  | ok h =>
    obtain ⟨br', ran, held, -⟩ := ((spec.2.2 h built) (.new [0b101]) (by unfold Held; decide)).1 2 [false, false, false, false, false]
      (by decide) (by decide) (by decide)
    exact ⟨h, rfl, br', ran, held⟩

end E5r.HuffmanCodes
