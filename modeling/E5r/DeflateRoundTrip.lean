import Mathlib.Tactic.IntervalCases
import E5r.HuffmanCodes

/-!
What the compressor writes is inflated to its input, for both kinds of blocks and
under every limit that has room for it (`inflate_deflate`). For the fixed tables,
the two sides meet at a list of tokens (`Runs`): every match of the search is a
true repeat, whatever the chains hold.
-/
namespace E5r.DeflateRoundTrip
open BitStream Deflate Inflate Fallible DeflateBits
open HuffmanCodes (numbers new_spec decode_takes)
open CanonicalCodes (first lengthOf rank codeOf codeBits OverSubscribed)

/-! ### The fixed codes -/

def symbolBits (sym : ℕ) : List Bool := (bitsOf (fixedLit sym).2 (fixedLit sym).1).reverse
def distanceBits (sym : ℕ) : List Bool := (bitsOf 5 sym).reverse

/-- The fixed tables decode every fixed code. -/
structure Decodes (litlen dist : Huffman) : Prop where
  symbol : ∀ sym < 288, Takes litlen.decode (symbolBits sym) sym
  distance : ∀ sym < 32, Takes dist.decode (distanceBits sym) sym

theorem fixedLengths : numbers ((List.range 288).map fixedLength) =
    List.replicate 144 8 ++ (List.replicate 112 9 ++ (List.replicate 24 7 ++ List.replicate 8 8)) := by
  decide +kernel

theorem fixed_first : first (numbers ((List.range 288).map fixedLength)) 7 = 0 ∧
    first (numbers ((List.range 288).map fixedLength)) 8 = 0x30 ∧
    first (numbers ((List.range 288).map fixedLength)) 9 = 0x190 := by
  rw [fixedLengths]
  decide +kernel

theorem fixed_length {sym : ℕ} (small : sym < 288) :
    lengthOf (numbers ((List.range 288).map fixedLength)) sym = (fixedLit sym).2 := by
  rw [lengthOf, fixedLengths, fixedLit]
  simp only [List.getD_eq_getElem?_getD, List.getElem?_append, List.getElem?_replicate, List.length_replicate]
  split_ifs <;> first | rfl | omega

theorem count_run (sym count l x : ℕ) (rest : List ℕ) : ((List.replicate count l ++ rest).take sym).count x =
    (if l = x then min sym count else 0) + (rest.take (sym - count)).count x := by
  rw [List.take_append, List.count_append, List.take_replicate, List.count_replicate, List.length_replicate]
  simp only [beq_iff_eq]

theorem fixed_codeOf {sym : ℕ} (small : sym < 288) :
    codeOf (numbers ((List.range 288).map fixedLength)) sym = (fixedLit sym).1 := by
  obtain ⟨seven, eight, nine⟩ := fixed_first
  have last : List.replicate 8 8 = List.replicate 8 8 ++ [] := (List.append_nil _).symm
  rw [codeOf, rank, fixed_length small]
  conv => lhs; rhs; rw [fixedLengths, last]
  unfold fixedLit
  split
  · rw [eight]
    simp only [count_run, List.take_nil, List.count_nil, reduceIte, Nat.reduceEqDiff]
    omega
  split
  · rw [nine]
    simp only [count_run, List.take_nil, List.count_nil, reduceIte, Nat.reduceEqDiff]
    omega
  split
  · rw [seven]
    simp only [count_run, List.take_nil, List.count_nil, reduceIte, Nat.reduceEqDiff]
    omega
  · rw [eight]
    simp only [count_run, List.take_nil, List.count_nil, reduceIte, Nat.reduceEqDiff]
    omega

theorem distance_codeOf {sym : ℕ} (small : sym < 32) :
    lengthOf (numbers (List.replicate 32 5)) sym = 5 ∧ codeOf (numbers (List.replicate 32 5)) sym = sym := by
  revert sym
  decide

theorem fixedTables_decode : ∃ litlen dist, fixedTables = .ok (litlen, dist) ∧ Decodes litlen dist := by
  have litlens : ¬ Huffman.new ((List.range 288).map fixedLength) = .error .badHuffmanTable := by
    rw [(new_spec (by decide +kernel)).1, OverSubscribed]
    decide +kernel
  have dists : ¬ Huffman.new (List.replicate 32 5) = .error .badHuffmanTable := by
    rw [(new_spec (by decide)).1, OverSubscribed]
    decide
  cases litlen : Huffman.new ((List.range 288).map fixedLength) with
  | error e => exact absurd ((new_spec (by decide +kernel)).2.1 e litlen ▸ litlen) litlens
  | ok h =>
  cases dist : Huffman.new (List.replicate 32 5) with
  | error e => exact absurd ((new_spec (by decide)).2.1 e dist ▸ dist) dists
  | ok d =>
  refine ⟨h, d, by rw [fixedTables, litlen, dist]; rfl, fun sym small => ?_, fun sym small => ?_⟩
  · have coded := fixed_length small
    have takes := decode_takes (by decide +kernel) litlen (show sym < _ by simpa) (by
      rw [coded, fixedLit]
      split_ifs <;> simp)
    rwa [codeBits, coded, fixed_codeOf small] at takes
  · obtain ⟨coded, code⟩ := distance_codeOf small
    have takes := decode_takes (by decide) dist (show sym < _ by simpa) (by rw [coded]; decide)
    rwa [codeBits, coded, code] at takes

/-! ### Length and distance codes -/

theorem lastBelow_spec (base : List ℕ) {v : ℕ} (low : base.getD 0 0 ≤ v) (i : ℕ) :
    base.getD (lastBelow base v i) 0 ≤ v ∧
      (lastBelow base v i = i ∨ lastBelow base v i < i ∧ v < base.getD (lastBelow base v i + 1) 0) := by
  induction i with
  | zero => exact ⟨low, .inl rfl⟩
  | succ i ih =>
    rw [lastBelow]
    split
    · next above =>
      obtain ⟨below, last⟩ := ih
      refine ⟨below, .inr ?_⟩
      rcases last with same | ⟨within, less⟩
      · rw [same]
        exact ⟨Nat.lt_succ_self i, above⟩
      · exact ⟨Nat.lt_succ_of_lt within, less⟩
    · next notAbove => exact ⟨not_lt.mp notAbove, .inl rfl⟩

theorem lastBelow_extra (base extra : List ℕ) (last : ℕ) {top v : ℕ}
    (steps : ∀ j < last, base.getD (j + 1) 0 ≤ base.getD j 0 + 2 ^ extra.getD j 0)
    (ends : top < base.getD last 0 + 2 ^ extra.getD last 0) (low : base.getD 0 0 ≤ v) (high : v ≤ top) :
    lastBelow base v last ≤ last ∧ base.getD (lastBelow base v last) 0 ≤ v ∧
      v - base.getD (lastBelow base v last) 0 < 2 ^ extra.getD (lastBelow base v last) 0 := by
  obtain ⟨below, reached⟩ := lastBelow_spec base low last
  rcases reached with same | ⟨within, less⟩
  · rw [same] at below ⊢
    exact ⟨le_refl _, below, by omega⟩
  · have := steps _ within
    exact ⟨by omega, below, by omega⟩

/-- What a code of a length or a distance must satisfy for the tables to give the
    value back. -/
structure Coded (base extra : List ℕ) (value i bits v : ℕ) : Prop where
  inside : i < base.length
  extra : extra.getD i 0 = bits
  sum : base.getD i 0 + v = value
  small : v < 2 ^ bits
  few : bits ≤ 13

theorem lengthCode_ok {len : ℕ} (long : 3 ≤ len) (short : len ≤ 258) : ∃ i, (lengthCode len).1 = 257 + i ∧
    Coded LEN_BASE LEN_EXTRA len i (lengthCode len).2.1 (lengthCode len).2.2 := by
  obtain ⟨within, below, small⟩ := lastBelow_extra lengthBase lengthExtra 28
    (by decide) (by decide) long short
  have few : ∀ i ≤ 28, lengthExtra.getD i 0 ≤ 13 := by decide
  exact ⟨_, rfl, lt_of_le_of_lt within (by decide), rfl, Nat.add_sub_cancel' below, small, few _ within⟩

theorem distanceCode_ok {dist : ℕ} (positive : 1 ≤ dist) (near : dist ≤ 32768) :
    Coded DIST_BASE DIST_EXTRA dist (distanceCode dist).1 (distanceCode dist).2.1 (distanceCode dist).2.2 := by
  obtain ⟨within, below, small⟩ := lastBelow_extra distanceBase distanceExtra 29
    (by decide) (by decide) positive near
  have few : ∀ i ≤ 29, distanceExtra.getD i 0 ≤ 13 := by decide
  exact ⟨lt_of_le_of_lt within (by decide), rfl, Nat.add_sub_cancel' below, small, few _ within⟩

/-! ### Tokens -/

inductive Token where
  | literal (b : UInt8)
  | copy (length distance : ℕ)

def Token.bits : Token → List Bool
  | .literal b => symbolBits b.toNat
  | .copy length distance =>
    symbolBits (lengthCode length).1 ++ bitsOf (lengthCode length).2.1 (lengthCode length).2.2 ++
      (distanceBits (distanceCode distance).1 ++ bitsOf (distanceCode distance).2.1 (distanceCode distance).2.2)

/-- The tokens lead from one output to another. -/
inductive Runs : List UInt8 → List Token → List UInt8 → Prop where
  | done (out : List UInt8) : Runs out [] out
  | literal {out final : List UInt8} {tokens : List Token} (b : UInt8) (rest : Runs (out ++ [b]) tokens final) :
      Runs out (.literal b :: tokens) final
  | copy {out final : List UInt8} {tokens : List Token} {length distance : ℕ} (long : 3 ≤ length)
      (short : length ≤ 258) (some : 1 ≤ distance) (near : distance ≤ 32768) (held : distance ≤ out.length)
      (rest : Runs (copyBack out distance length) tokens final) : Runs out (.copy length distance :: tokens) final

@[simp] theorem length_copyBack (out : List UInt8) (distance length : ℕ) :
    (copyBack out distance length).length = out.length + length := by
  have grows (is : List ℕ) (o : List UInt8) :
      (is.foldl (fun o i => o ++ [o.getD (out.length - distance + i) 0]) o).length = o.length + is.length := by
    induction is generalizing o with
    | nil => rfl
    | cons i is ih =>
      rw [List.foldl_cons, ih]
      simp only [List.length_append, List.length_cons, List.length_nil]
      omega
  rw [copyBack, grows, List.length_range]

theorem Runs.length_le {out final : List UInt8} {tokens : List Token} (runs : Runs out tokens final) :
    out.length ≤ final.length := by
  induction runs with
  | done => exact le_refl _
  | literal b _ ih =>
    rw [List.length_append] at ih
    omega
  | copy _ _ _ _ _ _ ih =>
    rw [length_copyBack] at ih
    omega

/-! ### Tokens are read -/

theorem takes_extra {n v : ℕ} (few : n ≤ 13) (small : v < 2 ^ n) :
    Takes (fun br => br.bits n) (bitsOf n v) (BitVec.ofNat 32 v) := by
  have read := takes_bits (bitsOf n v) (by rw [length_bitsOf]; omega)
  rwa [length_bitsOf, value_bitsOf, Nat.mod_eq_of_lt small] at read

section
variable {litlen dist : Huffman} (decodes : Decodes litlen dist)
include decodes

theorem takes_symbol (sym : ℕ) (small : sym < 288) : Takes litlen.decode (symbolBits sym) sym :=
  decodes.symbol sym small

theorem symbol_literal {limit : ℕ} {out : List UInt8} (room : out.length < limit) (b : UInt8) :
    Takes (fun br => symbol litlen dist limit br out) (symbolBits b.toNat) (some (out ++ [b])) := by
  intro br rest primed split
  have byte := UInt8.toNat_lt b
  obtain ⟨br1, decoded, primed1, rest1⟩ := takes_symbol decodes b.toNat (by omega) br rest primed split
  refine ⟨br1, ?_, primed1, rest1⟩
  simp only [symbol, bind_ok_iff, Prod.exists]
  refine ⟨_, br1, decoded, ?_⟩
  rw [if_pos byte, if_neg (by omega), UInt8.ofNat_toNat]
  rfl

theorem symbol_end (limit : ℕ) (out : List UInt8) :
    Takes (fun br => symbol litlen dist limit br out) (symbolBits 256) none := by
  intro br rest primed split
  obtain ⟨br1, decoded, primed1, rest1⟩ := takes_symbol decodes 256 (by decide) br rest primed split
  refine ⟨br1, ?_, primed1, rest1⟩
  simp only [symbol, bind_ok_iff, Prod.exists]
  exact ⟨_, br1, decoded, rfl⟩

theorem symbol_copy {limit length distance : ℕ} {out : List UInt8} (long : 3 ≤ length) (short : length ≤ 258)
    (positive : 1 ≤ distance) (near : distance ≤ 32768) (held : distance ≤ out.length)
    (room : out.length + length ≤ limit) :
    Takes (fun br => symbol litlen dist limit br out) (Token.copy length distance).bits
      (some (copyBack out distance length)) := by
  obtain ⟨i, code, lengths⟩ := lengthCode_ok long short
  have distances := distanceCode_ok positive near
  have under {n v : ℕ} (few : n ≤ 13) (small : v < 2 ^ n) : (BitVec.ofNat 32 v).toNat = v := by
    rw [BitVec.toNat_ofNat]
    exact Nat.mod_eq_of_lt (lt_of_lt_of_le small (Nat.pow_le_pow_right (by decide) (by omega)))
  have inside : i < 29 := lengths.inside
  intro br rest primed split
  rw [Token.bits, code, List.append_assoc, List.append_assoc, List.append_assoc] at split
  obtain ⟨br1, decoded, primed1, rest1⟩ := takes_symbol decodes (257 + i) (by omega) br _ primed split
  obtain ⟨br2, extra, primed2, rest2⟩ := takes_extra lengths.few lengths.small br1 _ primed1 rest1
  have place : (distanceCode distance).1 < 32 := lt_trans distances.inside (by decide)
  obtain ⟨br3, decoded3, primed3, rest3⟩ := decodes.distance _ place br2 _ primed2 rest2
  obtain ⟨br4, extra4, primed4, rest4⟩ := takes_extra distances.few distances.small br3 _ primed3 rest3
  have pair : reference dist br1 (257 + i) = .ok ((length, distance), br4) := by
    simp only [reference, unless_ok_iff, bind_ok_iff, Prod.exists, Nat.add_sub_cancel_left, lengths.extra]
    refine ⟨not_le.mpr lengths.inside, _, br2, extra, _, br3, decoded3, not_le.mpr distances.inside,
      BitVec.ofNat 32 (distanceCode distance).2.2, br4, ?_, ?_⟩
    · rw [distances.extra]
      exact extra4
    · rw [under lengths.few lengths.small, under distances.few distances.small, lengths.sum, distances.sum]
      rfl
  refine ⟨br4, ?_, primed4, rest4⟩
  simp only [symbol, bind_ok_iff, Prod.exists]
  refine ⟨_, br1, decoded, ?_⟩
  rw [if_neg (by omega), if_neg (by omega)]
  simp only [bind_ok_iff, unless_ok_iff, Prod.exists]
  exact ⟨length, distance, br4, pair, by omega, by omega, rfl⟩

theorem takes_codes {limit : ℕ} {out final : List UInt8} {tokens : List Token} (runs : Runs out tokens final)
    (room : final.length ≤ limit) :
    Takes (fun br => codes litlen dist limit br out) (tokens.flatMap Token.bits ++ symbolBits 256) final := by
  have next {out out' final : List UInt8} {bs cs : List Bool}
      (first : Takes (fun br => symbol litlen dist limit br out) bs (some out'))
      (later : Takes (fun br => codes litlen dist limit br out') cs final) :
      Takes (fun br => codes litlen dist limit br out) (bs ++ cs) final := by
    intro br rest primed split
    obtain ⟨br1, read1, primed1, rest1⟩ := first br (cs ++ rest) primed (by rw [split, List.append_assoc])
    obtain ⟨br2, read2, primed2, rest2⟩ := later br1 rest primed1 rest1
    refine ⟨br2, ?_, primed2, rest2⟩
    simp only at read1 read2 ⊢
    rw [codes, read1]
    exact read2
  induction runs with
  | done out =>
    intro br rest primed split
    obtain ⟨br1, read1, primed1, rest1⟩ := symbol_end decodes limit out br rest primed split
    refine ⟨br1, ?_, primed1, rest1⟩
    simp only at read1 ⊢
    rw [codes, read1]
  | @literal out final tokens b later ih =>
    have := later.length_le
    rw [List.length_append] at this
    rw [List.flatMap_cons, List.append_assoc]
    exact next (symbol_literal decodes (by simp at this; omega) b) (ih room)
  | copy long short positive near held later ih =>
    have := later.length_le
    rw [length_copyBack] at this
    rw [List.flatMap_cons, List.append_assoc]
    exact next (symbol_copy decodes long short positive near held (by omega)) (ih room)

end

/-! ### The search finds true repeats -/

/-- The bytes at `pos` stand `distance` before it too. -/
structure Repeat (data : List UInt8) (pos limit length distance : ℕ) : Prop where
  short : length ≤ limit
  positive : 1 ≤ distance
  held : distance ≤ pos
  near : distance ≤ WINDOW
  same : ∀ i < length, byteAt data (pos - distance + i) = byteAt data (pos + i)

theorem agree_spec (data : List UInt8) (c pos : ℕ) {limit n : ℕ} (within : n ≤ limit)
    (before : ∀ i < n, byteAt data (c + i) = byteAt data (pos + i)) : agree data c pos limit n ≤ limit ∧
      ∀ i < agree data c pos limit n, byteAt data (c + i) = byteAt data (pos + i) := by
  fun_induction agree data c pos limit n with
  | case1 n more ih =>
    refine ih more.1 (fun i less => ?_)
    rcases Nat.lt_succ_iff_lt_or_eq.mp less with earlier | rfl
    · exact before i earlier
    · exact more.2
  | case2 n stop => exact ⟨within, before⟩

theorem search_repeat (data : List UInt8) (chains : Chains) (pos limit nice tries : ℕ) (cand : UInt32) {best : ℕ × ℕ}
    (before : best.1 = 0 ∨ Repeat data pos limit best.1 best.2) :
    let found := search data chains pos limit (pos - WINDOW) nice tries cand best
    found.1 = 0 ∨ Repeat data pos limit found.1 found.2 := by
  induction tries generalizing cand best with
  | zero => exact before
  | succ tries ih =>
    simp only [search]
    split
    · exact before
    · split
      · exact before
      · next inside =>
        have candidate : Repeat data pos limit (agree data cand.toNat pos limit 0) (pos - cand.toNat) := by
          obtain ⟨short, same⟩ := agree_spec data cand.toNat pos (Nat.zero_le limit) (by simp)
          have back : pos - (pos - cand.toNat) = cand.toNat := by omega
          exact ⟨short, by omega, by omega, by omega, by rwa [back]⟩
        split
        · exact before
        · split
          · split
            · exact .inr candidate
            · exact ih _ (.inr candidate)
          · exact ih _ before

theorem bestMatch_repeat {data : List UInt8} {chains : Chains} {pos nice length distance : ℕ}
    (found : bestMatch data chains pos nice = some (length, distance)) :
    Repeat data pos (min (data.length - pos) MAX_MATCH) length distance ∧ 3 ≤ length ∧ pos + length ≤ data.length := by
  have long := bestMatch_length found
  simp only [bestMatch] at found
  split at found
  · contradiction
  · split at found
    · have repeats := search_repeat data chains pos (min (data.length - pos) MAX_MATCH) nice MAX_CHAIN
        (chains.head.getD (hash3 (byteAt data pos) (byteAt data (pos + 1)) (byteAt data (pos + 2))) NONE) (.inl (Eq.refl (0, 0).1))
      simp only [Option.some.inj found] at repeats
      unfold MIN_MATCH at long
      rcases repeats with zero | repeats
      · omega
      · have := repeats.short
        exact ⟨repeats, long, by omega⟩
    · contradiction

theorem copyBack_repeat {data : List UInt8} {pos limit length distance : ℕ}
    (repeats : Repeat data pos limit length distance) (inside : pos + length ≤ data.length) :
    copyBack (data.take pos) distance length = data.take (pos + length) := by
  have start : (data.take pos).length = pos := by
    rw [List.length_take]
    omega
  have steps (k : ℕ) (within : k ≤ length) :
      (List.range k).foldl (fun o i => o ++ [o.getD ((data.take pos).length - distance + i) 0]) (data.take pos) =
        data.take (pos + k) := by
    induction k with
    | zero => rfl
    | succ k ih =>
      have positive := repeats.positive
      have held := repeats.held
      have next : pos + k < data.length := by omega
      have byte : (data.take (pos + k)).getD (pos - distance + k) 0 = data[pos + k] := by
        have same := repeats.same k within
        rw [byteAt, byteAt, List.getD_eq_getElem _ _ next] at same
        rw [← same, List.getD_eq_getElem?_getD, List.getElem?_take_of_lt (by omega), ← List.getD_eq_getElem?_getD]
      rw [List.range_succ, List.foldl_append, ih (by omega), List.foldl_cons, List.foldl_nil, start, byte,
        ← Nat.add_assoc, List.take_succ_eq_append_getElem next]
  exact steps length (le_refl _)

/-! ### Tokens are written -/

theorem putSymbol_written {w : BitWriter} (settled : Settled w) (sym : ℕ) :
    Settled (putSymbol w sym) ∧ written (putSymbol w sym) = written w ++ symbolBits sym := by
  have few : (fixedLit sym).2 ≤ 16 := by
    rw [fixedLit]
    split <;> [skip; split <;> [skip; split]] <;> simp
  obtain ⟨after, same⟩ := putCode_written settled (BitVec.ofNat 32 (fixedLit sym).1) few
  refine ⟨after, ?_⟩
  rw [putSymbol, same, symbolBits, BitVec.toNat_ofNat, bitsOf_mod_le (by omega)]

theorem putExtra_written {w : BitWriter} (settled : Settled w) (v : ℕ) {n : ℕ} (few : n ≤ 13) :
    Settled (putExtra w v n) ∧ written (putExtra w v n) = written w ++ bitsOf n v := by
  rw [putExtra]
  split
  · obtain ⟨after, same⟩ := put_written settled (BitVec.ofNat 32 v) (n := n) (by omega)
    refine ⟨after, ?_⟩
    rw [same, BitVec.toNat_ofNat, bitsOf_mod_le (by omega)]
  · next none =>
    have zero : n = 0 := by omega
    subst zero
    exact ⟨settled, by simp [bitsOf]⟩

theorem putMatch_written {w : BitWriter} (settled : Settled w) {length distance : ℕ} (long : 3 ≤ length)
    (short : length ≤ 258) (positive : 1 ≤ distance) (near : distance ≤ 32768) :
    Settled (putMatch w length distance) ∧
      written (putMatch w length distance) = written w ++ (Token.copy length distance).bits := by
  obtain ⟨i, -, lengths⟩ := lengthCode_ok long short
  have distances := distanceCode_ok positive near
  obtain ⟨settled1, same1⟩ := putSymbol_written settled (lengthCode length).1
  obtain ⟨settled2, same2⟩ := putExtra_written settled1 (lengthCode length).2.2 lengths.few
  obtain ⟨settled3, same3⟩ := putCode_written settled2 (BitVec.ofNat 32 (distanceCode distance).1) (n := 5) (by decide)
  obtain ⟨settled4, same4⟩ := putExtra_written settled3 (distanceCode distance).2.2 distances.few
  refine ⟨settled4, ?_⟩
  rw [putMatch, same4, same3, same2, same1, BitVec.toNat_ofNat, bitsOf_mod_le (by decide), Token.bits, distanceBits]
  simp only [List.append_assoc]

theorem fixedFrom_written (data : List UInt8) {w : BitWriter} (chains : Chains) {pos : ℕ} (settled : Settled w)
    (inside : pos ≤ data.length) : ∃ tokens, Runs (data.take pos) tokens data ∧ Settled (fixedFrom data w chains pos) ∧
      written (fixedFrom data w chains pos) = written w ++ tokens.flatMap Token.bits := by
  fun_induction fixedFrom data w chains pos with
  | case1 w chains pos more length distance chosen ih =>
    obtain ⟨repeats, long, fits⟩ := bestMatch_repeat (choose_some chosen)
    have short : length ≤ 258 := repeats.short.trans (Nat.min_le_right _ _)
    have near : distance ≤ 32768 := repeats.near
    obtain ⟨settled1, same1⟩ := putMatch_written settled long short repeats.positive near
    obtain ⟨tokens, runs, settled2, same2⟩ := ih settled1 fits
    refine ⟨.copy length distance :: tokens, .copy long short repeats.positive near ?_ ?_, settled2, ?_⟩
    · have := repeats.held
      rw [List.length_take]
      omega
    · rwa [copyBack_repeat repeats fits]
    · rw [same2, same1, List.flatMap_cons, List.append_assoc]
  | case2 w chains pos more chosen ih =>
    obtain ⟨settled1, same1⟩ := putSymbol_written settled (byteAt data pos).toNat
    obtain ⟨tokens, runs, settled2, same2⟩ := ih settled1 more
    refine ⟨.literal (byteAt data pos) :: tokens, .literal _ ?_, settled2, ?_⟩
    · rwa [byteAt, List.getD_eq_getElem _ _ more, ← List.take_succ_eq_append_getElem more]
    · rw [same2, same1, List.flatMap_cons, List.append_assoc]
      rfl
  | case3 w chains pos ended =>
    have all : data.take pos = data := List.take_of_length_le (by omega)
    exact ⟨[], by rw [all]; exact .done data, settled, by simp⟩

/-! ### Blocks with the fixed tables -/

theorem anyBlock_fixed {limit : ℕ} {tokens : List Token} {final : List UInt8} (runs : Runs [] tokens final)
    (room : final.length ≤ limit) :
    Takes (fun br => anyBlock limit br []) ([true] ++ ([true, false] ++ (tokens.flatMap Token.bits ++ symbolBits 256)))
      (true, final) := by
  obtain ⟨litlen, dist, tables, decodes⟩ := fixedTables_decode
  intro br rest primed split
  simp only [List.append_assoc] at split
  obtain ⟨br1, read1, primed1, rest1⟩ := takes_bits [true] (by decide) br _ primed split
  obtain ⟨br2, read2, primed2, rest2⟩ := takes_bits [true, false] (by decide) br1 _ primed1 rest1
  obtain ⟨br3, read3, primed3, rest3⟩ := takes_codes decodes runs room br2 rest primed2
    (by rw [rest2, List.append_assoc])
  refine ⟨br3, ?_, primed3, rest3⟩
  simp only [anyBlock, bind_ok_iff, Prod.exists, pure_ok_iff]
  refine ⟨_, br1, read1, _, br2, read2, final, br3, ?_, rfl⟩
  show block limit 1 br2 [] = _
  rw [block, if_neg (by decide), if_pos rfl, tables]
  exact read3

theorem inflate_fixedBlocks {data : List UInt8} {limit : ℕ} (room : data.length ≤ limit) :
    inflate (fixedBlocks data) limit = .ok data := by
  have start : Settled ⟨[], 0, 0⟩ := ⟨by decide, by decide⟩
  obtain ⟨settled1, same1⟩ := put_written start 1 (n := 1) (by decide)
  obtain ⟨settled2, same2⟩ := put_written settled1 1 (n := 2) (by decide)
  obtain ⟨tokens, runs, settled3, same3⟩ := fixedFrom_written data
    ⟨Array.replicate HASH_SIZE NONE, Array.replicate data.length NONE⟩ settled2 (Nat.zero_le _)
  obtain ⟨settled4, same4⟩ := putSymbol_written settled3 256
  obtain ⟨pad, all⟩ := flush_written settled4
  have bits : bytesBits (fixedBlocks data) =
      ([true] ++ ([true, false] ++ (tokens.flatMap Token.bits ++ symbolBits 256))) ++ pad := by
    rw [fixedBlocks, all, same4, same3, same2, same1]
    simp only [List.append_assoc]
    rfl
  obtain ⟨br, read, -, -⟩ := anyBlock_fixed runs room (.new (fixedBlocks data)) pad (primed_new _) bits
  simp only at read
  rw [inflate, blocks, read]
  rfl

/-! ### Stored blocks -/

/-- Nothing waits, and certain bytes are still to come. -/
structure Aligned (br : BitReader) (rest : List UInt8) : Prop where
  none : br.has = 0
  empty : br.buf = 0
  left : br.data.drop br.pos = rest

theorem aligned_new (data : List UInt8) : Aligned (.new data) data := ⟨rfl, rfl, rfl⟩

variable {br : BitReader}

theorem Aligned.primed {rest : List UInt8} (aligned : Aligned br rest) : Primed br ∧ unread br = bytesBits rest := by
  refine ⟨⟨by rw [aligned.none]; decide, by rw [aligned.none, aligned.empty]; decide⟩, ?_⟩
  rw [unread, aligned.none, aligned.left]
  rfl

theorem aligned_align {pad : List Bool} {rest : List UInt8} (primed : Primed br)
    (split : unread br = pad ++ bytesBits rest) (few : pad.length < 8) : Aligned br.align rest := by
  have lengths := congrArg List.length split
  have few' := primed.few
  simp only [unread, List.length_append, length_bitsOf, length_bytesBits] at lengths
  have waiting : br.has = pad.length := by omega
  have drop : br.has % 8 = br.has := Nat.mod_eq_of_lt few'
  refine ⟨?_, ?_, ?_⟩
  · simp [BitReader.align, drop]
  · apply BitVec.eq_of_toNat_eq
    rw [BitReader.align, drop, BitVec.toNat_ushiftRight, Nat.shiftRight_eq_div_pow, Nat.div_eq_of_lt primed.small]
    rfl
  · exact bytesBits_injective (List.append_inj split (by rw [length_bitsOf, waiting])).2

theorem Aligned.byte {b : UInt8} {rest : List UInt8} (aligned : Aligned br (b :: rest)) :
    ∃ br', br.byte = .ok (b, br') ∧ Aligned br' rest := by
  have inside : br.pos < br.data.length := by
    by_contra outside
    have := aligned.left
    rw [List.drop_eq_nil_of_le (not_lt.mp outside)] at this
    contradiction
  have split := aligned.left
  rw [List.drop_eq_getElem_cons inside] at split
  obtain ⟨rfl, left⟩ := List.cons.inj split
  refine ⟨⟨br.data, br.pos + 1, br.buf, br.has⟩, ?_, aligned.none, aligned.empty, left⟩
  rw [BitReader.byte, if_neg (by rw [aligned.none]; decide), List.getElem?_eq_getElem inside]

theorem Aligned.readBytes {chunk rest : List UInt8} (out : List UInt8) (aligned : Aligned br (chunk ++ rest)) :
    ∃ br', readBytes br out chunk.length = .ok (out ++ chunk, br') ∧ Aligned br' rest := by
  induction chunk generalizing br out with
  | nil => exact ⟨br, by simp [Inflate.readBytes], aligned⟩
  | cons b chunk ih =>
    obtain ⟨br1, read1, aligned1⟩ := aligned.byte
    obtain ⟨br2, read2, aligned2⟩ := ih (out ++ [b]) aligned1
    refine ⟨br2, ?_, aligned2⟩
    rw [List.length_cons, Inflate.readBytes, read1]
    show Inflate.readBytes br1 (out ++ [b]) chunk.length = _
    rw [read2, List.append_assoc]
    rfl

theorem toLeBytes_value (v : BitVec 16) :
    (UInt8.ofNat v.toNat).toNat ||| ((UInt8.ofNat (v >>> 8).toNat).toNat <<< 8) = v.toNat := by
  have low : (UInt8.ofNat v.toNat).toNat = v.toNat % 2 ^ 8 := by simp
  have less := v.isLt
  have high : (UInt8.ofNat (v >>> 8).toNat).toNat = v.toNat / 2 ^ 8 := by
    rw [UInt8.toNat_ofNat', BitVec.toNat_ushiftRight, Nat.shiftRight_eq_div_pow]
    omega
  rw [low, high, Nat.or_comm, ← Nat.shiftLeft_add_eq_or_of_lt (Nat.mod_lt _ (by decide)), Nat.shiftLeft_eq]
  omega

theorem anyBlock_stored (limit : ℕ) {chunk rest : List UInt8} (out : List UInt8) {last : Bool}
    (short : chunk.length ≤ 0xffff) (room : out.length + chunk.length ≤ limit)
    (aligned : Aligned br (storedBlock chunk last ++ rest)) :
    ∃ br', anyBlock limit br out = .ok ((last, out ++ chunk), br') ∧ Aligned br' rest := by
  obtain ⟨primed, unreadAll⟩ := aligned.primed
  -- the marker byte gives the two header fields, and five bits that are dropped
  have marker : bitsOf 8 (UInt8.ofNat last.toNat).toNat = [last] ++ ([false, false] ++ List.replicate 5 false) := by
    cases last <;> decide
  rw [storedBlock, List.cons_append, List.cons_append, List.cons_append, bytesBits_cons, marker] at unreadAll
  simp only [List.append_assoc] at unreadAll
  obtain ⟨br1, read1, primed1, rest1⟩ := takes_bits [last] (by simp) br _ primed unreadAll
  obtain ⟨br2, read2, primed2, rest2⟩ := takes_bits [false, false] (by decide) br1 _ primed1 rest1
  have aligned2 := aligned_align primed2 rest2 (by decide)
  obtain ⟨br3, read3, aligned3⟩ := aligned2.byte
  obtain ⟨br4, read4, aligned4⟩ := aligned3.byte
  obtain ⟨br5, read5, aligned5⟩ := aligned4.byte
  obtain ⟨br6, read6, aligned6⟩ := aligned5.byte
  have aligned6 : Aligned br6 (chunk ++ rest) := aligned6
  obtain ⟨br7, read7, aligned7⟩ := aligned6.readBytes out
  have length : (BitVec.ofNat 16 chunk.length).toNat = chunk.length := by
    rw [BitVec.toNat_ofNat]
    exact Nat.mod_eq_of_lt (by omega)
  have complement : chunk.length ^^^ 0xffff = (~~~(BitVec.ofNat 16 chunk.length)).toNat := by
    rw [← BitVec.xor_allOnes, BitVec.toNat_xor, length]
    rfl
  have remaining : chunk.length ≤ br6.remaining := by
    have left := congrArg List.length aligned6.left
    rw [List.length_drop, List.length_append] at left
    rw [BitReader.remaining]
    omega
  refine ⟨br7, ?_, aligned7⟩
  simp only [anyBlock, bind_ok_iff, Prod.exists, pure_ok_iff]
  refine ⟨_, br1, read1, _, br2, read2, out ++ chunk, br7, ?_, ?_⟩
  · show block limit 0 br2 out = _
    rw [block, if_pos rfl]
    simp only [stored, bind_ok_iff, unless_ok_iff, Prod.exists]
    refine ⟨_, br3, read3, _, br4, read4, _, br5, read5, _, br6, read6, ?_⟩
    rw [toLeBytes_value, toLeBytes_value, length]
    exact ⟨not_not.mpr complement, by omega, by omega, read7⟩
  · cases last <;> rfl

theorem blocks_storedChunks {data : List UInt8} {limit : ℕ} {out : List UInt8} (some : data ≠ [])
    (room : out.length + data.length ≤ limit) (aligned : Aligned br (storedChunks data)) :
    blocks limit br out = .ok (out ++ data) := by
  fun_induction storedChunks data generalizing br out with
  | case1 => contradiction
  | case2 data nonempty ih =>
    have split : data.take 0xffff ++ data.drop 0xffff = data := List.take_append_drop 0xffff data
    have lengths := congrArg List.length split
    rw [List.length_append] at lengths
    obtain ⟨br1, read1, aligned1⟩ := anyBlock_stored limit out
      (by rw [List.length_take]; omega) (by omega) aligned
    rw [blocks, read1]
    cases ended : (data.drop 0xffff).isEmpty with
    | true =>
      rw [List.isEmpty_iff.mp ended, List.append_nil] at split
      rw [split]
      rfl
    | false =>
      have more : data.drop 0xffff ≠ [] := fun empty => by simp [empty] at ended
      have later := @ih br1 (out ++ data.take 0xffff) more (by rw [List.length_append]; omega) aligned1
      simp only [Bool.false_eq_true, if_false]
      rw [later, List.append_assoc, split]

theorem inflate_storedBlocks {data : List UInt8} {limit : ℕ} (room : data.length ≤ limit) :
    inflate (storedBlocks data) limit = .ok data := by
  unfold storedBlocks
  split
  · next empty =>
    obtain rfl := List.isEmpty_iff.mp empty
    have first : Aligned (BitReader.new (storedBlock [] true ++ [])) (storedBlock [] true ++ []) := aligned_new _
    obtain ⟨br, read, -⟩ := anyBlock_stored limit [] (by decide) (Nat.zero_le _) first
    rw [inflate, blocks]
    have same : [1] ++ toLeBytes 0 ++ toLeBytes (~~~0) = storedBlock [] true ++ [] := by decide
    rw [same, read]
    rfl
  · next some =>
    exact blocks_storedChunks (by simpa using some) (by simpa using room) (aligned_new _)

/-! ### The streams -/

theorem inflate_deflate_raw (data : List UInt8) (level : Level) {limit : ℕ} (room : data.length ≤ limit) :
    inflate (deflate data level) limit = .ok data := by
  cases level with
  | stored => exact inflate_storedBlocks room
  | fixed => exact inflate_fixedBlocks room

theorem adler32_eq (data : List UInt8) : Inflate.adler32 data = Deflate.adler32 data := by
  have sums (a b : BitVec 32) : Inflate.adlerFrom a b data = Deflate.adlerFrom a b data := by
    fun_induction Deflate.adlerFrom a b data with
    | case1 a b => simp [Inflate.adlerFrom]
    | case2 a b data more a' b' chunk ih =>
      rw [Inflate.adlerFrom, dif_neg more]
      have same : Inflate.adlerChunk a b (data.take 5552) = (a', b') := chunk
      rw [same]
      exact ih
  rw [Inflate.adler32, Deflate.adler32, sums]

private theorem ofNat_toBitVec (w : BitVec 32) : (UInt8.ofNat w.toNat).toBitVec = w.setWidth 8 := by
  apply BitVec.eq_of_toNat_eq
  simp

theorem fromBeBytes_toBeBytes (v : BitVec 32) :
    fromBeBytes (UInt8.ofNat (v >>> 24).toNat) (UInt8.ofNat (v >>> 16).toNat) (UInt8.ofNat (v >>> 8).toNat)
      (UInt8.ofNat v.toNat) = v := by
  rw [fromBeBytes, ofNat_toBitVec, ofNat_toBitVec, ofNat_toBitVec, ofNat_toBitVec]
  apply BitVec.eq_of_getLsbD_eq
  intro i small
  simp only [BitVec.getLsbD_or, BitVec.getLsbD_shiftLeft, BitVec.getLsbD_setWidth, BitVec.getLsbD_ushiftRight, small]
  interval_cases i <;> simp

theorem inflateZlib_deflateZlib (data : List UInt8) (level : Level) {limit : ℕ} (room : data.length ≤ limit) :
    inflateZlib (deflateZlib data level) limit = .ok data := by
  have split : deflateZlib data level = ([0x78, 0x9c] ++ deflate data level) ++ toBeBytes (Deflate.adler32 data) := rfl
  have length : (deflateZlib data level).length = ([0x78, 0x9c] ++ deflate data level).length + 4 := by
    rw [split, List.length_append]
    rfl
  have short : (deflateZlib data level).length - 4 = ([0x78, 0x9c] ++ deflate data level).length := by omega
  have body : ((deflateZlib data level).take ((deflateZlib data level).length - 4)).drop 2 = deflate data level := by
    rw [short, split, List.take_left]
    rfl
  have tail : (deflateZlib data level).drop ((deflateZlib data level).length - 4) = toBeBytes (Deflate.adler32 data) := by
    rw [short, split, List.drop_left]
  rw [inflateZlib]
  simp only [body, tail, bind_ok_iff, unless_ok_iff]
  refine ⟨by simp only [length, List.length_append, List.length_cons, List.length_nil]; omega, ?_, ?_, ?_, data,
    inflate_deflate_raw data level room, ?_, rfl⟩
  · show ¬((0x78 : UInt8) &&& 0x0f ≠ 8 ∨ (0x78 : UInt8) >>> 4 > 7)
    decide
  · show ¬((0x78 : UInt8).toNat * 256 + (0x9c : UInt8).toNat) % 31 ≠ 0
    decide
  · show ¬(0x9c : UInt8) &&& 0x20 ≠ 0
    decide
  · rw [adler32_eq, not_not]
    exact (fromBeBytes_toBeBytes _).symm

/-- What is deflated inflates to itself, in the wrapper and without, under every
    limit that has room for it. -/
theorem inflate_deflate (data : List UInt8) (level : Level) (limit : ℕ) (room : data.length ≤ limit) :
    inflateZlib (deflateZlib data level) limit = .ok data ∧ inflate (deflate data level) limit = .ok data :=
  ⟨inflateZlib_deflateZlib data level room, inflate_deflate_raw data level room⟩

/-- A text with a repeat, under the tightest limit. -/
theorem inflate_deflate_abcabc : inflateZlib (deflateZlib [97, 98, 99, 97, 98, 99] .fixed) 6 = .ok [97, 98, 99, 97, 98, 99] ∧
    inflate (deflate [97, 98, 99, 97, 98, 99] .fixed) 6 = .ok [97, 98, 99, 97, 98, 99] :=
  inflate_deflate _ .fixed 6 (by decide)

end E5r.DeflateRoundTrip
