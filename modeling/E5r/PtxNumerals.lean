import E5r.Numerals
import E5r.PtxForms

/-!
The literals that the printer writes are read back: decimal integers, and float
literals in upper-case hex of a fixed width.
-/
namespace E5r.PtxNumerals
open RustText Numerals PtxLexer

theorem decimal_char {n : ℕ} {c : Char} (member : c ∈ Nat.toDigits 10 n) : isAsciiDigit c = true := by
  obtain ⟨d, small, rfl⟩ := mem_toDigits (by decide) member
  have all : ∀ d < 10, isAsciiDigit (Nat.digitChar d) = true := by decide
  exact all d small

theorem isNumber_decimal (n : ℕ) : IsNumber (Nat.toDigits 10 n) := by
  have nonempty : Nat.toDigits 10 n ≠ [] := List.ne_nil_of_length_pos Nat.length_toDigits_pos
  obtain ⟨c, rest, split⟩ := List.exists_cons_of_ne_nil nonempty
  refine ⟨⟨c, rest, split, decimal_char (by rw [split]; exact List.mem_cons_self)⟩, ?_⟩
  intro c member
  simp [numberChar, isAsciiAlphanumeric, decimal_char member]

theorem stripPrefix_none {p s : List Char} {c : Char} (member : c ∈ p) (outside : c ∉ s) : stripPrefix p s = none := by
  rw [stripPrefix, if_neg]
  intro isPrefix
  exact outside ((List.isPrefixOf_iff_prefix.mp isPrefix).subset member)

theorem stripSuffix_none {p s : List Char} {c : Char} (member : c ∈ p) (outside : c ∉ s) : stripSuffix p s = none := by
  rw [stripSuffix, if_neg]
  intro isSuffix
  exact outside ((List.isSuffixOf_iff_suffix.mp isSuffix).subset member)

theorem literal_decimal {n : ℕ} (small : n < 2 ^ 127) : literal (Nat.toDigits 10 n) = .int n := by
  have outside {c : Char} (other : isAsciiDigit c = false) : c ∉ Nat.toDigits 10 n := by
    intro member
    rw [decimal_char member] at other
    contradiction
  have float : floatValue (Nat.toDigits 10 n) = none := by
    simp [floatValue, stripPrefix_none (p := ['0', 'f']) (c := 'f') (by simp) (outside (by decide)),
      stripPrefix_none (p := ['0', 'F']) (c := 'F') (by simp) (outside (by decide)),
      stripPrefix_none (p := ['0', 'd']) (c := 'd') (by simp) (outside (by decide)),
      stripPrefix_none (p := ['0', 'D']) (c := 'D') (by simp) (outside (by decide))]
  have noZero : ¬(1 < (Nat.toDigits 10 n).length ∧ (Nat.toDigits 10 n).head? = some '0') := by
    rintro ⟨long, zero⟩
    rcases Nat.eq_zero_or_pos n with rfl | positive
    · simp at long
    · exact toDigits_head positive zero
  have value : fromStrRadix 10 (2 ^ 127) (Nat.toDigits 10 n) = some n := by
    obtain ⟨ds, read, rfl⟩ := toDigits_read readsDigits_decimal n
    rw [List.map_id] at read
    exact fromStrRadix_digits (List.ne_nil_of_length_pos Nat.length_toDigits_pos) read small
  have int : intValue (Nat.toDigits 10 n) = some (n : ℤ) := by
    simp only [intValue, stripSuffix_none (p := ['U']) (c := 'U') (by simp) (outside (by decide)), Option.getD_none,
      stripPrefix_none (p := ['0', 'x']) (c := 'x') (by simp) (outside (by decide)),
      stripPrefix_none (p := ['0', 'X']) (c := 'X') (by simp) (outside (by decide)), Option.or_none]
    rw [if_neg (by simpa using noZero), value]
    rfl
  rw [literal, float, int]

theorem hex_char {n : ℕ} {c : Char} (member : c ∈ (Nat.toDigits 16 n).map Char.toUpper) :
    isAsciiHexdigit c = true ∧ numberChar c = true := by
  obtain ⟨c, inside, rfl⟩ := List.mem_map.mp member
  obtain ⟨d, small, rfl⟩ := mem_toDigits (by decide) inside
  have all : ∀ d < 16, isAsciiHexdigit (Nat.digitChar d).toUpper = true ∧
      numberChar (Nat.digitChar d).toUpper = true := by decide
  exact all d small

def hexDigits (width n : ℕ) : List Char := ((Nat.toDigits 16 n).map Char.toUpper).leftpad width '0'

theorem hexDigits_length {width n : ℕ} (positive : 0 < width) (fits : n < 16 ^ width) :
    (hexDigits width n).length = width := by
  have : (Nat.toDigits 16 n).length ≤ width := Nat.toDigits_length 16 n width positive fits
  rw [hexDigits, List.length_leftpad, List.length_map]
  omega

theorem hexDigits_char {width n : ℕ} {c : Char} (member : c ∈ hexDigits width n) :
    isAsciiHexdigit c = true ∧ numberChar c = true := by
  rw [hexDigits, List.leftpad, List.mem_append] at member
  rcases member with pad | digit
  · rw [(List.mem_replicate.mp pad).2]
    decide
  · exact hex_char digit

theorem hexDigits_read {width n : ℕ} (positive : 0 < width) (fits : n < 2 ^ 64) :
    fromStrRadix 16 (2 ^ 64) (hexDigits width n) = some n := by
  obtain ⟨ds, read, value⟩ := toDigits_read readsDigits_hex n
  have zeros (k : ℕ) : (List.replicate k '0').mapM (toDigit 16) = some (List.replicate k 0) := by
    induction k with
    | zero => rfl
    | succ k ih =>
      rw [List.replicate_succ, List.replicate_succ, List.mapM_cons, ih]
      rfl
  have nothing (k : ℕ) : (List.replicate k 0).foldl (fun v d => v * 16 + d) 0 = 0 := by
    induction k with
    | zero => rfl
    | succ k ih =>
      rw [List.replicate_succ, List.foldl_cons]
      exact ih
  have nonempty : hexDigits width n ≠ [] := by
    apply List.ne_nil_of_length_pos
    rw [hexDigits, List.length_leftpad]
    omega
  have all : (hexDigits width n).mapM (toDigit 16) =
      some (List.replicate (width - ((Nat.toDigits 16 n).map Char.toUpper).length) 0 ++ ds) := by
    rw [hexDigits, List.leftpad, List.mapM_append, zeros, read]
    rfl
  have total : (List.replicate (width - ((Nat.toDigits 16 n).map Char.toUpper).length) 0 ++ ds).foldl
      (fun v d => v * 16 + d) 0 = n := by
    rw [List.foldl_append, nothing, value]
  rw [fromStrRadix_digits nonempty all (by rw [total]; exact fits), total]

theorem isNumber_hex {c : Char} {width n : ℕ} (letter : numberChar c = true) :
    IsNumber ('0' :: c :: hexDigits width n) := by
  refine ⟨⟨'0', _, rfl, by decide⟩, ?_⟩
  intro d member
  simp only [List.mem_cons] at member
  rcases member with rfl | rfl | member
  · decide
  · exact letter
  · exact (hexDigits_char member).2

theorem literal_float {v : BitVec 64} (fits : v.toNat < 2 ^ 32) :
    literal ('0' :: 'f' :: hexDigits 8 v.toNat) = .float v 32 := by
  have float : floatValue ('0' :: 'f' :: hexDigits 8 v.toNat) = some (v, 32) := by
    have length : (hexDigits 8 v.toNat).length = 8 := hexDigits_length (by decide) fits
    simp only [floatValue, stripPrefix, List.isPrefixOf, beq_self_eq_true, Bool.and_true, if_true, List.length_cons,
      List.length_nil, List.drop_succ_cons, List.drop_zero, Option.some_or, Option.bind_eq_bind, Option.bind_some,
      length, List.all_eq_true.mpr fun c member => (hexDigits_char member).1,
      hexDigits_read (by decide : 0 < 8) v.isLt]
    simp
  rw [literal, float]

theorem literal_double {v : BitVec 64} : literal ('0' :: 'd' :: hexDigits 16 v.toNat) = .float v 64 := by
  have float : floatValue ('0' :: 'd' :: hexDigits 16 v.toNat) = some (v, 64) := by
    have length : (hexDigits 16 v.toNat).length = 16 := hexDigits_length (by decide) v.isLt
    have other {c : Char} (different : c ≠ 'd') : stripPrefix ['0', c] ('0' :: 'd' :: hexDigits 16 v.toNat) = none := by
      simp [stripPrefix, different]
    have found : stripPrefix ['0', 'd'] ('0' :: 'd' :: hexDigits 16 v.toNat) = some (hexDigits 16 v.toNat) := by
      simp [stripPrefix]
    simp only [floatValue, other (by decide : 'f' ≠ 'd'), other (by decide : 'F' ≠ 'd'), found, Option.none_or,
      Option.some_or, Option.map_some, Option.bind_eq_bind, Option.bind_some, length,
      List.all_eq_true.mpr fun c member => (hexDigits_char member).1, hexDigits_read (by decide : 0 < 16) v.isLt]
    simp
  rw [literal, float]

end E5r.PtxNumerals
