import E5r.Numerals

/-!
Texts written line by line and read back: the lines of a text, the words of a line,
the numbers of a field and the place of a key.
-/
namespace E5r.LineText
open RustText Numerals

def writeLines (ls : List (List Char)) : List Char := ls.flatMap fun line => line ++ ['\n']

structure Line (line : List Char) : Prop where
  feed : '\n' ∉ line
  ends : line.getLast? ≠ some '\r'

private theorem linesFrom_char {c : Char} (other : c ≠ '\n') (a rest : List Char) :
    linesFrom a (c :: rest) = linesFrom (c :: a) rest := by
  rw [linesFrom.eq_def]
  exact if_neg other

private theorem linesFrom_feed (line rest : List Char) (ends : line.getLast? ≠ some '\r') :
    linesFrom line.reverse ('\n' :: rest) = line :: linesFrom [] rest := by
  rw [linesFrom.eq_def]
  dsimp only
  rw [if_pos rfl]
  congr 1
  split
  · next before same =>
    have : line = before.reverse ++ ['\r'] := by
      rw [← List.reverse_reverse line, same, List.reverse_cons]
    exact absurd (by rw [this, List.getLast?_concat]) ends
  · exact List.reverse_reverse line

private theorem linesFrom_line {a line rest : List Char} (feed : '\n' ∉ line) :
    linesFrom a (line ++ '\n' :: rest) = linesFrom (line.reverse ++ a) ('\n' :: rest) := by
  induction line generalizing a with
  | nil => rfl
  | cons c line ih =>
    obtain ⟨other, later⟩ := not_or.mp (List.mem_cons.not.mp feed)
    rw [List.cons_append, linesFrom_char (Ne.symm other), ih later]
    simp

theorem lines_writeLines {ls : List (List Char)} (plain : ∀ line ∈ ls, Line line) : lines (writeLines ls) = ls := by
  unfold lines
  induction ls with
  | nil => rfl
  | cons line ls ih =>
    have first := plain line (by simp)
    have shape : writeLines (line :: ls) = line ++ '\n' :: writeLines ls := by simp [writeLines]
    rw [shape, linesFrom_line first.feed, List.append_nil, linesFrom_feed line _ first.ends,
      ih fun l member => plain l (by simp [member])]

/-- Neither end of a text is white space. -/
structure Trimmed (s : List Char) : Prop where
  first : ∀ c, s.head? = some c → isWhitespace c = false
  last : ∀ c, s.getLast? = some c → isWhitespace c = false

theorem trimStart_eq {s : List Char} (first : ∀ c, s.head? = some c → isWhitespace c = false) : trimStart s = s := by
  cases s with
  | nil => rfl
  | cons c rest => rw [trimStart, List.dropWhile_cons_of_neg (by simpa using first c rfl)]

theorem trim_eq {s : List Char} (trimmed : Trimmed s) : trim s = s := by
  rw [trim, trimStart_eq trimmed.first, List.rdropWhile_eq_self_iff]
  intro some
  simpa using trimmed.last _ (List.getLast?_eq_some_getLast some)

structure Word (w : List Char) : Prop where
  nonempty : w ≠ []
  whole : ∀ c ∈ w, isWhitespace c = false

theorem isWhitespace_blank : isWhitespace ' ' = true := by decide

theorem splitWhitespace_word {w : List Char} (word : Word w) : splitWhitespace w = [w] := by
  rw [splitWhitespace, List.splitOnP_eq_singleton word.whole]
  simp [word.nonempty]

theorem splitWhitespace_cons {w : List Char} (word : Word w) (rest : List Char) :
    splitWhitespace (w ++ ' ' :: rest) = w :: splitWhitespace rest := by
  rw [splitWhitespace, List.splitOnP_append_cons_of_forall_mem word.whole ' ' isWhitespace_blank,
    List.filter_cons_of_pos (by simp [word.nonempty])]
  rfl

theorem stripPrefix_append (p s : List Char) : stripPrefix p (p ++ s) = some s := by
  rw [stripPrefix, if_pos (List.isPrefixOf_iff_prefix.mpr (List.prefix_append p s)), List.drop_left' rfl]

theorem stripSuffix_append (p s : List Char) : stripSuffix p (s ++ p) = some s := by
  rw [stripSuffix, if_pos (List.isSuffixOf_iff_suffix.mpr (List.suffix_append s p)), List.length_append,
    Nat.add_sub_cancel, List.take_left' rfl]

theorem splitOnce_append {c : Char} {a : List Char} (outside : c ∉ a) (b : List Char) :
    splitOnce c (a ++ c :: b) = some (a, b) := by
  induction a with
  | nil => simp [splitOnce]
  | cons d a ih =>
    obtain ⟨other, later⟩ := not_or.mp (List.mem_cons.not.mp outside)
    rw [List.cons_append, splitOnce, if_neg (Ne.symm other), ih later]
    rfl

/-- `{}` of an unsigned number. -/
def decimal (n : ℕ) : List Char := Nat.toDigits 10 n
/-- `{:x}` -/
def lowerHex (n : ℕ) : List Char := Nat.toDigits 16 n
/-- `{:0width$x}` -/
def paddedHex (width n : ℕ) : List Char := (lowerHex n).leftpad width '0'

theorem readsDigits_lower : ReadsDigits 16 id := ⟨by decide, by decide⟩

theorem read_toDigits {radix bound n : ℕ} (reads : ReadsDigits radix id) (small : n < bound) :
    fromStrRadix radix bound (Nat.toDigits radix n) = some n := by
  obtain ⟨ds, each, value⟩ := toDigits_read reads n
  rw [List.map_id] at each
  refine fromStrRadix_eq_some_iff.mpr ⟨_, ds, .inl rfl, ?_, each, value, small⟩
  exact List.ne_nil_of_length_pos Nat.length_toDigits_pos

theorem read_decimal {bound n : ℕ} (small : n < bound) : fromStrRadix 10 bound (decimal n) = some n :=
  read_toDigits readsDigits_decimal small

theorem read_lowerHex {bound n : ℕ} (small : n < bound) : fromStrRadix 16 bound (lowerHex n) = some n :=
  read_toDigits readsDigits_lower small

theorem read_paddedHex {width bound n : ℕ} (small : n < bound) : fromStrRadix 16 bound (paddedHex width n) = some n := by
  obtain ⟨ds, each, value⟩ := toDigits_read readsDigits_lower n
  rw [List.map_id] at each
  have zeros : ∀ k : ℕ, (List.replicate k '0').mapM (toDigit 16) = some (List.replicate k 0) := by
    intro k
    induction k with
    | zero => rfl
    | succ k ih =>
      rw [List.replicate_succ, List.mapM_cons, ih]
      rfl
  have skip : ∀ k : ℕ, (List.replicate k 0).foldl (fun v d => v * 16 + d) 0 = 0 := by
    intro k
    induction k with
    | zero => rfl
    | succ k ih => rw [List.replicate_succ, List.foldl_cons, Nat.zero_mul, ih]
  rw [paddedHex, List.leftpad]
  refine fromStrRadix_eq_some_iff.mpr ⟨_, List.replicate (width - (lowerHex n).length) 0 ++ ds, .inl rfl, ?_, ?_, ?_, small⟩
  · have := List.ne_nil_of_length_pos (Nat.length_toDigits_pos (b := 16) (n := n))
    simp [lowerHex, this]
  · rw [List.mapM_append, zeros]
    show (do let ys ← (Nat.toDigits 16 n).mapM (toDigit 16); pure (List.replicate (width - (lowerHex n).length) 0 ++ ys)) = _
    rw [each]
    rfl
  · rw [List.foldl_append, skip, value]

def NumberChar (c : Char) : Prop := ∃ d < 16, c = Nat.digitChar d

theorem decimal_chars {n : ℕ} : ∀ c ∈ decimal n, NumberChar c := by
  intro c member
  obtain ⟨d, small, same⟩ := mem_toDigits (by decide) member
  exact ⟨d, by omega, same⟩

theorem lowerHex_chars {n : ℕ} : ∀ c ∈ lowerHex n, NumberChar c :=
  fun _ member => mem_toDigits (by decide) member

theorem paddedHex_chars {width n : ℕ} : ∀ c ∈ paddedHex width n, NumberChar c := by
  intro c member
  rw [paddedHex, List.leftpad] at member
  rcases List.mem_append.mp member with zero | digit
  · exact ⟨0, by decide, (List.mem_replicate.mp zero).2⟩
  · exact lowerHex_chars c digit

theorem decimal_ne_nil {n : ℕ} : decimal n ≠ [] := List.ne_nil_of_length_pos Nat.length_toDigits_pos
theorem lowerHex_ne_nil {n : ℕ} : lowerHex n ≠ [] := List.ne_nil_of_length_pos Nat.length_toDigits_pos
theorem paddedHex_ne_nil {width n : ℕ} : paddedHex width n ≠ [] := by
  simp [paddedHex, List.leftpad, lowerHex_ne_nil]

theorem NumberChar.plain {c : Char} (digit : NumberChar c) :
    isWhitespace c = false ∧ c ≠ '"' ∧ c ≠ '=' ∧ c ≠ '\n' ∧ c ≠ ' ' ∧ c ≠ '-' := by
  obtain ⟨d, small, rfl⟩ := digit
  have all : ∀ d < 16, isWhitespace (Nat.digitChar d) = false ∧ Nat.digitChar d ≠ '"' ∧ Nat.digitChar d ≠ '=' ∧
      Nat.digitChar d ≠ '\n' ∧ Nat.digitChar d ≠ ' ' ∧ Nat.digitChar d ≠ '-' := by decide
  exact all d small

end E5r.LineText
