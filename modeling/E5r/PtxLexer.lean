import E5r.RustText

/-!
Tokens of PTX. Comments and whitespace are dropped, and everything else is kept,
so that two texts with the same tokens say the same to the assembler.
-/
namespace E5r.PtxLexer
open RustText

inductive Tok where
  /-- Identifier, directive, opcode or register. -/
  | word (w : String)
  /-- An integer literal, by value. -/
  | int (v : ℤ)
  /-- A numeric literal that is not an integer, as written. -/
  | num (s : String)
  /-- A float literal by its bits and its width. -/
  | float (v : BitVec 64) (w : ℕ)
  | punct (c : Char)
deriving DecidableEq

/-- A token and its line. -/
structure Token where
  tok : Tok
  line : ℕ
deriving DecidableEq

inductive LexError where
  | unterminatedComment (line : ℕ)
  | unexpectedCharacter (line : ℕ) (c : Char)
deriving DecidableEq

def isAsciiDigit (c : Char) : Bool := 48 ≤ c.toNat && c.toNat ≤ 57
def isAsciiAlphabetic (c : Char) : Bool :=
  (65 ≤ c.toNat && c.toNat ≤ 90) || (97 ≤ c.toNat && c.toNat ≤ 122)
def isAsciiAlphanumeric (c : Char) : Bool := isAsciiAlphabetic c || isAsciiDigit c
def isAsciiHexdigit (c : Char) : Bool :=
  isAsciiDigit c || (65 ≤ c.toNat && c.toNat ≤ 70) || (97 ≤ c.toNat && c.toNat ≤ 102)

/-- The characters that a name has besides letters and digits. -/
def isNameSign (c : Char) : Bool := c = '_' || c = '$' || c = '%' || c = '.'

def wordStart (c : Char) : Bool := isAsciiAlphabetic c || isNameSign c
def wordChar (c : Char) : Bool := isAsciiAlphanumeric c || isNameSign c

/-- The characters of a numeric literal. -/
def numberChar (c : Char) : Bool := isAsciiAlphanumeric c || c = '.'

def isPunctuation (c : Char) : Bool := "{}()[]<>,;:@!+-".toList.contains c

/-- Integer literal value: decimal or `0x` hex, with an optional `U` suffix. The
    text has no sign. -/
def intValue (s : List Char) : Option ℤ :=
  let s := (stripSuffix ['U'] s).getD s
  match (stripPrefix ['0', 'x'] s).or (stripPrefix ['0', 'X'] s) with
  | some h => (fromStrRadix 16 (2 ^ 127) h).map Int.ofNat
  | none =>
    if 1 < s.length && s.head? = some '0' then none
    else (fromStrRadix 10 (2 ^ 127) s).map Int.ofNat

/-- `0f` and 8 or `0d` and 16 hex digits: a float literal by its bits. -/
def floatValue (s : List Char) : Option (BitVec 64 × ℕ) := do
  let (h, w) ←
    match (stripPrefix ['0', 'f'] s).or (stripPrefix ['0', 'F'] s) with
    | some h => some (h, 32)
    | none => ((stripPrefix ['0', 'd'] s).or (stripPrefix ['0', 'D'] s)).map (fun h => (h, 64))
  if h.length ≠ w / 4 ∨ !h.all isAsciiHexdigit then none
  else (fromStrRadix 16 (2 ^ 64) h).map (fun v => (BitVec.ofNat 64 v, w))

def literal (text : List Char) : Tok :=
  match floatValue text, intValue text with
  | some (v, w), _ => .float v w
  | none, some v => .int v
  | none, none => .num (String.ofList text)

def skipComment : ℕ → List Char → Option (ℕ × List Char)
  | _, [] => none
  | line, '*' :: '/' :: rest => some (line, rest)
  | line, c :: rest => skipComment (if c = '\n' then line + 1 else line) rest

/-- Tokens of a text with at most `fuel` characters, from a line on. Every token
    takes at least one character. -/
def lexFrom : ℕ → ℕ → List Char → Except LexError (List Token)
  | 0, _, _ => .ok []
  | _ + 1, _, [] => .ok []
  | fuel + 1, line, c :: rest =>
    if c = '\n' then lexFrom fuel (line + 1) rest
    else if isWhitespace c then lexFrom fuel line rest
    else if c = '/' ∧ rest.head? = some '/' then lexFrom fuel line (rest.dropWhile (· ≠ '\n'))
    else if c = '/' ∧ rest.head? = some '*' then
      match skipComment line rest.tail with
      | none => .error (.unterminatedComment line)
      | some (after, text) => lexFrom fuel after text
    else if wordStart c then do
      let toks ← lexFrom fuel line (rest.dropWhile wordChar)
      return ⟨.word (String.ofList (c :: rest.takeWhile wordChar)), line⟩ :: toks
    else if isAsciiDigit c then do
      let toks ← lexFrom fuel line (rest.dropWhile numberChar)
      return ⟨literal (c :: rest.takeWhile numberChar), line⟩ :: toks
    else if isPunctuation c then do
      let toks ← lexFrom fuel line rest
      return ⟨.punct c, line⟩ :: toks
    else .error (.unexpectedCharacter line c)

def lex (src : String) : Except LexError (List Token) := lexFrom src.toList.length 1 src.toList

/-- The tokens of a text without their lines. -/
def toks (ts : List Token) : List Tok := ts.map Token.tok

/-- A text lexes to these tokens, whatever line it starts on. -/
def Lexes (cs : List Char) (ts : List Tok) : Prop :=
  ∀ fuel line, cs.length ≤ fuel → ∃ out, lexFrom fuel line cs = .ok out ∧ toks out = ts

theorem Lexes.lex {src : String} {ts : List Tok} (lexes : Lexes src.toList ts) :
    ∃ out, lex src = .ok out ∧ toks out = ts := lexes _ _ (le_refl _)

theorem lexes_nil : Lexes [] [] := by
  intro fuel line _
  cases fuel <;> exact ⟨[], rfl, rfl⟩

section
variable {c : Char} {cs : List Char} {ts : List Tok}

theorem Lexes.space (blank : isWhitespace c = true) (rest : Lexes cs ts) : Lexes (c :: cs) ts := by
  rintro (_ | fuel) line enough
  · simp at enough
  · have inside : cs.length ≤ fuel := by simpa using enough
    by_cases newline : c = '\n'
    · obtain ⟨out, lexed, same⟩ := rest fuel (line + 1) inside
      exact ⟨out, by simp [lexFrom, newline, lexed], same⟩
    · obtain ⟨out, lexed, same⟩ := rest fuel line inside
      exact ⟨out, by simp [lexFrom, newline, blank, lexed], same⟩

private theorem not_blank {p : Bool} (visible : p = true → 33 ≤ c.toNat ∧ c.toNat ≤ 126 ∧ c ≠ '/') (is : p = true) :
    c ≠ '\n' ∧ isWhitespace c = false ∧ c ≠ '/' := by
  obtain ⟨low, high, slash⟩ := visible is
  refine ⟨?_, ?_, slash⟩
  · rintro rfl
    revert low
    decide
  · simp only [isWhitespace, Bool.or_eq_false_iff, Bool.and_eq_false_iff, decide_eq_false_iff_not]
    omega

private theorem wordStart_visible (start : wordStart c = true) : 33 ≤ c.toNat ∧ c.toNat ≤ 126 ∧ c ≠ '/' := by
  simp only [wordStart, isAsciiAlphabetic, isNameSign, Bool.or_eq_true, Bool.and_eq_true, decide_eq_true_iff] at start
  rcases start with letter | ((sign | sign) | sign) | sign
  · refine ⟨by omega, by omega, ?_⟩
    rintro rfl
    revert letter
    decide
  all_goals
    subst sign
    decide

private theorem digit_visible (digit : isAsciiDigit c = true) :
    (33 ≤ c.toNat ∧ c.toNat ≤ 126 ∧ c ≠ '/') ∧ wordStart c = false := by
  simp only [isAsciiDigit, Bool.and_eq_true, decide_eq_true_iff] at digit
  refine ⟨⟨by omega, by omega, ?_⟩, ?_⟩
  · rintro rfl
    revert digit
    decide
  · cases start : wordStart c with
    | false => rfl
    | true =>
      simp only [wordStart, isAsciiAlphabetic, isNameSign, Bool.or_eq_true, Bool.and_eq_true,
        decide_eq_true_iff] at start
      rcases start with letter | ((sign | sign) | sign) | sign
      · omega
      all_goals
        subst sign
        revert digit
        decide

private theorem punct_visible (punct : isPunctuation c = true) :
    (33 ≤ c.toNat ∧ c.toNat ≤ 126 ∧ c ≠ '/') ∧ wordStart c = false ∧ isAsciiDigit c = false := by
  have all : "{}()[]<>,;:@!+-".toList.all (fun d => decide ((33 ≤ d.toNat ∧ d.toNat ≤ 126 ∧ d ≠ '/') ∧
      wordStart d = false ∧ isAsciiDigit d = false)) = true := by decide
  exact of_decide_eq_true (List.all_eq_true.mp all c (List.contains_iff_mem.mp punct))

theorem Lexes.punct (punct : isPunctuation c = true) (rest : Lexes cs ts) : Lexes (c :: cs) (.punct c :: ts) := by
  rintro (_ | fuel) line enough
  · simp at enough
  · obtain ⟨out, lexed, same⟩ := rest fuel line (by simpa using enough)
    obtain ⟨visible, noWord, noDigit⟩ := punct_visible punct
    obtain ⟨newline, blank, slash⟩ := not_blank (fun _ => visible) punct
    refine ⟨⟨.punct c, line⟩ :: out, ?_, by simpa [toks] using same⟩
    simp [lexFrom, newline, blank, slash, noWord, noDigit, punct, lexed]

/-- What follows does not continue a word or a literal. -/
def Boundary (cs : List Char) : Prop := ∀ c ∈ cs.head?, wordChar c = false

private theorem take_drop {p : Char → Bool} {w rest : List Char} (inside : ∀ c ∈ w, p c = true)
    (outside : ∀ c ∈ rest.head?, p c = false) : (w ++ rest).takeWhile p = w ∧ (w ++ rest).dropWhile p = rest := by
  have stop : rest.takeWhile p = [] ∧ rest.dropWhile p = rest := by
    cases rest with
    | nil => exact ⟨rfl, rfl⟩
    | cons d rest =>
      have := outside d rfl
      simp [this]
  rw [List.takeWhile_append_of_pos inside, List.dropWhile_append_of_pos inside, stop.1, stop.2, List.append_nil]
  exact ⟨rfl, rfl⟩

structure IsWord (w : List Char) : Prop where
  start : ∃ c rest, w = c :: rest ∧ wordStart c = true
  chars : ∀ c ∈ w, wordChar c = true

theorem Lexes.word {w : List Char} (isWord : IsWord w) (stop : Boundary cs) (rest : Lexes cs ts) :
    Lexes (w ++ cs) (.word (String.ofList w) :: ts) := by
  obtain ⟨⟨c, w, rfl, start⟩, chars⟩ := isWord
  rintro (_ | fuel) line enough
  · simp at enough
  · have short : cs.length ≤ fuel := by
      simp only [List.cons_append, List.length_cons, List.length_append] at enough
      omega
    obtain ⟨out, lexed, same⟩ := rest fuel line short
    obtain ⟨newline, blank, slash⟩ := not_blank (fun _ => wordStart_visible start) start
    obtain ⟨take, drop⟩ := take_drop (fun d member => chars d (List.mem_cons_of_mem c member)) stop
    refine ⟨⟨.word (String.ofList (c :: w)), line⟩ :: out, ?_, by simpa [toks] using same⟩
    simp only [List.cons_append, lexFrom, newline, if_false, blank, Bool.false_eq_true, slash, false_and, start,
      if_true, take, drop, lexed]
    rfl

/-- The text of a numeric literal. -/
structure IsNumber (w : List Char) : Prop where
  start : ∃ c rest, w = c :: rest ∧ isAsciiDigit c = true
  chars : ∀ c ∈ w, numberChar c = true

theorem wordChar_of_numberChar (number : numberChar c = true) : wordChar c = true := by
  simp only [numberChar, Bool.or_eq_true, decide_eq_true_iff] at number
  simp only [wordChar, isNameSign, Bool.or_eq_true, decide_eq_true_iff]
  rcases number with letter | dot
  · exact .inl letter
  · exact .inr (.inr dot)

theorem Lexes.number {w : List Char} (isNumber : IsNumber w) (stop : Boundary cs) (rest : Lexes cs ts) :
    Lexes (w ++ cs) (literal w :: ts) := by
  obtain ⟨⟨c, w, rfl, digit⟩, chars⟩ := isNumber
  rintro (_ | fuel) line enough
  · simp at enough
  · have short : cs.length ≤ fuel := by
      simp only [List.cons_append, List.length_cons, List.length_append] at enough
      omega
    obtain ⟨out, lexed, same⟩ := rest fuel line short
    obtain ⟨visible, noWord⟩ := digit_visible digit
    obtain ⟨newline, blank, slash⟩ := not_blank (fun _ => visible) digit
    have outside : ∀ d ∈ cs.head?, numberChar d = false := by
      intro d head
      have := stop d head
      cases number : numberChar d with
      | false => rfl
      | true =>
        rw [wordChar_of_numberChar number] at this
        contradiction
    obtain ⟨take, drop⟩ := take_drop (fun d member => chars d (List.mem_cons_of_mem c member)) outside
    refine ⟨⟨literal (c :: w), line⟩ :: out, ?_, by simpa [toks] using same⟩
    simp only [List.cons_append, lexFrom, newline, if_false, blank, Bool.false_eq_true, slash, false_and, noWord,
      digit, if_true, take, drop, lexed]
    rfl
end

/-- A token that the lexer can give. -/
def Valid : Tok → Prop
  | .word w => IsWord w.toList
  | .int v => 0 ≤ v ∧ v < 2 ^ 127
  | .num s => IsNumber s.toList ∧ literal s.toList = .num s
  | .float v w => (w = 32 ∧ v.toNat < 2 ^ 32) ∨ w = 64
  | .punct c => isPunctuation c = true

private theorem word_valid {c : Char} {rest : List Char} (start : wordStart c = true) :
    Valid (.word (String.ofList (c :: rest.takeWhile wordChar))) := by
  have head : wordChar c = true := by
    simp only [wordStart, Bool.or_eq_true] at start
    simp only [wordChar, isAsciiAlphanumeric, Bool.or_eq_true]
    rcases start with letter | sign
    · exact .inl (.inl letter)
    · exact .inr sign
  show IsWord (String.ofList (c :: rest.takeWhile wordChar)).toList
  rw [String.toList_ofList]
  refine ⟨⟨c, _, rfl, start⟩, ?_⟩
  intro d member
  rcases List.mem_cons.mp member with rfl | member
  · exact head
  · exact List.mem_takeWhile_imp member

private theorem intValue_bounds {s : List Char} {v : ℤ} (read : intValue s = some v) : 0 ≤ v ∧ v < 2 ^ 127 := by
  have cast {radix : ℕ} {h : List Char} (found : (fromStrRadix radix (2 ^ 127) h).map Int.ofNat = some v) :
      0 ≤ v ∧ v < 2 ^ 127 := by
    obtain ⟨n, numeral, rfl⟩ := Option.map_eq_some_iff.mp found
    have := (fromStrRadix_lt numeral).1
    refine ⟨Int.natCast_nonneg n, ?_⟩
    show (n : ℤ) < 2 ^ 127
    exact_mod_cast this
  simp only [intValue] at read
  split at read
  · exact cast read
  · split at read
    · contradiction
    · exact cast read

private theorem floatValue_bounds {s : List Char} {v : BitVec 64} {w : ℕ} (read : floatValue s = some (v, w)) :
    (w = 32 ∧ v.toNat < 2 ^ 32) ∨ w = 64 := by
  have widths {h : List Char} {k : ℕ} (known : k = 32 ∨ k = 64)
      (found : (if h.length ≠ k / 4 ∨ (!h.all isAsciiHexdigit) = true then none
        else (fromStrRadix 16 (2 ^ 64) h).map (fun v => (BitVec.ofNat 64 v, k))) = some (v, w)) :
      (w = 32 ∧ v.toNat < 2 ^ 32) ∨ w = 64 := by
    split at found
    · contradiction
    · next shape =>
      rw [not_or, not_not] at shape
      obtain ⟨n, numeral, equal⟩ := Option.map_eq_some_iff.mp found
      obtain ⟨rfl, rfl⟩ : BitVec.ofNat 64 n = v ∧ k = w := by simpa using equal
      rcases known with rfl | rfl
      · left
        obtain ⟨small, power⟩ := fromStrRadix_lt numeral
        rw [shape.1] at power
        refine ⟨rfl, ?_⟩
        rw [BitVec.toNat_ofNat, Nat.mod_eq_of_lt small]
        exact power
      · exact .inr rfl
  simp only [floatValue, Option.bind_eq_bind] at read
  split at read
  · exact widths (.inl rfl) read
  · obtain ⟨⟨h, k⟩, found, rest⟩ := Option.bind_eq_some_iff.mp read
    obtain ⟨_, _, equal⟩ := Option.map_eq_some_iff.mp found
    obtain ⟨rfl, rfl⟩ := Prod.mk.inj equal
    exact widths (.inr rfl) rest

theorem literal_valid {w : List Char} (isNumber : IsNumber w) : Valid (literal w) := by
  unfold literal
  split
  · next float => exact floatValue_bounds float
  · next int => exact intValue_bounds int
  · next noFloat noInt =>
    show IsNumber (String.ofList w).toList ∧ literal (String.ofList w).toList = .num (String.ofList w)
    rw [String.toList_ofList]
    refine ⟨isNumber, ?_⟩
    simp [literal, noFloat, noInt]

private theorem number_shape {c : Char} {rest : List Char} (digit : isAsciiDigit c = true) :
    IsNumber (c :: rest.takeWhile numberChar) := by
  refine ⟨⟨c, _, rfl, digit⟩, ?_⟩
  intro d member
  rcases List.mem_cons.mp member with rfl | member
  · simp [numberChar, isAsciiAlphanumeric, digit]
  · exact List.mem_takeWhile_imp member

private theorem lexFrom_valid (fuel : ℕ) : ∀ {line : ℕ} {cs : List Char} {ts : List Token},
    lexFrom fuel line cs = .ok ts → ∀ t ∈ ts, Valid t.tok := by
  have step {tok : Tok} {line : ℕ} {result : Except LexError (List Token)} {ts : List Token} (valid : Valid tok)
      (rest : ∀ {out}, result = .ok out → ∀ t ∈ out, Valid t.tok)
      (lexed : (do let toks ← result; return (⟨tok, line⟩ :: toks)) = Except.ok ts) : ∀ t ∈ ts, Valid t.tok := by
    cases result with
    | error e => cases lexed
    | ok out =>
      obtain rfl : ⟨tok, line⟩ :: out = ts := by simpa using lexed
      intro t member
      rcases List.mem_cons.mp member with rfl | member
      · exact valid
      · exact rest rfl t member
  induction fuel with
  | zero =>
    intro line cs ts lexed
    obtain rfl : [] = ts := by simpa [lexFrom] using lexed
    simp
  | succ fuel ih =>
    intro line cs ts lexed
    cases cs with
    | nil =>
      obtain rfl : [] = ts := by simpa [lexFrom] using lexed
      simp
    | cons c rest =>
      rw [lexFrom] at lexed
      split at lexed
      · exact ih lexed
      split at lexed
      · exact ih lexed
      split at lexed
      · exact ih lexed
      split at lexed
      · split at lexed
        · contradiction
        · exact ih lexed
      split at lexed
      · next start => exact step (word_valid start) ih lexed
      split at lexed
      · next digit => exact step (literal_valid (number_shape digit)) ih lexed
      split at lexed
      · next punct => exact @step (.punct c) _ _ _ punct ih lexed
      · contradiction

theorem lex_valid {src : String} {ts : List Token} (lexed : lex src = .ok ts) : ∀ t ∈ ts, Valid t.tok :=
  lexFrom_valid _ lexed

end E5r.PtxLexer
