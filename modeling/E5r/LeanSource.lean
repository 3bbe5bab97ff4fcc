import E5r.AnnotationLog

/-!
# The text of a Lean source

A source is cut into words, single signs, and what is not code: comments, which nest, strings,
raw strings and character literals.
-/

namespace E5r.LeanSource

def isLetterLike (c : Char) : Bool :=
  (0x3b1 ≤ c.val && c.val ≤ 0x3c9 && c.val != 0x3bb) ||
  (0x391 ≤ c.val && c.val ≤ 0x3a9 && c.val != 0x3a0 && c.val != 0x3a3) ||
  (0x3ca ≤ c.val && c.val ≤ 0x3fb) ||
  (0x1f00 ≤ c.val && c.val ≤ 0x1ffe) ||
  (0x2100 ≤ c.val && c.val ≤ 0x214f) ||
  (0x1d49c ≤ c.val && c.val ≤ 0x1d59f) ||
  (0xc0 ≤ c.val && c.val ≤ 0x17f && c.val != 0xd7 && c.val != 0xf7)

def isSubscript (c : Char) : Bool :=
  (0x2080 ≤ c.val && c.val ≤ 0x2089) || (0x2090 ≤ c.val && c.val ≤ 0x209c) || (0x1d62 ≤ c.val && c.val ≤ 0x1d6a) ||
  c.val == 0x2c7c

def isIdFirst (c : Char) : Bool :=
  c.isAlpha || c == '_' || isLetterLike c

def isIdRest (c : Char) : Bool :=
  c.isAlphanum || c == '_' || c == '\'' || c == '!' || c == '?' || isLetterLike c || isSubscript c

def isNumeralRest (c : Char) : Bool :=
  c.isAlphanum || c == '_'

def isHex (c : Char) : Bool :=
  c.isDigit || ('a' ≤ c && c ≤ 'f') || ('A' ≤ c && c ≤ 'F')

inductive Kind where
  | comment
  | text
  | raw (hashes : ℕ)
  | character
  | word
  | sign
  deriving DecidableEq

structure Token where
  kind : Kind
  source : List Char
  deriving DecidableEq

/-- The characters up to the end of as many comments as are open. -/
def commentLength : ℕ → List Char → ℕ
  | 0, _ => 0
  | _ + 1, [] => 0
  | _ + 1, [_] => 1
  | depth + 1, c :: e :: s =>
    if c = '/' ∧ e = '-' then 2 + commentLength (depth + 2) s
    else if c = '-' ∧ e = '/' then 2 + commentLength depth s
    else 1 + commentLength (depth + 1) (e :: s)

def stringLength : List Char → ℕ
  | [] => 0
  | [_] => 1
  | c :: e :: s =>
    if c = '"' then 1
    else if c = '\\' then 2 + stringLength s
    else 1 + stringLength (e :: s)

def rawHashes (s : List Char) : Option ℕ :=
  let hashes := (s.takeWhile fun c => c = '#').length
  if s[hashes]? = some '"' then some hashes else none

def rawLength (hashes : ℕ) : List Char → ℕ
  | [] => 0
  | c :: s =>
    if c = '"' ∧ List.replicate hashes '#' <+: s then 1 + hashes
    else 1 + rawLength hashes s

def literalLength (s : List Char) : Option ℕ :=
  match s with
  | [] => none
  | c :: s =>
    if c = '\'' then none
    else if c ≠ '\\' then
      if s.head? = some '\'' then some 2 else none
    else
      match s with
      | [] => none
      | e :: s =>
        if s.head? = some '\'' then some 3
        else if e = 'x' ∧ (s.take 2).all isHex ∧ s[2]? = some '\'' then some 5
        else if e = 'u' ∧ (s.take 4).all isHex ∧ s[4]? = some '\'' then some 7
        else none

/-- The kind of the token at a position in code, and its characters behind the first. -/
def next (c : Char) (s : List Char) : Kind × ℕ :=
  if c = '/' ∧ s.head? = some '-' then (.comment, 1 + commentLength 1 s.tail)
  else if c = '-' ∧ s.head? = some '-' then (.comment, (s.takeWhile fun d => d ≠ '\n').length)
  else if c = '"' then (.text, stringLength s)
  else
    match if c = 'r' then rawHashes s else none with
    | some hashes => (.raw hashes, hashes + 1 + rawLength hashes (s.drop (hashes + 1)))
    | none =>
      match if c = '\'' then literalLength s else none with
      | some n => (.character, n)
      | none =>
        if c.isDigit then (.word, (s.takeWhile isNumeralRest).length)
        else if isIdFirst c then (.word, (s.takeWhile isIdRest).length)
        else (.sign, 0)

/-- The tokens of a source. -/
def lex : List Char → List Token
  | [] => []
  | c :: s => ⟨(next c s).1, c :: s.take (next c s).2⟩ :: lex (s.drop (next c s).2)
termination_by s => s.length
decreasing_by
  simp only [List.length_drop, List.length_cons]
  omega

/-- A word as it stands in a source; a command is a sign and a word. -/
def pieces : List Char → List Token
  | '#' :: w => [⟨.sign, ['#']⟩, ⟨.word, w⟩]
  | w => [⟨.word, w⟩]

/-- The word is a whole token in code. -/
def Occurs (w s : List Char) : Prop :=
  ∃ before after, lex s = before ++ pieces w ++ after

end E5r.LeanSource
