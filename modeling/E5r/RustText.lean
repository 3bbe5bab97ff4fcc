import Mathlib.Data.List.DropRight
import Mathlib.Data.Nat.Digits.Defs

/-!
The text functions of the Rust standard library that readers of line-based
formats use, over the characters of a text.
-/
namespace E5r.RustText

theorem forall_mem_of_all {α : Type} {p : α → Prop} [DecidablePred p] {l : List α}
    (all : (l.all fun x => decide (p x)) = true) : ∀ x ∈ l, p x :=
  fun x member => of_decide_eq_true (List.all_eq_true.mp all x member)

theorem forall_some_of_all {α : Type} {p : α → Prop} [DecidablePred p] {o : Option α}
    (all : (o.all fun x => decide (p x)) = true) : ∀ x, o = some x → p x := by
  rintro x rfl
  exact of_decide_eq_true all

/-- `char::is_whitespace`, the Unicode property `White_Space`. -/
def isWhitespace (c : Char) : Bool :=
  let n := c.toNat
  (9 ≤ n && n ≤ 13) || n = 32 || n = 0x85 || n = 0xa0 || n = 0x1680 || (0x2000 ≤ n && n ≤ 0x200a) ||
    n = 0x2028 || n = 0x2029 || n = 0x202f || n = 0x205f || n = 0x3000

def trimStart (s : List Char) : List Char := s.dropWhile isWhitespace
def trim (s : List Char) : List Char := (trimStart s).rdropWhile isWhitespace
def splitWhitespace (s : List Char) : List (List Char) := (s.splitOnP isWhitespace).filter (fun w => !w.isEmpty)

def stripPrefix (p s : List Char) : Option (List Char) :=
  if p.isPrefixOf s then some (s.drop p.length) else none
def stripSuffix (p s : List Char) : Option (List Char) :=
  if p.isSuffixOf s then some (s.take (s.length - p.length)) else none

/-- `str::split_once` at a character: what stands before and after its first
    occurrence. -/
def splitOnce (c : Char) : List Char → Option (List Char × List Char)
  | [] => none
  | d :: rest => if d = c then some ([], rest) else (splitOnce c rest).map (fun (a, b) => (d :: a, b))

/-- `str::lines`: a line ends at a line feed, which takes one carriage return
    before it along, and a final line without a line feed keeps its text. -/
def linesFrom (line : List Char) : List Char → List (List Char)
  | [] => if line.isEmpty then [] else [line.reverse]
  | c :: rest =>
    if c = '\n' then
      (match line with
        | '\r' :: before => before.reverse
        | _ => line.reverse) :: linesFrom [] rest
    else linesFrom (c :: line) rest
def lines (s : List Char) : List (List Char) := linesFrom [] s

/-- `char::to_digit`. -/
def toDigit (radix : ℕ) (c : Char) : Option ℕ :=
  let n := c.toNat
  let value :=
    if 48 ≤ n ∧ n ≤ 57 then some (n - 48)
    else if 97 ≤ n ∧ n ≤ 122 then some (n - 87)
    else if 65 ≤ n ∧ n ≤ 90 then some (n - 55)
    else none
  value.filter (fun v => v < radix)

private def digits (radix bound : ℕ) (s : List Char) : Option ℕ := do
  let ds ← s.mapM (toDigit radix)
  let value := ds.foldl (fun v d => v * radix + d) 0
  if value < bound then some value else none

/-- `from_str_radix` of an unsigned type whose values lie below `bound`: an
    optional plus sign and at least one digit. -/
def fromStrRadix (radix bound : ℕ) : List Char → Option ℕ
  | [] | ['+'] | ['-'] => none
  | '+' :: rest => digits radix bound rest
  | s => digits radix bound s

/-- The character at the start of UTF-8 bytes and how many more bytes it takes, with
    `U+FFFD` for the longest start of a sequence that cannot be finished. -/
def utf8First (b : UInt8) (rest : List UInt8) : Char × ℕ :=
  let b := b.toNat
  let next (i : ℕ) : ℕ := (rest.getD i 0).toNat
  let within (i lo hi : ℕ) : Bool := i < rest.length && lo ≤ next i && next i ≤ hi
  if b < 0x80 then (Char.ofNat b, 0)
  else if 0xc2 ≤ b ∧ b ≤ 0xdf then
    if within 0 0x80 0xbf then (Char.ofNat ((b - 0xc0) * 64 + (next 0 - 0x80)), 1) else (Char.ofNat 0xfffd, 0)
  else if 0xe0 ≤ b ∧ b ≤ 0xef then
    if within 0 (if b = 0xe0 then 0xa0 else 0x80) (if b = 0xed then 0x9f else 0xbf) then
      if within 1 0x80 0xbf then
        (Char.ofNat ((b - 0xe0) * 4096 + (next 0 - 0x80) * 64 + (next 1 - 0x80)), 2)
      else (Char.ofNat 0xfffd, 1)
    else (Char.ofNat 0xfffd, 0)
  else if 0xf0 ≤ b ∧ b ≤ 0xf4 then
    if within 0 (if b = 0xf0 then 0x90 else 0x80) (if b = 0xf4 then 0x8f else 0xbf) then
      if within 1 0x80 0xbf then
        if within 2 0x80 0xbf then
          (Char.ofNat ((b - 0xf0) * 262144 + (next 0 - 0x80) * 4096 + (next 1 - 0x80) * 64 + (next 2 - 0x80)), 3)
        else (Char.ofNat 0xfffd, 2)
      else (Char.ofNat 0xfffd, 1)
    else (Char.ofNat 0xfffd, 0)
  else (Char.ofNat 0xfffd, 0)

/-- `String::from_utf8_lossy`, with a bound on the characters. -/
def utf8LossyFrom : ℕ → List UInt8 → List Char
  | 0, _ | _, [] => []
  | fuel + 1, b :: rest =>
    let (c, n) := utf8First b rest
    c :: utf8LossyFrom fuel (rest.drop n)
def fromUtf8Lossy (bs : List UInt8) : String := String.ofList (utf8LossyFrom bs.length bs)

theorem length_trimStart_le (s : List Char) : (trimStart s).length ≤ s.length :=
  (List.dropWhile_suffix isWhitespace).length_le

variable {s : List Char}

theorem splitOnce_length {c : Char} {a b : List Char} (split : splitOnce c s = some (a, b)) :
    s.length = a.length + b.length + 1 := by
  induction s generalizing a b with
  | nil => simp [splitOnce] at split
  | cons d rest ih =>
    rw [splitOnce] at split
    split at split
    · obtain ⟨rfl, rfl⟩ : [] = a ∧ rest = b := by simpa using split
      simp
    · obtain ⟨⟨x, y⟩, found, equal⟩ := Option.map_eq_some_iff.mp split
      obtain ⟨rfl, rfl⟩ : d :: x = a ∧ y = b := by simpa using equal
      have := ih found
      simp only [List.length_cons]
      omega

variable {radix : ℕ}

private theorem toDigit_lt {d : ℕ} {c : Char} (read : toDigit radix c = some d) : d < radix := by
  simp only [toDigit, Option.filter_eq_some_iff, decide_eq_true_iff] at read
  exact read.2

private theorem foldl_digits_lt {ds : List ℕ} (small : ∀ d ∈ ds, d < radix) (v k : ℕ) (start : v < radix ^ k) :
    ds.foldl (fun v d => v * radix + d) v < radix ^ (k + ds.length) := by
  induction ds generalizing v k with
  | nil => exact start
  | cons d ds ih =>
    have next : v * radix + d < radix ^ (k + 1) := by
      have digit := small d List.mem_cons_self
      have := Nat.mul_le_mul_right radix start
      rw [Nat.succ_mul] at this
      rw [pow_succ]
      omega
    have := ih (fun e member => small e (List.mem_cons_of_mem d member)) _ (k + 1) next
    rw [List.foldl_cons, List.length_cons]
    rwa [Nat.add_right_comm] at this

private theorem mapM_digits {ds : List ℕ} (each : s.mapM (toDigit radix) = some ds) :
    ds.length = s.length ∧ ∀ d ∈ ds, d < radix := by
  induction s generalizing ds with
  | nil =>
    obtain rfl : [] = ds := by simpa using each
    simp
  | cons c rest ih =>
    simp only [List.mapM_cons, Option.bind_eq_bind, Option.bind_eq_some_iff] at each
    obtain ⟨d, digit, tail, digits, equal⟩ := each
    obtain rfl : d :: tail = ds := by simpa using equal
    obtain ⟨length, small⟩ := ih digits
    refine ⟨by simp [length], ?_⟩
    intro e member
    rcases List.mem_cons.mp member with rfl | member
    · exact toDigit_lt digit
    · exact small e member

private theorem digits_lt {bound v : ℕ} (read : digits radix bound s = some v) : v < bound ∧ v < radix ^ s.length := by
  simp only [digits, Option.bind_eq_bind, Option.bind_eq_some_iff] at read
  obtain ⟨ds, each, inside⟩ := read
  obtain ⟨small, rfl⟩ : _ < bound ∧ _ = v := by simpa using inside
  refine ⟨small, ?_⟩
  obtain ⟨length, bounded⟩ := mapM_digits each
  have := foldl_digits_lt bounded 0 0 (by norm_num)
  rwa [Nat.zero_add, length] at this

/-- A numeral is below the bound of its type, and below the power of its length. -/
theorem fromStrRadix_lt {bound v : ℕ} (read : fromStrRadix radix bound s = some v) :
    v < bound ∧ v < radix ^ s.length := by
  unfold fromStrRadix at read
  split at read
  · contradiction
  · contradiction
  · contradiction
  · next rest _ =>
    obtain ⟨small, power⟩ := digits_lt read
    refine ⟨small, lt_of_lt_of_le power ?_⟩
    rcases Nat.eq_zero_or_pos radix with rfl | positive
    · cases rest <;> simp_all
    · exact Nat.pow_le_pow_right positive (by simp)
  · exact digits_lt read

theorem fromStrRadix_digits {bound : ℕ} {ds : List ℕ} (some : s ≠ []) (each : s.mapM (toDigit radix) = Option.some ds)
    (small : ds.foldl (fun v d => v * radix + d) 0 < bound) :
    fromStrRadix radix bound s = Option.some (ds.foldl (fun v d => v * radix + d) 0) := by
  have value : digits radix bound s = Option.some (ds.foldl (fun v d => v * radix + d) 0) := by
    simp [digits, each, small]
  have sign {c : Char} {rest : List Char} (head : s = c :: rest) : (toDigit radix c).isSome = true := by
    rw [head, List.mapM_cons] at each
    cases digit : toDigit radix c with
    | none => simp [digit] at each
    | some d => rfl
  unfold fromStrRadix
  split
  · exact absurd rfl some
  · exact absurd (sign rfl) (by simp [toDigit])
  · exact absurd (sign rfl) (by simp [toDigit])
  · exact absurd (sign rfl) (by simp [toDigit])
  · exact value

private theorem digits_eq_some_iff {bound v : ℕ} :
    digits radix bound s = some v ↔
      ∃ ds, s.mapM (toDigit radix) = some ds ∧ ds.foldl (fun v d => v * radix + d) 0 = v ∧ v < bound := by
  simp only [digits, Option.bind_eq_bind, Option.bind_eq_some_iff]
  refine exists_congr fun ds => and_congr_right fun _ => ?_
  constructor
  · intro inside
    obtain ⟨small, rfl⟩ : _ < bound ∧ _ = v := by simpa using inside
    exact ⟨rfl, small⟩
  · rintro ⟨rfl, small⟩
    exact if_pos small

/-- What is read as a number: digits, after a plus sign or none. -/
theorem fromStrRadix_eq_some_iff {bound v : ℕ} :
    fromStrRadix radix bound s = some v ↔ ∃ body ds, (s = body ∨ s = '+' :: body) ∧ body ≠ [] ∧
      body.mapM (toDigit radix) = some ds ∧ ds.foldl (fun v d => v * radix + d) 0 = v ∧ v < bound := by
  have sign {c : Char} {rest : List Char} {ds : List ℕ} (each : (c :: rest).mapM (toDigit radix) = some ds)
      (outside : c = '+' ∨ c = '-') : False := by
    have none : toDigit radix c = none := by
      rcases outside with rfl | rfl
      · simp [toDigit]
      · simp [toDigit]
    simp [none] at each
  unfold fromStrRadix
  constructor
  · intro read
    split at read
    · cases read
    · cases read
    · cases read
    · next rest some =>
      obtain ⟨ds, each, value⟩ := digits_eq_some_iff.mp read
      exact ⟨rest, ds, .inr rfl, fun empty => some (by rw [empty]), each, value⟩
    · next some _ _ _ =>
      obtain ⟨ds, each, value⟩ := digits_eq_some_iff.mp read
      exact ⟨s, ds, .inl rfl, fun empty => some empty, each, value⟩
  · rintro ⟨body, ds, rfl | rfl, nonempty, each, value⟩
    · split
      · exact absurd rfl nonempty
      · exact (sign each (.inl rfl)).elim
      · exact (sign each (.inr rfl)).elim
      · exact (sign each (.inl rfl)).elim
      · exact digits_eq_some_iff.mpr ⟨ds, each, value⟩
    · split
      · next absurd => cases absurd
      · next single =>
        exact absurd (List.cons.inj single).2 nonempty
      · next absurd =>
        cases absurd
      · next rest _ same =>
        obtain rfl := (List.cons.inj same).2
        exact digits_eq_some_iff.mpr ⟨ds, each, value⟩
      · next other => exact absurd rfl (other body)

end E5r.RustText
