import E5r.LeanSource

/-!
# The scan of a proof for escapes

The scan takes comments and literals out of a source byte by byte, and looks for forbidden
words in what is left.
-/

namespace E5r.EscapeScan

open LeanSource

/-! ### The scan -/

def byte (c : Char) : UInt8 :=
  c.val.toUInt8

def asChar (b : UInt8) : Char :=
  Char.ofNat b.toNat

def isAsciiAlphanumeric (b : UInt8) : Bool :=
  (byte '0' ≤ b && b ≤ byte '9') || (byte 'A' ≤ b && b ≤ byte 'Z') || (byte 'a' ≤ b && b ≤ byte 'z')

def startsWith (x y : Char) (b : List UInt8) : Bool :=
  b[0]? == some (byte x) && b[1]? == some (byte y)

/-- An apostrophe that the scan takes for the start of a character literal. -/
def startsLiteral (before : Option UInt8) (b : List UInt8) : Bool :=
  b[0]? == some (byte '\'') &&
    !(before.any fun p => isAsciiAlphanumeric p || p == byte '_' || p == byte '\'') &&
    (b[2]? == some (byte '\'') || (b[1]? == some (byte '\\') && b[3]? == some (byte '\'')))

/-- The bytes from behind a quote to behind the next. -/
def quoted : List UInt8 → ℕ
  | [] => 0
  | [_] => 1
  | b :: d :: rest =>
    if b = byte '"' then 1
    else if b = byte '\\' then 2 + quoted rest
    else 1 + quoted (d :: rest)

/-- Strip comments and string literals from what follows the bytes that are done, which
    are kept last first. -/
def leanCodeFrom (depth : ℕ) (done : List UInt8) (b : List UInt8) : List Char :=
  match b with
  | [] => []
  | c :: rest =>
    if 0 < depth then
      if startsWith '/' '-' (c :: rest) then
        leanCodeFrom (depth + 1) (byte '-' :: byte '/' :: done) (rest.drop 1)
      else if startsWith '-' '/' (c :: rest) then
        leanCodeFrom (depth - 1) (byte '/' :: byte '-' :: done) (rest.drop 1)
      else leanCodeFrom depth (c :: done) rest
    else if startsWith '/' '-' (c :: rest) then
      leanCodeFrom 1 (byte '-' :: byte '/' :: done) (rest.drop 1)
    else if startsWith '-' '-' (c :: rest) then
      let line := rest.takeWhile fun d => d ≠ byte '\n'
      leanCodeFrom 0 (line.reverse ++ c :: done) (rest.drop line.length)
    else if startsLiteral done.head? (c :: rest) then
      let more := if rest.head? = some (byte '\\') then 3 else 2
      "' '".toList ++ leanCodeFrom 0 ((rest.take more).reverse ++ c :: done) (rest.drop more)
    else if c = byte '"' then
      "\"\"".toList ++ leanCodeFrom 0 ((rest.take (quoted rest)).reverse ++ c :: done) (rest.drop (quoted rest))
    else asChar c :: leanCodeFrom 0 (c :: done) rest
termination_by b.length
decreasing_by all_goals simp only [List.length_drop, List.length_cons]; omega

def leanCode (src : List Char) : List Char :=
  leanCodeFrom 0 [] (src.flatMap String.utf8EncodeChar)

/-- `char::is_alphanumeric`, for the characters of a byte. -/
def isAlphanumeric (c : Char) : Bool :=
  c.isAlphanum || c == '\u00aa' || c == '\u00b2' || c == '\u00b3' || c == '\u00b5' || c == '\u00b9' || c == '\u00ba' ||
    c == '\u00bc' || c == '\u00bd' || c == '\u00be' || ('\u00c0' ≤ c && c != '\u00d7' && c != '\u00f7')

/-- `str::split` at the characters with a property. -/
def split (p : Char → Bool) : List Char → List (List Char)
  | [] => [[]]
  | c :: s =>
    if p c then [] :: split p s
    else
      match split p s with
      | [] => [[c]]
      | w :: ws => (c :: w) :: ws

/-- Commands and attributes that would let a proof bypass the kernel or add assumptions. -/
def FORBIDDEN : List String :=
  ["sorry", "admit", "axiom", "native_decide", "ofReduceBool", "implemented_by", "extern", "unsafe", "opaque",
    "skipKernelTC", "trustCompiler", "run_cmd", "run_elab", "run_meta", "#eval", "elab", "elab_rules", "macro",
    "macro_rules", "syntax", "initialize", "builtin_initialize", "addDecl"]

def words (code : List Char) : List (List Char) :=
  (split (fun c => !(isAlphanumeric c || c == '_' || c == '.' || c == '#')) code).flatMap (split fun c => c == '.')

def escapes (code : List Char) : List String :=
  FORBIDDEN.filter fun f => (words code).contains f.toList

/-- Every forbidden word that is a whole token in code is reported. -/
def Meets (src : List Char) : Prop :=
  ∀ f ∈ FORBIDDEN, Occurs f.toList src → f ∈ escapes (leanCode src)

/-! ### Words -/

section Splitting

variable {p q : Char → Bool}

theorem split_ne_nil (s : List Char) : split p s ≠ [] := by
  cases s with
  | nil => simp [split]
  | cons c s =>
    rw [split]
    split
    · simp
    · split <;> simp

theorem split_cons_keep {c : Char} {s w : List Char} {ws : List (List Char)} (keep : p c = false) (rest : split p s = w :: ws) :
    split p (c :: s) = (c :: w) :: ws := by
  rw [split, if_neg (by simp [keep]), rest]

theorem split_cons_cut {c : Char} {s : List Char} (cut : p c = true) : split p (c :: s) = [] :: split p s := by
  rw [split, if_pos cut]

theorem split_append_cut {d : Char} (cut : p d = true) (a b : List Char) :
    split p (a ++ d :: b) = split p a ++ split p b := by
  induction a with
  | nil => exact split_cons_cut cut
  | cons c a ih =>
    rw [List.cons_append]
    by_cases here : p c = true
    · rw [split_cons_cut here, ih, split_cons_cut here, List.cons_append]
    · obtain ⟨w, ws, whole⟩ := List.exists_cons_of_ne_nil (@split_ne_nil p a)
      have rest : split p (a ++ d :: b) = w :: (ws ++ split p b) := by
        rw [ih, whole, List.cons_append]
      rw [split_cons_keep (by simpa using here) rest, split_cons_keep (by simpa using here) whole, List.cons_append]

theorem split_of_none {w : List Char} (none : ∀ c ∈ w, p c = false) : split p w = [w] := by
  induction w with
  | nil => rfl
  | cons c w ih => exact split_cons_keep (none c (by simp)) (ih fun d member => none d (by simp [member]))

theorem flatMap_split (s : List Char) : (split p s).flatMap (split q) = split (fun c => p c || q c) s := by
  induction s with
  | nil => rfl
  | cons c s ih =>
    by_cases first : p c = true
    · rw [split_cons_cut first, List.flatMap_cons, ih, split_cons_cut (c := c) (by simp [first])]
      rfl
    · obtain ⟨w, ws, whole⟩ := List.exists_cons_of_ne_nil (@split_ne_nil p s)
      rw [whole, List.flatMap_cons] at ih
      rw [split_cons_keep (by simpa using first) whole, List.flatMap_cons]
      by_cases second : q c = true
      · rw [split_cons_cut second, split_cons_cut (c := c) (by simp [second]), ← ih]
        rfl
      · obtain ⟨v, vs, parts⟩ := List.exists_cons_of_ne_nil (@split_ne_nil q w)
        rw [split_cons_keep (by simpa using second) parts]
        rw [parts] at ih
        exact (split_cons_keep (by simp [first, second]) ih.symm).symm

theorem mem_split_iff {w s : List Char} : w ∈ split p s ↔ ∃ a b, s = a ++ w ++ b ∧ (∀ c ∈ w, p c = false) ∧
    (∀ c, a.getLast? = some c → p c = true) ∧ ∀ c, b.head? = some c → p c = true := by
  constructor
  · intro member
    induction length : s.length using Nat.strong_induction_on generalizing s with
    | _ n ih =>
      have whole := List.takeWhile_append_dropWhile (p := fun c => !p c) (l := s)
      have none : ∀ c ∈ s.takeWhile fun c => !p c, p c = false := by
        intro c inside
        simpa using List.mem_takeWhile_imp inside
      have first := List.head?_dropWhile_not (fun c => !p c) s
      generalize s.takeWhile (fun c => !p c) = a at whole none
      generalize s.dropWhile (fun c => !p c) = b at whole first
      subst whole
      cases b with
      | nil =>
        rw [List.append_nil, split_of_none none, List.mem_singleton] at member
        subst member
        exact ⟨[], [], by simp, none, by simp, by simp⟩
      | cons d rest =>
        have cut : p d = true := by simpa using first
        rw [split_append_cut cut, split_of_none none] at member
        rcases List.mem_append.mp member with here | later
        · rw [List.mem_singleton] at here
          subst here
          exact ⟨[], d :: rest, by simp, none, by simp, by simpa using cut⟩
        · obtain ⟨a', b, rfl, clean, left, right⟩ := ih rest.length (by simp at length; omega) later rfl
          refine ⟨a ++ d :: a', b, by simp, clean, ?_, right⟩
          intro c last
          rw [List.getLast?_append, List.getLast?_cons] at last
          cases a' with
          | nil =>
            obtain rfl : d = c := by simpa using last
            exact cut
          | cons e a' =>
            refine left c ?_
            rw [List.getLast?_eq_some_getLast (List.cons_ne_nil e a')] at last ⊢
            simpa using last
  · rintro ⟨a, b, rfl, none, left, right⟩
    have rest : w ∈ split p (w ++ b) := by
      cases b with
      | nil => rw [List.append_nil, split_of_none none]; exact List.mem_singleton_self w
      | cons e b =>
        rw [split_append_cut (right e rfl), split_of_none none]
        exact List.mem_append_left _ (List.mem_singleton_self w)
    rcases List.eq_nil_or_concat a with rfl | ⟨a, d, rfl⟩
    · exact rest
    · rw [List.concat_eq_append, List.append_assoc, List.append_assoc, List.singleton_append,
        split_append_cut (left d (by simp))]
      exact List.mem_append_right _ rest

end Splitting

/-- A character that the scan takes for a part of a word. -/
def joins (c : Char) : Bool :=
  isAlphanumeric c || c == '_' || c == '#'

theorem words_eq (code : List Char) : words code = split (fun c => !joins c) code := by
  rw [words, flatMap_split]
  congr 1
  funext c
  by_cases dot : c = '.'
  · subst dot
    decide
  · have other : (c == '.') = false := by simpa using dot
    simp [joins, other]

/-- A word stands by itself in what the scan looks through. -/
def Stands (w code : List Char) : Prop :=
  ∃ a b, code = a ++ w ++ b ∧ (∀ c, a.getLast? = some c → joins c = false) ∧ ∀ c, b.head? = some c → joins c = false

theorem mem_words_iff {w code : List Char} (joined : ∀ c ∈ w, joins c = true) : w ∈ words code ↔ Stands w code := by
  rw [words_eq, mem_split_iff]
  constructor
  · rintro ⟨a, b, whole, -, left, right⟩
    exact ⟨a, b, whole, fun c last => by simpa using left c last, fun c first => by simpa using right c first⟩
  · rintro ⟨a, b, whole, left, right⟩
    exact ⟨a, b, whole, fun c inside => by simp [joined c inside], fun c last => by simp [left c last],
      fun c first => by simp [right c first]⟩

/-! ### Bytes of characters -/

def bytes (s : List Char) : List UInt8 :=
  s.flatMap String.utf8EncodeChar

def isAscii (c : Char) : Bool :=
  c.val < 128

section Bytes

variable {c d : Char} {s : List Char}

theorem bytes_cons_ascii (ascii : isAscii c = true) : bytes (c :: s) = byte c :: bytes s := by
  have small : c.val.toNat < 128 := by simpa [isAscii, UInt32.lt_iff_toNat_lt] using ascii
  have one : c.utf8Size = 1 := by
    rw [Char.utf8Size, if_pos (by rw [UInt32.le_iff_toNat_le]; exact Nat.le_of_lt_succ small)]
  rw [bytes, List.flatMap_cons, String.utf8EncodeChar_eq_singleton one]
  rfl

theorem bytes_append (s t : List Char) : bytes (s ++ t) = bytes s ++ bytes t :=
  List.flatMap_append

theorem bytes_cons (c : Char) (s : List Char) : bytes (c :: s) = bytes [c] ++ bytes s :=
  bytes_append [c] s

theorem bytes_take_drop (n : ℕ) (s : List Char) : bytes (s.take n) ++ bytes (s.drop n) = bytes s := by
  rw [← bytes_append, List.take_append_drop]

/-- A byte above the ASCII ones. -/
def High (b : UInt8) : Prop :=
  128 ≤ b.toNat

theorem high_or (x y : UInt8) (high : High y) : High (x ||| y) := by
  unfold High at high ⊢
  rw [UInt8.toNat_or]
  exact Nat.le_trans high Nat.right_le_or

theorem bytes_high (wide : isAscii c = false) : ∀ b ∈ String.utf8EncodeChar c, High b := by
  have large : 128 ≤ c.val.toNat := by simpa [isAscii, UInt32.le_iff_toNat_le] using wide
  have many : c.utf8Size ≠ 1 := by
    rw [Char.utf8Size]
    split
    · rename_i small
      rw [UInt32.le_iff_toNat_le] at small
      exact absurd (Nat.lt_of_le_of_lt small (by decide)) (Nat.not_lt.mpr large)
    · split
      · decide
      · split <;> decide
  have := c.utf8Size_pos
  have := c.utf8Size_le_four
  intro b member
  have sizes : c.utf8Size = 2 ∨ c.utf8Size = 3 ∨ c.utf8Size = 4 := by omega
  rcases sizes with two | three | four
  · rw [String.utf8EncodeChar_eq_cons_cons two] at member
    simp only [List.mem_cons, List.not_mem_nil, or_false] at member
    rcases member with rfl | rfl <;> exact high_or _ _ (by unfold High; decide)
  · rw [String.utf8EncodeChar_eq_cons_cons_cons three] at member
    simp only [List.mem_cons, List.not_mem_nil, or_false] at member
    rcases member with rfl | rfl | rfl <;> exact high_or _ _ (by unfold High; decide)
  · rw [String.utf8EncodeChar_eq_cons_cons_cons_cons four] at member
    simp only [List.mem_cons, List.not_mem_nil, or_false] at member
    rcases member with rfl | rfl | rfl | rfl <;> exact high_or _ _ (by unfold High; decide)

theorem byte_toNat (ascii : isAscii c = true) : (byte c).toNat = c.val.toNat := by
  have small : c.val.toNat < 128 := by simpa [isAscii, UInt32.lt_iff_toNat_lt] using ascii
  rw [byte, UInt32.toNat_toUInt8, Nat.mod_eq_of_lt (by omega)]

theorem byte_inj (ascii : isAscii c = true) (ascii' : isAscii d = true) : byte c = byte d ↔ c = d := by
  constructor
  · intro same
    have := congrArg UInt8.toNat same
    rw [byte_toNat ascii, byte_toNat ascii'] at this
    exact Char.ext (UInt32.toNat_inj.mp this)
  · rintro rfl
    rfl

theorem high_ne (ascii : isAscii d = true) {b : UInt8} (high : High b) : b ≠ byte d := by
  have small : d.val.toNat < 128 := by simpa [isAscii, UInt32.lt_iff_toNat_lt] using ascii
  rintro rfl
  rw [High, byte_toNat ascii] at high
  omega

theorem bytes_cons_high (wide : isAscii c = false) :
    ∃ b bs, bytes (c :: s) = b :: bs ++ bytes s ∧ ∀ x ∈ b :: bs, High x := by
  obtain ⟨b, bs, whole⟩ := List.exists_cons_of_ne_nil (@String.utf8EncodeChar_ne_nil c)
  refine ⟨b, bs, ?_, ?_⟩
  · rw [bytes, List.flatMap_cons, whole]
    rfl
  · rw [← whole]
    exact bytes_high wide

theorem bytes_head (ascii : isAscii d = true) : (bytes s)[0]? = some (byte d) ↔ s.head? = some d := by
  cases s with
  | nil => simp [bytes]
  | cons c s =>
    cases kind : isAscii c with
    | true =>
      rw [bytes_cons_ascii kind]
      simp [byte_inj kind ascii]
    | false =>
      obtain ⟨b, bs, whole, high⟩ := @bytes_cons_high c s kind
      rw [whole]
      have first := high_ne ascii (high b (by simp))
      have other : c ≠ d := by
        rintro rfl
        rw [kind] at ascii
        cases ascii
      simp [first, other]

end Bytes

/-! ### What is skipped -/

section Skipping

variable {done : List UInt8} {depth : ℕ} {c x y : Char} {s : List Char}

theorem startsWith_ascii (ascii : isAscii c = true) (asciiX : isAscii x = true) (asciiY : isAscii y = true) :
    startsWith x y (byte c :: bytes s) = true ↔ c = x ∧ s.head? = some y := by
  simp only [startsWith, Bool.and_eq_true, beq_iff_eq, List.getElem?_cons_zero, List.getElem?_cons_succ, Option.some.injEq,
    byte_inj ascii asciiX, bytes_head asciiY]

theorem startsWith_high {b : UInt8} {rest : List UInt8} (asciiX : isAscii x = true) (high : High b) :
    startsWith x y (b :: rest) = false := by
  simp [startsWith, high_ne asciiX high]

theorem startsWith_two {rest : List UInt8} : startsWith x y (byte x :: byte y :: rest) = true := by
  simp [startsWith]

theorem startsWith_other {b : UInt8} {rest : List UInt8} (other : b ≠ byte x) : startsWith x y (b :: rest) = false := by
  simp [startsWith, other]

theorem scan_high (bs rest : List UInt8) (high : ∀ b ∈ bs, High b) :
    leanCodeFrom (depth + 1) done (bs ++ rest) = leanCodeFrom (depth + 1) (bs.reverse ++ done) rest := by
  induction bs generalizing done with
  | nil => rfl
  | cons b bs ih =>
    have first := high b (by simp)
    have opens := @startsWith_high '/' '-' b (bs ++ rest) rfl first
    have closes := @startsWith_high '-' '/' b (bs ++ rest) rfl first
    rw [List.cons_append, leanCodeFrom, if_pos (Nat.succ_pos depth), opens, closes, if_neg Bool.false_ne_true,
      if_neg Bool.false_ne_true, ih fun d member => high d (by simp [member]),
      List.reverse_cons, List.append_assoc, List.singleton_append]

theorem scan_comment (depth : ℕ) (s : List Char) : ∀ done, leanCodeFrom depth done (bytes s) =
    leanCodeFrom 0 ((bytes (s.take (commentLength depth s))).reverse ++ done) (bytes (s.drop (commentLength depth s))) := by
  have one : ∀ {depth done c s} (_ : ¬(c = '/' ∧ s.head? = some '-')) (_ : ¬(c = '-' ∧ s.head? = some '/')),
      leanCodeFrom (depth + 1) done (bytes (c :: s)) =
        leanCodeFrom (depth + 1) ((bytes [c]).reverse ++ done) (bytes s) := by
    intro depth done c s opens closes
    cases kind : isAscii c with
    | true =>
      rw [bytes_cons_ascii kind, bytes_cons_ascii kind, leanCodeFrom, if_pos (Nat.succ_pos depth),
        if_neg (by rwa [startsWith_ascii kind rfl rfl]), if_neg (by rwa [startsWith_ascii kind rfl rfl])]
      rfl
    | false =>
      have high := bytes_high kind
      have single : bytes [c] = String.utf8EncodeChar c := by simp [bytes]
      rw [single, show bytes (c :: s) = String.utf8EncodeChar c ++ bytes s from rfl, scan_high _ _ high]
  induction depth, s using commentLength.induct with
  | case1 s =>
    intro done
    rw [commentLength]
    rfl
  | case2 depth =>
    intro done
    rw [commentLength]
    simp [bytes, leanCodeFrom]
  | case3 depth c =>
    intro done
    rw [one (by simp) (by simp), commentLength]
    simp [bytes, leanCodeFrom]
  | case4 depth c e s opens ih =>
    intro done
    obtain ⟨rfl, rfl⟩ := opens
    rw [commentLength, if_pos ⟨rfl, rfl⟩, Nat.add_comm 2, List.take_succ_cons, List.take_succ_cons, List.drop_succ_cons,
      List.drop_succ_cons]
    have ascii : bytes ('/' :: '-' :: s) = byte '/' :: byte '-' :: bytes s := by
      rw [bytes_cons_ascii rfl, bytes_cons_ascii rfl]
    have taken : ∀ t, bytes ('/' :: '-' :: t) = byte '/' :: byte '-' :: bytes t := by
      intro t
      rw [bytes_cons_ascii rfl, bytes_cons_ascii rfl]
    rw [ascii, leanCodeFrom, if_pos (Nat.succ_pos depth), if_pos startsWith_two, List.drop_succ_cons, List.drop_zero, ih, taken]
    simp
  | case5 depth c e s opens closes ih =>
    intro done
    obtain ⟨rfl, rfl⟩ := closes
    rw [commentLength, if_neg opens, if_pos ⟨rfl, rfl⟩, Nat.add_comm 2, List.take_succ_cons, List.take_succ_cons,
      List.drop_succ_cons, List.drop_succ_cons]
    have taken : ∀ t, bytes ('-' :: '/' :: t) = byte '-' :: byte '/' :: bytes t := by
      intro t
      rw [bytes_cons_ascii rfl, bytes_cons_ascii rfl]
    rw [taken, leanCodeFrom, if_pos (Nat.succ_pos depth), startsWith_other (by decide), if_neg Bool.false_ne_true,
      if_pos startsWith_two, List.drop_succ_cons, List.drop_zero, Nat.succ_sub_one, ih, taken]
    simp
  | case6 depth c e s opens closes ih =>
    intro done
    rw [commentLength, if_neg opens, if_neg closes, Nat.add_comm 1, List.take_succ_cons, List.drop_succ_cons,
      one (by simpa using opens) (by simpa using closes), ih, bytes_cons c ((e :: s).take _), List.reverse_append, List.append_assoc]

theorem takeWhile_bytes (s : List Char) :
    (bytes s).takeWhile (fun b => b ≠ byte '\n') = bytes (s.takeWhile fun c => c ≠ '\n') := by
  induction s with
  | nil => rfl
  | cons c s ih =>
    cases kind : isAscii c with
    | true =>
      rw [bytes_cons_ascii kind]
      by_cases ends : c = '\n'
      · subst ends
        rw [List.takeWhile_cons_of_neg (by simp), List.takeWhile_cons_of_neg (by simp)]
        rfl
      · rw [List.takeWhile_cons_of_pos (by simpa [byte_inj kind (show isAscii '\n' = true from rfl)] using ends), ih,
          List.takeWhile_cons_of_pos (by simpa using ends), bytes_cons_ascii kind]
    | false =>
      have other : c ≠ '\n' := by
        rintro rfl
        cases kind
      have high := bytes_high kind
      rw [List.takeWhile_cons_of_pos (by simpa using other), show bytes (c :: s) = String.utf8EncodeChar c ++ bytes s from rfl,
        List.takeWhile_append_of_pos (by intro b member; simpa using high_ne rfl (high b member)), ih]
      rfl

theorem quoted_high (bs rest : List UInt8) (high : ∀ b ∈ bs, High b) : quoted (bs ++ rest) = bs.length + quoted rest := by
  induction bs with
  | nil => simp
  | cons b bs ih =>
    have first := high b (by simp)
    have later := ih fun d member => high d (by simp [member])
    rw [List.cons_append]
    cases whole : bs ++ rest with
    | nil =>
      obtain ⟨rfl, rfl⟩ := List.append_eq_nil_iff.mp whole
      rfl
    | cons d tail =>
      rw [quoted, if_neg (high_ne rfl first), if_neg (high_ne rfl first), ← whole, later, List.length_cons]
      omega

theorem quoted_bytes (s : List Char) : quoted (bytes s) = (bytes (s.take (stringLength s))).length := by
  have one : ∀ {c s}, c ≠ '"' → c ≠ '\\' → quoted (bytes (c :: s)) = (bytes [c]).length + quoted (bytes s) := by
    intro c s quote escape
    cases kind : isAscii c with
    | true =>
      rw [bytes_cons_ascii kind, bytes_cons_ascii kind]
      cases whole : bytes s with
      | nil => rfl
      | cons d tail =>
        rw [quoted, if_neg (by rwa [byte_inj kind rfl]), if_neg (by rwa [byte_inj kind rfl])]
        rfl
    | false =>
      have single : bytes [c] = String.utf8EncodeChar c := by simp [bytes]
      rw [single, show bytes (c :: s) = String.utf8EncodeChar c ++ bytes s from rfl, quoted_high _ _ (bytes_high kind)]
  induction s using stringLength.induct with
  | case1 => rfl
  | case2 c =>
    rw [stringLength]
    by_cases special : c = '"' ∨ c = '\\'
    · rcases special with rfl | rfl <;> rfl
    · rw [one (fun is => special (.inl is)) (fun is => special (.inr is))]
      rfl
  | case3 e s =>
    rw [stringLength, if_pos rfl]
    have taken : ∀ t, bytes ('"' :: t) = byte '"' :: bytes t := fun t => bytes_cons_ascii rfl
    cases whole : bytes (e :: s) with
    | nil => rw [taken, whole]; rfl
    | cons d tail => rw [taken, whole, quoted, if_pos rfl]; rfl
  | case4 e s quote ih =>
    rw [stringLength, if_neg quote, if_pos rfl, Nat.add_comm 2, List.take_succ_cons, List.take_succ_cons]
    have taken : ∀ t, bytes ('\\' :: t) = byte '\\' :: bytes t := fun t => bytes_cons_ascii rfl
    rw [taken, taken, List.length_cons]
    cases kind : isAscii e with
    | true =>
      rw [bytes_cons_ascii kind, bytes_cons_ascii kind, quoted, if_neg (by decide), if_pos rfl, ih, List.length_cons]
      omega
    | false =>
      obtain ⟨b, bs, whole, high⟩ := @bytes_cons_high e s kind
      obtain ⟨b', bs', whole', -⟩ := @bytes_cons_high e (s.take (stringLength s)) kind
      have same : b :: bs = b' :: bs' := by
        have first : bytes (e :: s) = String.utf8EncodeChar e ++ bytes s := rfl
        have second : bytes (e :: s.take (stringLength s)) = String.utf8EncodeChar e ++ bytes (s.take (stringLength s)) := rfl
        rw [first] at whole
        rw [second] at whole'
        exact (List.append_cancel_right whole).symm.trans (List.append_cancel_right whole')
      rw [whole, whole', ← same, List.cons_append, quoted, if_neg (by decide), if_pos rfl,
        quoted_high bs _ fun d member => high d (by simp [member]), ih]
      simp only [List.length_append, List.length_cons]
      omega
  | case5 c e s quote escape ih =>
    rw [stringLength, if_neg quote, if_neg escape, one quote escape, ih, Nat.add_comm 1, List.take_succ_cons,
      bytes_cons c ((e :: s).take _), List.length_append]

end Skipping

/-! ### Tokens that the scan reads as they are -/

/-- No apostrophe among the bytes is taken for the start of a literal. -/
def Quiet : Option UInt8 → List UInt8 → List UInt8 → Prop
  | _, [], _ => True
  | before, b :: bs, rest => startsLiteral before (b :: bs ++ rest) = false ∧ Quiet (some b) bs rest

/-- A literal of one ASCII character, or of an escape of one. -/
def Simple (source : List Char) : Prop :=
  source.length ≤ 4 ∧ source.all isAscii = true

instance (source : List Char) : Decidable (Simple source) :=
  inferInstanceAs (Decidable (_ ∧ _))

/-- The scan reads the token at a position as what it is: a raw string ends where an
    ordinary one would, and literals are where it takes an apostrophe for one. -/
def Fits (before : Option UInt8) (c : Char) (s : List Char) : Prop :=
  let n := (next c s).2
  match (next c s).1 with
  | .comment | .text => True
  | .raw hashes =>
    let body := s.drop (hashes + 1)
    stringLength body + hashes = rawLength hashes body ∧
      (body.drop (stringLength body)).take hashes = List.replicate hashes '#'
  | .character =>
    if Simple (c :: s.take n) then startsLiteral before (bytes (c :: s)) = true
    else Quiet before (bytes (c :: s.take n)) (bytes (s.drop n))
  | .word | .sign => Quiet before (bytes (c :: s.take n)) (bytes (s.drop n))

/-- The scan reads every token of what follows the bytes that are done as what it is. -/
def Aligned (done : List UInt8) : List Char → Prop
  | [] => True
  | c :: s => Fits done.head? c s ∧
      Aligned ((bytes (c :: s.take (next c s).2)).reverse ++ done) (s.drop (next c s).2)
termination_by s => s.length
decreasing_by
  simp only [List.length_drop, List.length_cons]
  omega

def left (t : Token) : List Char :=
  match t.kind with
  | .comment => []
  | .text => "\"\"".toList
  | .raw hashes => 'r' :: List.replicate hashes '#' ++ "\"\"".toList ++ List.replicate hashes '#'
  | .character => if Simple t.source then "' '".toList else (bytes t.source).map asChar
  | .word | .sign => (bytes t.source).map asChar

section Tokens

variable {done rest : List UInt8} {c : Char} {s : List Char}

theorem scan_byte {b : UInt8} (comment : startsWith '/' '-' (b :: rest) = false) (line : startsWith '-' '-' (b :: rest) = false)
    (literal : startsLiteral done.head? (b :: rest) = false) (quote : b ≠ byte '"') :
    leanCodeFrom 0 done (b :: rest) = asChar b :: leanCodeFrom 0 (b :: done) rest := by
  rw [leanCodeFrom, if_neg (Nat.lt_irrefl 0), comment, line, literal, if_neg Bool.false_ne_true, if_neg Bool.false_ne_true,
    if_neg Bool.false_ne_true, if_neg quote]

theorem silent_other {before : Option UInt8} {b : UInt8} (other : b ≠ byte '\'') :
    startsLiteral before (b :: rest) = false := by
  simp [startsLiteral, other]

theorem scan_bytes (bs : List UInt8) : ∀ {done}, (∀ b ∈ bs, b ≠ byte '/' ∧ b ≠ byte '-' ∧ b ≠ byte '"') →
    Quiet done.head? bs rest →
    leanCodeFrom 0 done (bs ++ rest) = bs.map asChar ++ leanCodeFrom 0 (bs.reverse ++ done) rest := by
  induction bs with
  | nil =>
    intro done _ _
    rfl
  | cons b bs ih =>
    intro done plain quiet
    obtain ⟨slash, dash, quote⟩ := plain b (by simp)
    have silent : startsLiteral done.head? (b :: (bs ++ rest)) = false := quiet.1
    rw [List.cons_append, scan_byte (startsWith_other slash) (startsWith_other dash) silent quote,
      @ih (b :: done) (fun d member => plain d (by simp [member])) quiet.2, List.map_cons, List.reverse_cons, List.append_assoc]
    rfl

theorem bytes_plain {s : List Char} (plain : ∀ c ∈ s, c ≠ '/' ∧ c ≠ '-' ∧ c ≠ '"') :
    ∀ b ∈ bytes s, b ≠ byte '/' ∧ b ≠ byte '-' ∧ b ≠ byte '"' := by
  intro b member
  obtain ⟨c, inside, among⟩ := List.mem_flatMap.mp member
  obtain ⟨slash, dash, quote⟩ := plain c inside
  cases kind : isAscii c with
  | true =>
    have single : String.utf8EncodeChar c = [byte c] := by
      have := @bytes_cons_ascii c [] kind
      simpa [bytes] using this
    rw [single, List.mem_singleton] at among
    subst among
    rw [Ne, byte_inj kind rfl, Ne, byte_inj kind rfl, Ne, byte_inj kind rfl]
    exact ⟨slash, dash, quote⟩
  | false =>
    have high := bytes_high kind b among
    exact ⟨high_ne rfl high, high_ne rfl high, high_ne rfl high⟩

theorem quiet_of_plain (bs : List UInt8) (none : ∀ b ∈ bs, b ≠ byte '\'') : ∀ before, Quiet before bs rest := by
  induction bs with
  | nil =>
    intro before
    trivial
  | cons b bs ih =>
    intro before
    exact ⟨silent_other (none b (by simp)), ih (fun d member => none d (by simp [member])) _⟩

theorem scan_quote (body : List Char) : leanCodeFrom 0 done (bytes ('"' :: body)) = "\"\"".toList ++
    leanCodeFrom 0 ((bytes ('"' :: body.take (stringLength body))).reverse ++ done) (bytes (body.drop (stringLength body))) := by
  have taken : ∀ t, bytes ('"' :: t) = byte '"' :: bytes t := fun t => bytes_cons_ascii rfl
  have split := bytes_take_drop (stringLength body) body
  rw [taken, taken, leanCodeFrom, if_neg (Nat.lt_irrefl 0), startsWith_other (by decide), startsWith_other (by decide),
    if_neg Bool.false_ne_true, if_neg Bool.false_ne_true, silent_other (by decide), if_neg Bool.false_ne_true, if_pos rfl,
    quoted_bytes, ← split, List.take_left, List.drop_left, List.reverse_cons, List.append_assoc]
  rfl

theorem scan_hashes (hashes : ℕ) (rest : List UInt8) : leanCodeFrom 0 done (bytes (List.replicate hashes '#') ++ rest) =
    List.replicate hashes '#' ++ leanCodeFrom 0 ((bytes (List.replicate hashes '#')).reverse ++ done) rest := by
  have whole : bytes (List.replicate hashes '#') = List.replicate hashes (byte '#') := by
    induction hashes with
    | zero => rfl
    | succ n ih => rw [List.replicate_succ, bytes_cons_ascii rfl, ih, List.replicate_succ]
  rw [whole, scan_bytes]
  · rw [List.map_replicate]
    rfl
  · intro b member
    obtain ⟨-, rfl⟩ := List.mem_replicate.mp member
    decide
  · apply quiet_of_plain
    intro b member
    obtain ⟨-, rfl⟩ := List.mem_replicate.mp member
    decide

theorem take_takeWhile (p : Char → Bool) (s : List Char) : s.take (s.takeWhile p).length = s.takeWhile p := by
  have whole := congrArg (List.take (s.takeWhile p).length) (List.takeWhile_append_dropWhile (p := p) (l := s))
  rw [List.take_left] at whole
  exact whole.symm

theorem rawHashes_spec {hashes : ℕ} (raw : rawHashes s = some hashes) :
    s = List.replicate hashes '#' ++ '"' :: s.drop (hashes + 1) := by
  rw [rawHashes] at raw
  split at raw
  · rename_i quote
    obtain rfl := Option.some.inj raw
    have same : s.takeWhile (fun c => c = '#') = List.replicate (s.takeWhile fun c => c = '#').length '#' := by
      rw [List.eq_replicate_iff]
      refine ⟨rfl, ?_⟩
      intro c member
      simpa using List.mem_takeWhile_imp member
    rw [← same]
    conv_lhs => rw [← List.take_append_drop (s.takeWhile fun c => c = '#').length s, take_takeWhile]
    congr 1
    rw [List.drop_eq_getElem?_toList_append, quote]
    rfl
  · cases raw

theorem scan_raw {hashes : ℕ} (raw : rawHashes s = some hashes)
    (ends : stringLength (s.drop (hashes + 1)) + hashes = rawLength hashes (s.drop (hashes + 1)))
    (closes : ((s.drop (hashes + 1)).drop (stringLength (s.drop (hashes + 1)))).take hashes = List.replicate hashes '#') :
    leanCodeFrom 0 done (bytes ('r' :: s)) =
      'r' :: List.replicate hashes '#' ++ "\"\"".toList ++ List.replicate hashes '#' ++
        leanCodeFrom 0 ((bytes ('r' :: s.take (hashes + 1 + rawLength hashes (s.drop (hashes + 1))))).reverse ++ done)
          (bytes (s.drop (hashes + 1 + rawLength hashes (s.drop (hashes + 1))))) := by
  have spec := rawHashes_spec raw
  generalize s.drop (hashes + 1) = body at spec ends closes
  subst spec
  have letter : ∀ t, bytes ('r' :: t) = byte 'r' :: bytes t := fun t => bytes_cons_ascii rfl
  have first : ∀ rest, leanCodeFrom 0 done (byte 'r' :: rest) = 'r' :: leanCodeFrom 0 (byte 'r' :: done) rest := by
    intro rest
    exact scan_byte (startsWith_other (by decide)) (startsWith_other (by decide)) (silent_other (by decide))
      (by decide)
  have rest : bytes (body.drop (stringLength body)) =
      bytes (List.replicate hashes '#') ++ bytes (body.drop (stringLength body + hashes)) := by
    rw [← closes, ← List.drop_drop, bytes_take_drop]
  have taken : (List.replicate hashes '#' ++ '"' :: body).take (hashes + 1 + (stringLength body + hashes)) =
      List.replicate hashes '#' ++ '"' :: (body.take (stringLength body) ++ List.replicate hashes '#') := by
    rw [List.take_append, List.length_replicate, List.take_of_length_le (by simp; omega),
      show hashes + 1 + (stringLength body + hashes) - hashes = stringLength body + hashes + 1 by omega,
      List.take_succ_cons, List.take_add, closes]
  have dropped : (List.replicate hashes '#' ++ '"' :: body).drop (hashes + 1 + (stringLength body + hashes)) =
      body.drop (stringLength body + hashes) := by
    rw [List.drop_append, List.length_replicate, List.drop_of_length_le (by simp; omega), List.nil_append,
      show hashes + 1 + (stringLength body + hashes) - hashes = stringLength body + hashes + 1 by omega,
      List.drop_succ_cons]
  have joined : bytes ('"' :: (body.take (stringLength body) ++ List.replicate hashes '#')) =
      bytes ('"' :: body.take (stringLength body)) ++ bytes (List.replicate hashes '#') :=
    bytes_append ('"' :: body.take (stringLength body)) _
  rw [← ends, taken, dropped, letter, letter, first, bytes_append, scan_hashes, scan_quote, rest, scan_hashes, bytes_append,
    joined]
  simp only [List.cons_append, List.append_assoc, List.reverse_cons, List.reverse_append, List.nil_append]

theorem literalLength_cases {n : ℕ} (literal : literalLength s = some n) :
    (n = 2 ∧ ∃ d t, s = d :: '\'' :: t ∧ d ≠ '\\') ∨ (n = 3 ∧ ∃ e t, s = '\\' :: e :: '\'' :: t) ∨
      5 ≤ (s.take n).length ∧ ∀ d ∈ s.take n, d ≠ '/' ∧ d ≠ '-' ∧ d ≠ '"' := by
  have hex : ∀ d, isHex d = true → d ≠ '/' ∧ d ≠ '-' ∧ d ≠ '"' := by
    intro d digit
    refine ⟨?_, ?_, ?_⟩ <;> rintro rfl <;> exact absurd digit (by decide)
  have coded : ∀ {e t k}, (e = 'x' ∨ e = 'u') → (t.take k).all isHex → t[k]? = some '\'' →
      ('\\' :: e :: t).take (k + 3) = '\\' :: e :: (t.take k ++ ['\'']) := by
    intro e t k _ _ closes
    rw [List.take_succ_cons, List.take_succ_cons, List.take_add_one, closes]
    rfl
  have plain : ∀ {e t k}, (e = 'x' ∨ e = 'u') → (t.take k).all isHex → t[k]? = some '\'' → 2 ≤ k →
      5 ≤ (('\\' :: e :: t).take (k + 3)).length ∧
        ∀ d ∈ ('\\' :: e :: t).take (k + 3), d ≠ '/' ∧ d ≠ '-' ∧ d ≠ '"' := by
    intro e t k letter digits closes least
    have long : k < t.length := (List.getElem?_eq_some_iff.mp closes).1
    rw [coded letter digits closes]
    constructor
    · simp
      omega
    · intro d member
      simp only [List.mem_cons, List.mem_append, List.not_mem_nil, or_false] at member
      rcases member with rfl | rfl | among | rfl
      · decide
      · rcases letter with rfl | rfl <;> decide
      · exact hex d (List.all_eq_true.mp digits d among)
      · decide
  rw [literalLength.eq_def] at literal
  cases s with
  | nil => cases literal
  | cons c s =>
    dsimp only at literal
    split at literal
    · cases literal
    · split at literal
      · rename_i plainChar
        split at literal
        · rename_i closes
          cases literal
          obtain ⟨t, rfl⟩ := List.head?_eq_some_iff.mp closes
          exact .inl ⟨rfl, c, t, rfl, plainChar⟩
        · cases literal
      · rename_i escape
        have isEscape : c = '\\' := not_not.mp escape
        subst isEscape
        cases s with
        | nil => cases literal
        | cons e s =>
          dsimp only at literal
          split at literal
          · rename_i closes
            cases literal
            obtain ⟨t, rfl⟩ := List.head?_eq_some_iff.mp closes
            exact .inr (.inl ⟨rfl, e, t, rfl⟩)
          · split at literal
            · rename_i byteCode
              cases literal
              exact .inr (.inr (plain (.inl byteCode.1) byteCode.2.1 byteCode.2.2 (by decide)))
            · split at literal
              · rename_i wordCode
                cases literal
                exact .inr (.inr (plain (.inr wordCode.1) wordCode.2.1 wordCode.2.2 (by decide)))
              · cases literal

theorem scan_simple {n : ℕ} (literal : literalLength s = some n) (simple : Simple ('\'' :: s.take n))
    (starts : startsLiteral done.head? (bytes ('\'' :: s)) = true) :
    leanCodeFrom 0 done (bytes ('\'' :: s)) =
      "' '".toList ++ leanCodeFrom 0 ((bytes ('\'' :: s.take n)).reverse ++ done) (bytes (s.drop n)) := by
  have quote : ∀ t, bytes ('\'' :: t) = byte '\'' :: bytes t := fun t => bytes_cons_ascii rfl
  have escape : ∀ t, bytes ('\\' :: t) = byte '\\' :: bytes t := fun t => bytes_cons_ascii rfl
  obtain ⟨short, ascii⟩ := simple
  rw [quote] at starts
  rw [quote, quote, leanCodeFrom, if_neg (Nat.lt_irrefl 0), startsWith_other (by decide), startsWith_other (by decide),
    if_neg Bool.false_ne_true, if_neg Bool.false_ne_true, if_pos starts]
  rcases literalLength_cases literal with ⟨rfl, d, t, rfl, plain⟩ | ⟨rfl, e, t, rfl⟩ | ⟨long, -⟩
  · have kind : isAscii d = true := by
      simp only [List.take_succ_cons, List.all_cons, Bool.and_eq_true] at ascii
      exact ascii.2.1
    rw [bytes_cons_ascii kind, quote, List.head?_cons, if_neg (by simpa [byte_inj kind (show isAscii '\\' = true from rfl)] using plain)]
    simp only [List.take_succ_cons, List.take_zero, List.drop_succ_cons, List.drop_zero]
    rw [bytes_cons_ascii kind, quote]
    rfl
  · have kind : isAscii e = true := by
      simp only [List.take_succ_cons, List.all_cons, Bool.and_eq_true] at ascii
      exact ascii.2.2.1
    rw [escape, bytes_cons_ascii kind, quote, List.head?_cons, if_pos rfl]
    simp only [List.take_succ_cons, List.take_zero, List.drop_succ_cons, List.drop_zero]
    rw [escape, bytes_cons_ascii kind, quote]
    rfl
  · simp only [List.length_cons] at short
    omega

theorem scan_plain {n : ℕ} (plain : ∀ d ∈ c :: s.take n, d ≠ '/' ∧ d ≠ '-' ∧ d ≠ '"')
    (quiet : Quiet done.head? (bytes (c :: s.take n)) (bytes (s.drop n))) :
    leanCodeFrom 0 done (bytes (c :: s)) = (bytes (c :: s.take n)).map asChar ++
      leanCodeFrom 0 ((bytes (c :: s.take n)).reverse ++ done) (bytes (s.drop n)) := by
  have whole : bytes (c :: s) = bytes (c :: s.take n) ++ bytes (s.drop n) := by
    rw [← bytes_append, List.cons_append, List.take_append_drop]
  rw [whole]
  exact scan_bytes _ (bytes_plain plain) quiet

theorem literal_plain {n : ℕ} (literal : literalLength s = some n) (wide : ¬Simple ('\'' :: s.take n)) :
    ∀ d ∈ '\'' :: s.take n, d ≠ '/' ∧ d ≠ '-' ∧ d ≠ '"' := by
  have other : ∀ d, isAscii d = false → d ≠ '/' ∧ d ≠ '-' ∧ d ≠ '"' := by
    intro d wide
    refine ⟨?_, ?_, ?_⟩ <;> rintro rfl <;> cases wide
  intro d member
  rcases literalLength_cases literal with ⟨rfl, x, t, rfl, -⟩ | ⟨rfl, e, t, rfl⟩ | ⟨-, plain⟩
  · have kind : isAscii x = false := by
      by_contra ascii
      refine wide ⟨by simp, ?_⟩
      simpa using ⟨by decide, by simpa using ascii, by decide⟩
    simp only [List.take_succ_cons, List.take_zero, List.mem_cons, List.not_mem_nil, or_false] at member
    rcases member with rfl | rfl | rfl
    · decide
    · exact other _ kind
    · decide
  · have kind : isAscii e = false := by
      by_contra ascii
      refine wide ⟨by simp, ?_⟩
      simpa using ⟨by decide, by decide, by simpa using ascii, by decide⟩
    simp only [List.take_succ_cons, List.take_zero, List.mem_cons, List.not_mem_nil, or_false] at member
    rcases member with rfl | rfl | rfl | rfl
    · decide
    · decide
    · exact other _ kind
    · decide
  · rcases List.mem_cons.mp member with rfl | later
    · decide
    · exact plain d later

theorem word_plain {p q : Char → Bool} (first : p c = true) (head : ∀ d, p d = true → d ≠ '/' ∧ d ≠ '-' ∧ d ≠ '"')
    (tail : ∀ d, q d = true → d ≠ '/' ∧ d ≠ '-' ∧ d ≠ '"') :
    ∀ d ∈ c :: s.take (s.takeWhile q).length, d ≠ '/' ∧ d ≠ '-' ∧ d ≠ '"' := by
  intro d member
  rcases List.mem_cons.mp member with rfl | later
  · exact head d first
  · rw [take_takeWhile] at later
    exact tail d (List.mem_takeWhile_imp later)

theorem scan_sign (comment : ¬(c = '/' ∧ s.head? = some '-')) (line : ¬(c = '-' ∧ s.head? = some '-')) (quote : c ≠ '"')
    (quiet : Quiet done.head? (bytes [c]) (bytes s)) :
    leanCodeFrom 0 done (bytes (c :: s)) =
      (bytes [c]).map asChar ++ leanCodeFrom 0 ((bytes [c]).reverse ++ done) (bytes s) := by
  cases kind : isAscii c with
  | true =>
    have single : bytes [c] = [byte c] := bytes_cons_ascii kind
    rw [single] at quiet ⊢
    have noComment : startsWith '/' '-' (byte c :: bytes s) = false := by
      simpa using mt (startsWith_ascii kind rfl rfl).mp comment
    have noLine : startsWith '-' '-' (byte c :: bytes s) = false := by
      simpa using mt (startsWith_ascii kind rfl rfl).mp line
    rw [bytes_cons_ascii kind]
    exact scan_byte noComment noLine quiet.1 (by rwa [Ne, byte_inj kind rfl])
  | false =>
    have plain : ∀ d ∈ [c], d ≠ '/' ∧ d ≠ '-' ∧ d ≠ '"' := by
      intro d member
      rw [List.mem_singleton] at member
      subst member
      refine ⟨?_, ?_, quote⟩ <;> rintro rfl <;> cases kind
    rw [bytes_cons]
    exact scan_bytes _ (bytes_plain plain) quiet

theorem isIdRest_plain {d : Char} (rest : isIdRest d = true) : d ≠ '/' ∧ d ≠ '-' ∧ d ≠ '"' := by
  refine ⟨?_, ?_, ?_⟩ <;> rintro rfl <;> exact absurd rest (by decide)

theorem isIdFirst_plain {d : Char} (first : isIdFirst d = true) : d ≠ '/' ∧ d ≠ '-' ∧ d ≠ '"' := by
  refine ⟨?_, ?_, ?_⟩ <;> rintro rfl <;> exact absurd first (by decide)

theorem isNumeralRest_plain {d : Char} (rest : isNumeralRest d = true) : d ≠ '/' ∧ d ≠ '-' ∧ d ≠ '"' := by
  refine ⟨?_, ?_, ?_⟩ <;> rintro rfl <;> exact absurd rest (by decide)

theorem isDigit_plain {d : Char} (digit : d.isDigit = true) : d ≠ '/' ∧ d ≠ '-' ∧ d ≠ '"' := by
  refine ⟨?_, ?_, ?_⟩ <;> rintro rfl <;> exact absurd digit (by decide)

theorem scan_line (second : s.head? = some '-') : leanCodeFrom 0 done (bytes ('-' :: s)) =
    leanCodeFrom 0 ((bytes ('-' :: s.take (s.takeWhile fun d => d ≠ '\n').length)).reverse ++ done)
      (bytes (s.drop (s.takeWhile fun d => d ≠ '\n').length)) := by
  have taken : ∀ u, bytes ('-' :: u) = byte '-' :: bytes u := fun u => bytes_cons_ascii rfl
  have split := bytes_take_drop (s.takeWhile fun d => decide (d ≠ '\n')).length s
  have first := take_takeWhile (fun d => decide (d ≠ '\n')) s
  have starts : startsWith '-' '-' (byte '-' :: bytes s) = true := (startsWith_ascii rfl rfl rfl).mpr ⟨rfl, second⟩
  rw [taken, taken, leanCodeFrom, if_neg (Nat.lt_irrefl 0), startsWith_other (by decide), if_neg Bool.false_ne_true,
    if_pos starts]
  dsimp only
  rw [takeWhile_bytes, first]
  rw [first] at split
  rw [← split, List.drop_left, List.reverse_cons, List.append_assoc]
  rfl

theorem scan_next (fits : Fits done.head? c s) : leanCodeFrom 0 done (bytes (c :: s)) =
    left ⟨(next c s).1, c :: s.take (next c s).2⟩ ++
      leanCodeFrom 0 ((bytes (c :: s.take (next c s).2)).reverse ++ done) (bytes (s.drop (next c s).2)) := by
  by_cases comment : c = '/' ∧ s.head? = some '-'
  · have isComment : next c s = (.comment, 1 + commentLength 1 s.tail) := if_pos comment
    obtain ⟨rfl, second⟩ := comment
    obtain ⟨t, rfl⟩ := List.head?_eq_some_iff.mp second
    have taken : ∀ u, bytes ('/' :: '-' :: u) = byte '/' :: byte '-' :: bytes u := by
      intro u
      rw [bytes_cons_ascii rfl, bytes_cons_ascii rfl]
    rw [isComment, List.tail_cons, Nat.add_comm 1, List.take_succ_cons, List.drop_succ_cons, taken, taken, leanCodeFrom,
      if_neg (Nat.lt_irrefl 0), if_pos startsWith_two, List.drop_succ_cons, List.drop_zero, scan_comment]
    simp [left]
  by_cases line : c = '-' ∧ s.head? = some '-'
  · have isLine : next c s = (.comment, (s.takeWhile fun d => d ≠ '\n').length) := (if_neg comment).trans (if_pos line)
    obtain ⟨rfl, second⟩ := line
    rw [isLine, scan_line second]
    rfl
  by_cases quote : c = '"'
  · have isText : next c s = (.text, stringLength s) := (if_neg comment).trans ((if_neg line).trans (if_pos quote))
    subst quote
    rw [isText, scan_quote]
    rfl
  have rest : next c s = _ := (if_neg comment).trans ((if_neg line).trans (if_neg quote))
  cases raw : (if c = 'r' then rawHashes s else none) with
  | some hashes =>
    rw [raw] at rest
    dsimp only at rest
    split at raw
    · rename_i letter
      subst letter
      simp only [Fits, rest] at fits
      rw [rest]
      exact scan_raw raw fits.1 fits.2
    · cases raw
  | none =>
    rw [raw] at rest
    dsimp only at rest
    cases literal : (if c = '\'' then literalLength s else none) with
    | some n =>
      rw [literal] at rest
      dsimp only at rest
      split at literal
      · rename_i apostrophe
        subst apostrophe
        simp only [Fits, rest] at fits
        rw [rest]
        by_cases simple : Simple ('\'' :: s.take n)
        · rw [if_pos simple] at fits
          simp only [left, if_pos simple]
          exact scan_simple literal simple fits
        · rw [if_neg simple] at fits
          simp only [left, if_neg simple]
          exact scan_plain (literal_plain literal simple) fits
      · cases literal
    | none =>
      rw [literal] at rest
      dsimp only at rest
      by_cases digit : c.isDigit = true
      · rw [if_pos digit] at rest
        simp only [Fits, rest] at fits
        rw [rest]
        exact scan_plain (word_plain digit (fun _ => isDigit_plain) fun _ => isNumeralRest_plain) fits
      · rw [if_neg digit] at rest
        by_cases letter : isIdFirst c = true
        · rw [if_pos letter] at rest
          simp only [Fits, rest] at fits
          rw [rest]
          exact scan_plain (word_plain letter (fun _ => isIdFirst_plain) fun _ => isIdRest_plain) fits
        · rw [if_neg letter] at rest
          simp only [Fits, rest] at fits
          rw [rest]
          exact scan_sign comment line quote fits

theorem scan_lex (s : List Char) : ∀ {done}, Aligned done s → leanCodeFrom 0 done (bytes s) = (lex s).flatMap left := by
  induction s using lex.induct with
  | case1 =>
    intro done _
    rw [lex, bytes, List.flatMap_nil, leanCodeFrom, List.flatMap_nil]
  | case2 c s ih =>
    intro done aligned
    rw [Aligned] at aligned
    rw [lex, List.flatMap_cons, scan_next aligned.1, ih aligned.2]

end Tokens

/-! ### What is reported -/

theorem forbidden_joined : ∀ f ∈ FORBIDDEN, ∀ c ∈ f.toList, joins c = true := by
  have all : ∀ f ∈ FORBIDDEN, f.toList.all joins = true := by decide
  exact fun f forbidden => List.all_eq_true.mp (all f forbidden)

theorem left_pieces : ∀ f ∈ FORBIDDEN, (pieces f.toList).flatMap left = f.toList := by
  decide

theorem mem_escapes_iff {f : String} (forbidden : f ∈ FORBIDDEN) (code : List Char) :
    f ∈ escapes code ↔ Stands f.toList code := by
  rw [escapes, List.mem_filter, List.contains_iff_mem, mem_words_iff (forbidden_joined f forbidden)]
  exact ⟨And.right, fun stands => ⟨forbidden, stands⟩⟩

/-- The word is a whole token, and what is left of the tokens next to it does not join it. -/
def Clear (w s : List Char) : Prop :=
  ∃ before after, lex s = before ++ pieces w ++ after ∧
    (∀ c, (before.flatMap left).getLast? = some c → joins c = false) ∧
    ∀ c, (after.flatMap left).head? = some c → joins c = false

theorem stands_of_clear {f : String} (forbidden : f ∈ FORBIDDEN) {s : List Char} (clear : Clear f.toList s) :
    Stands f.toList ((lex s).flatMap left) := by
  obtain ⟨before, after, whole, first, last⟩ := clear
  refine ⟨before.flatMap left, after.flatMap left, ?_, first, last⟩
  rw [whole, List.flatMap_append, List.flatMap_append, left_pieces f forbidden]

/-- Where the scan reads every token as what it is, a source is reported as it should be
    exactly when each forbidden word in its code stands by itself in what is left of the
    tokens, as it does where its neighbours do not join it. -/
theorem scan_reports_iff (src : List Char) (aligned : Aligned [] src) :
    (Meets src ↔ ∀ f ∈ FORBIDDEN, Occurs f.toList src → Stands f.toList ((lex src).flatMap left)) ∧
    ∀ f ∈ FORBIDDEN, Clear f.toList src → Stands f.toList ((lex src).flatMap left) := by
  have code : leanCode src = (lex src).flatMap left := scan_lex src aligned
  refine ⟨?_, fun f forbidden => stands_of_clear forbidden⟩
  rw [Meets, code]
  constructor
  · intro meets f forbidden occurs
    exact (mem_escapes_iff forbidden _).mp (meets f forbidden occurs)
  · intro stands f forbidden occurs
    exact (mem_escapes_iff forbidden _).mpr (stands f forbidden occurs)

/-! ### Sources -/

theorem lex_cons {c : Char} {s : List Char} {k : Kind} {n : ℕ} (here : next c s = (k, n)) :
    lex (c :: s) = ⟨k, c :: s.take n⟩ :: lex (s.drop n) := by
  rw [lex, here]

theorem aligned_cons {c : Char} {s : List Char} {k : Kind} {n : ℕ} {done : List UInt8} (here : next c s = (k, n))
    (fits : Fits done.head? c s) (rest : Aligned ((bytes (c :: s.take n)).reverse ++ done) (s.drop n)) :
    Aligned done (c :: s) := by
  rw [Aligned, here]
  exact ⟨fits, rest⟩

theorem fits_plain {c : Char} {s : List Char} {k : Kind} {n : ℕ} {before : Option UInt8} (here : next c s = (k, n))
    (code : k = .word ∨ k = .sign) (none : ∀ b ∈ bytes (c :: s.take n), b ≠ byte '\'') : Fits before c s := by
  rw [Fits, here]
  rcases code with rfl | rfl
  · exact quiet_of_plain _ none before
  · exact quiet_of_plain _ none before

/-- A forbidden word behind another word. -/
def bare : List Char := "by sorry".toList

theorem lex_bare : lex bare = [⟨.word, "by".toList⟩, ⟨.sign, [' ']⟩] ++ pieces "sorry".toList ++ [] := by
  have first : next 'b' "y sorry".toList = (.word, 1) := by decide
  have second : next ' ' "sorry".toList = (.sign, 0) := by decide
  have third : next 's' "orry".toList = (.word, 4) := by decide
  refine (lex_cons first).trans ?_
  refine congrArg (List.cons _) ((lex_cons second).trans ?_)
  refine congrArg (List.cons _) ((lex_cons third).trans ?_)
  exact congrArg (List.cons _) (by simp [lex])

theorem aligned_bare : Aligned [] bare := by
  have first : next 'b' "y sorry".toList = (.word, 1) := by decide
  have second : next ' ' "sorry".toList = (.sign, 0) := by decide
  have third : next 's' "orry".toList = (.word, 4) := by decide
  refine aligned_cons first (fits_plain first (.inl rfl) (RustText.forall_mem_of_all (by decide))) ?_
  refine aligned_cons second (fits_plain second (.inr rfl) (RustText.forall_mem_of_all (by decide))) ?_
  refine aligned_cons third (fits_plain third (.inl rfl) (RustText.forall_mem_of_all (by decide))) ?_
  exact (by simp [Aligned])

theorem scan_reports_bare : Stands "sorry".toList ((lex bare).flatMap left) :=
  (scan_reports_iff bare aligned_bare).2 "sorry" (by decide) ⟨_, _, lex_bare, RustText.forall_some_of_all (by decide), RustText.forall_some_of_all (by decide)⟩

def bracketed : List Char := "⟨sorry⟩".toList

theorem lex_bracketed : lex bracketed = [⟨.sign, ['⟨']⟩] ++ pieces "sorry".toList ++ [⟨.sign, ['⟩']⟩] := by
  have first : next '⟨' "sorry⟩".toList = (.sign, 0) := by decide
  have second : next 's' "orry⟩".toList = (.word, 4) := by decide
  have third : next '⟩' [] = (.sign, 0) := by decide
  refine (lex_cons first).trans ?_
  refine congrArg (List.cons _) ((lex_cons second).trans ?_)
  refine congrArg (List.cons _) ((lex_cons third).trans ?_)
  exact congrArg (List.cons _) (by simp [lex])

theorem aligned_bracketed : Aligned [] bracketed := by
  have first : next '⟨' "sorry⟩".toList = (.sign, 0) := by decide
  have second : next 's' "orry⟩".toList = (.word, 4) := by decide
  have third : next '⟩' [] = (.sign, 0) := by decide
  refine aligned_cons first (fits_plain first (.inr rfl) (RustText.forall_mem_of_all (by decide))) ?_
  refine aligned_cons second (fits_plain second (.inl rfl) (RustText.forall_mem_of_all (by decide))) ?_
  refine aligned_cons third (fits_plain third (.inr rfl) (RustText.forall_mem_of_all (by decide))) ?_
  exact (by simp [Aligned])

theorem bracketed_unreported : ¬∀ src, Meets src := by
  intro always
  have reported := always bracketed "sorry" (by decide) ⟨_, _, lex_bracketed⟩
  rw [show leanCode bracketed = (lex bracketed).flatMap left from scan_lex bracketed aligned_bracketed, lex_bracketed]
    at reported
  exact absurd reported (by decide)

end E5r.EscapeScan
