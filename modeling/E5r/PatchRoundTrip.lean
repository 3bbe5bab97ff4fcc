import E5r.PatchReads
import E5r.LogText

/-!
Writing a patch set and reading it back. Every edit is read back as it was written,
and the reader pushes the edits one after another, which turns edits of one id
around.
-/
namespace E5r.PatchRoundTrip
open RustText TextSlices LineText QuotedText SortedRecords Fallible AnnotationLog
open PatchModel PatchText PatchReads
open AnnotationText (Error)
open LogText (Unspaced binaryLines binary_word number_plain)

/-! ### Writing -/

/-- Lowercase hexadecimal pairs. -/
def hex (bs : List UInt8) : List Char := bs.flatMap fun b => paddedHex 2 b.toNat

def quote (s : List Char) : List Char := escape s

def editLine (e : Edit) : List Char :=
  "edit shape=".toList ++ paddedHex 16 e.target.shape.toNat ++ " bytes=".toList ++ paddedHex 16 e.target.bytes.toNat ++
    " insns=".toList ++ decimal e.target.insns.toNat ++ " abs=".toList ++ lowerHex e.target.abs.toNat ++
    " off=".toList ++ decimal e.target.offset.toNat ++ " expect=".toList ++ hex e.expect ++
    " replace=".toList ++ hex e.replace ++ " by=".toList ++ quote e.who.toList ++ " note=".toList ++ quote e.note.toList

/-- The format and its version. -/
def headerLine : List Char := TAG.toList ++ ' ' :: decimal VERSION

def nameLine (name : String) : List Char := "name ".toList ++ quote name.toList

def commentLines : List (List Char) :=
  ["# One edit per line, sorted by content id. Every edit records the bytes it".toList,
    "# expects to overwrite, so applying to the wrong binary fails instead of".toList,
    "# corrupting it. Order does not affect the result, so the union of two".toList,
    "# branches is the correct merge:".toList,
    "#     *.e5r-patch merge=union".toList]

/-- Serialize, in the order of the edits. -/
def toText (p : Patch) : String :=
  String.ofList (writeLines
    (headerLine :: nameLine p.name :: binaryLines p.binary ++ commentLines ++ p.edits.map editLine))

/-! ### Bytes -/

variable {v : List Char}

theorem byteLen_number (digits : ∀ c ∈ v, NumberChar c) : byteLen v = v.length := by
  have one : ∀ d < 16, (Nat.digitChar d).utf8Size = 1 := by decide
  induction v with
  | nil => rfl
  | cons c v ih =>
    obtain ⟨d, small, rfl⟩ := digits c (by simp)
    rw [byteLen_cons, one d small, ih fun x member => digits x (by simp [member]), List.length_cons, Nat.add_comm]

theorem byteLen_pair (b : UInt8) : byteLen (paddedHex 2 b.toNat) = 2 := by
  rw [byteLen_number paddedHex_chars, paddedHex, List.length_leftpad]
  have := (Nat.length_toDigits_le_iff (b := 16) (n := b.toNat) (k := 2) (by decide) (by decide)).mpr b.toNat_lt
  exact Nat.max_eq_left this

theorem byteLen_hex (bs : List UInt8) : byteLen (hex bs) = bs.length * 2 := by
  induction bs with
  | nil => rfl
  | cons b bs ih =>
    show byteLen (paddedHex 2 b.toNat ++ hex bs) = _
    rw [byteLen_append, byteLen_pair, ih, List.length_cons]
    omega

theorem hexBytes_hex (bs : List UInt8) : ∀ {a : List Char} {k : ℕ}, byteLen a = k * 2 →
    (List.range' k bs.length).mapM (hexByte (a ++ hex bs)) = some (.ok bs) := by
  induction bs with
  | nil =>
    intro a k _
    rfl
  | cons b bs ih =>
    intro a k before
    have split : splitAtByte 2 (hex (b :: bs)) = some (paddedHex 2 b.toNat, hex bs) := by
      have := splitAtByte_append (paddedHex 2 b.toNat) (hex bs)
      rwa [byteLen_pair] at this
    have here : hexByte (a ++ hex (b :: bs)) k = some (.ok b) := by
      rw [hexByte_append before, split, Option.map_some]
      dsimp only
      rw [read_paddedHex b.toNat_lt]
      show some (Except.ok (UInt8.ofNat b.toNat)) = _
      rw [UInt8.ofNat_toNat]
    have later := ih (a := a ++ paddedHex 2 b.toNat) (k := k + 1) (by rw [byteLen_append, byteLen_pair]; omega)
    rw [List.append_assoc] at later
    rw [List.length_cons, List.range'_succ, List.mapM_cons, bind_ok _ here]
    exact bind_ok _ later

theorem unhex_hex (bs : List UInt8) : unhex (hex bs) = some (if bs = [] then .error () else .ok bs) := by
  cases bs with
  | nil => rfl
  | cons b bs =>
    have some : hex (b :: bs) ≠ [] := by
      intro empty
      have := byteLen_hex (b :: bs)
      rw [empty] at this
      simp at this
    rw [unhex, if_neg (by rw [byteLen_hex]; simp [some]), byteLen_hex, Nat.mul_div_cancel _ (by decide),
      List.range_eq_range', if_neg (by simp)]
    exact hexBytes_hex (b :: bs) (a := []) rfl

theorem hex_chars {bs : List UInt8} : ∀ c ∈ hex bs, NumberChar c := by
  intro c member
  obtain ⟨b, -, inside⟩ := List.mem_flatMap.mp member
  exact paddedHex_chars c inside

/-! ### Fields -/

/-- A field of the head of a line. -/
def item (key : String) (v : List Char) : List Char := key.toList ++ '=' :: v

def headItems (e : Edit) : List (List Char) :=
  [item "shape" (paddedHex 16 e.target.shape.toNat), item "bytes" (paddedHex 16 e.target.bytes.toNat),
    item "insns" (decimal e.target.insns.toNat), item "abs" (lowerHex e.target.abs.toNat),
    item "off" (decimal e.target.offset.toNat), item "expect" (hex e.expect), item "replace" (hex e.replace)]

def headText (e : Edit) : List Char := [' '].intercalate (headItems e)

theorem editLine_eq (e : Edit) : editLine e = "edit ".toList ++
    (headText e ++ (" by=\"".toList ++ (e.who.toList.flatMap escapeChar ++ ['"'] ++ (" note=".toList ++ quote e.note.toList)))) := by
  unfold editLine headText headItems item quote escape List.intercalate
  simp only [List.intersperse_cons_cons, List.intersperse_singleton, List.flatten_cons, List.flatten_nil, List.append_nil,
    List.append_assoc, List.cons_append, List.nil_append]
  rfl

theorem item_word {key : String} (letters : ∀ c ∈ key.toList, isWhitespace c = false) (digits : ∀ c ∈ v, NumberChar c) :
    Word (item key v) := by
  refine ⟨by simp [item], fun c member => ?_⟩
  rcases List.mem_append.mp member with inside | inside
  · exact letters c inside
  · rcases List.mem_cons.mp inside with rfl | inside
    · decide
    · exact (digits c inside).plain.1

theorem headItems_word (e : Edit) : ∀ w ∈ headItems e, Word w := by
  intro w member
  simp only [headItems, List.mem_cons, List.not_mem_nil, or_false] at member
  rcases member with rfl | rfl | rfl | rfl | rfl | rfl | rfl
  · exact item_word (forall_mem_of_all (by decide)) paddedHex_chars
  · exact item_word (forall_mem_of_all (by decide)) paddedHex_chars
  · exact item_word (forall_mem_of_all (by decide)) decimal_chars
  · exact item_word (forall_mem_of_all (by decide)) lowerHex_chars
  · exact item_word (forall_mem_of_all (by decide)) decimal_chars
  · exact item_word (forall_mem_of_all (by decide)) hex_chars
  · exact item_word (forall_mem_of_all (by decide)) hex_chars

theorem splitWhitespace_intercalate {ws : List (List Char)} (words : ∀ w ∈ ws, Word w) (some : ws ≠ []) :
    splitWhitespace ([' '].intercalate ws) = ws := by
  induction ws with
  | nil => exact absurd rfl some
  | cons w ws ih =>
    cases ws with
    | nil => simpa [List.intercalate] using splitWhitespace_word (words w (by simp))
    | cons x ws =>
      have split : [' '].intercalate (w :: x :: ws) = w ++ ' ' :: [' '].intercalate (x :: ws) := by
        simp [List.intercalate]
      rw [split, splitWhitespace_cons (words w (by simp)), ih (fun y member => words y (by simp [member])) (by simp)]

theorem readField_item {fs : Fields} {key : String} (outside : '=' ∉ key.toList) :
    readField fs (item key v) = setField fs key.toList v := by
  rw [readField, item, splitOnce_append outside]
  rfl

private theorem setField_eq (fs : Fields) (v : List Char) :
    setField fs "shape".toList v = some (.ok { fs with shape := fromStrRadix 16 (2 ^ 64) v }) ∧
      setField fs "bytes".toList v = some (.ok { fs with bytes := fromStrRadix 16 (2 ^ 64) v }) ∧
      setField fs "insns".toList v = some (.ok { fs with insns := fromStrRadix 10 (2 ^ 32) v }) ∧
      setField fs "abs".toList v = some (.ok { fs with abs := fromStrRadix 16 (2 ^ 64) v }) ∧
      setField fs "off".toList v = question ((fromStrRadix 10 (2 ^ 32) v).map fun n => { fs with offset := n }) ∧
      setField fs "expect".toList v =
        Option.map (fun read => .ok { fs with expect := Except.toOption read }) (unhex v) ∧
      setField fs "replace".toList v =
        Option.map (fun read => .ok { fs with replace := Except.toOption read }) (unhex v) := by
  exact ⟨rfl, rfl, rfl, rfl, rfl, rfl, rfl⟩

private theorem question_some {α : Type} (a : α) : question (some a) = some (.ok a) := rfl

def bytesRead (bs : List UInt8) : Option (List UInt8) := if bs = [] then none else some bs

theorem setField_hex (fs : Fields) (bs : List UInt8) :
    setField fs "expect".toList (hex bs) = some (.ok { fs with expect := bytesRead bs }) ∧
      setField fs "replace".toList (hex bs) = some (.ok { fs with replace := bytesRead bs }) := by
  rw [(setField_eq _ _).2.2.2.2.2.1, (setField_eq _ _).2.2.2.2.2.2, unhex_hex]
  cases bs with
  | nil => exact ⟨rfl, rfl⟩
  | cons b bs => exact ⟨rfl, rfl⟩

theorem read_headItems (e : Edit) : (headItems e).foldlM readField {} =
    (some (.ok ⟨some e.target.shape.toNat, some e.target.bytes.toNat, some e.target.insns.toNat,
      some e.target.abs.toNat, e.target.offset.toNat, bytesRead e.expect, bytesRead e.replace⟩) : Reading Fields) := by
  unfold headItems
  rw [List.foldlM_cons, readField_item (by decide), (setField_eq _ _).1, read_paddedHex e.target.shape.toNat_lt,
    bind_ok _ rfl]
  rw [List.foldlM_cons, readField_item (by decide), (setField_eq _ _).2.1, read_paddedHex e.target.bytes.toNat_lt,
    bind_ok _ rfl]
  dsimp only
  rw [List.foldlM_cons, readField_item (by decide), (setField_eq _ _).2.2.1, read_decimal e.target.insns.toNat_lt,
    bind_ok _ rfl]
  dsimp only
  rw [List.foldlM_cons, readField_item (by decide), (setField_eq _ _).2.2.2.1, read_lowerHex e.target.abs.toNat_lt,
    bind_ok _ rfl]
  dsimp only
  rw [List.foldlM_cons, readField_item (by decide), (setField_eq _ _).2.2.2.2.1, read_decimal e.target.offset.toNat_lt,
    Option.map_some, bind_ok _ (question_some _)]
  dsimp only
  rw [List.foldlM_cons, readField_item (by decide), (setField_hex _ _).1, bind_ok _ rfl]
  dsimp only
  rw [List.foldlM_cons, readField_item (by decide), (setField_hex _ _).2, bind_ok _ rfl]
  rfl

variable {c : Char}

private theorem mem_intercalate {ws : List (List Char)} (member : c ∈ [' '].intercalate ws) :
    c = ' ' ∨ ∃ w ∈ ws, c ∈ w := by
  induction ws with
  | nil => simp [List.intercalate] at member
  | cons w ws ih =>
    cases ws with
    | nil => exact .inr ⟨w, by simp, by simpa [List.intercalate] using member⟩
    | cons x ws =>
      have split : [' '].intercalate (w :: x :: ws) = w ++ ' ' :: [' '].intercalate (x :: ws) := by
        simp [List.intercalate]
      rw [split] at member
      rcases List.mem_append.mp member with inside | inside
      · exact .inr ⟨w, by simp, inside⟩
      · rcases List.mem_cons.mp inside with blank | later
        · exact .inl blank
        · rcases ih later with blank | ⟨y, among, here⟩
          · exact .inl blank
          · exact .inr ⟨y, by simp [among], here⟩

theorem headText_plain (e : Edit) (blank : c ≠ ' ') (equal : c ≠ '=') (other : ∀ d, NumberChar d → d ≠ c)
    (keys : ∀ key ∈ ["shape", "bytes", "insns", "abs", "off", "expect", "replace"], c ∉ key.toList) :
    c ∉ headText e := by
  have each : ∀ {key : String} {v : List Char}, c ∉ key.toList → (∀ d ∈ v, NumberChar d) → c ∉ item key v := by
    intro key v outside digits member
    rcases List.mem_append.mp member with inside | inside
    · exact outside inside
    · rcases List.mem_cons.mp inside with is | inside
      · exact equal is
      · exact other c (digits c inside) rfl
  intro inside
  rcases mem_intercalate inside with is | ⟨w, member, here⟩
  · exact blank is
  · simp only [List.mem_cons, List.not_mem_nil, or_false, forall_eq_or_imp, forall_eq] at keys
    obtain ⟨shape, bytes, insns, abs, off, expect, replace⟩ := keys
    simp only [headItems, List.mem_cons, List.not_mem_nil, or_false] at member
    rcases member with rfl | rfl | rfl | rfl | rfl | rfl | rfl
    · exact each shape paddedHex_chars here
    · exact each bytes paddedHex_chars here
    · exact each insns decimal_chars here
    · exact each abs lowerHex_chars here
    · exact each off decimal_chars here
    · exact each expect hex_chars here
    · exact each replace hex_chars here

theorem editParts_editLine (e : Edit) : editParts (editLine e) = some (headText e, e.who.toList, e.note.toList) := by
  have head : '"' ∉ headText e :=
    headText_plain e (by decide) (by decide) (fun d digit => digit.plain.2.1) (by decide)
  have found := splitAtFirst_append (c := ' ') (p := ['b', 'y', '=', '"']) '"' (by decide) head (by decide)
    (e.who.toList.flatMap escapeChar ++ ['"'] ++ (" note=".toList ++ quote e.note.toList))
  have tail : (" by=\"".toList ++ (e.who.toList.flatMap escapeChar ++ ['"'] ++
      (" note=".toList ++ quote e.note.toList))).drop 4 = escape e.who.toList ++ (" note=".toList ++ quote e.note.toList) := by
    simp [escape]
  rw [editLine_eq, editParts, stripPrefix_append]
  simp only [Option.bind_eq_bind, Option.bind_some]
  rw [show splitAtFirst " by=\"".toList (headText e ++ (" by=\"".toList ++ _)) = _ from found]
  simp only [Option.bind_some]
  rw [show (' ' :: ['b', 'y', '=', '"']) = " by=\"".toList from rfl, tail, findQuoteEnd, findQuoteEnd_escape]
  simp only [Option.bind_some]
  rw [take_escape, drop_escape, unquote, unescape_escape]
  simp only [Option.bind_some]
  rw [stripPrefix_append]
  simp only [Option.bind_some]
  rw [quote, unquote, unescape_escape]
  rfl

theorem parseEdit_editLine (e : Edit) :
    (e.Sound → parseEdit (editLine e) = some (.ok e)) ∧ (¬e.Sound → parseEdit (editLine e) = some (.error ())) := by
  have fields := read_headItems e
  have words := splitWhitespace_intercalate (headItems_word e) (by simp [headItems])
  have run : parseEdit (editLine e) = question (editOf ⟨some e.target.shape.toNat, some e.target.bytes.toNat,
      some e.target.insns.toNat, some e.target.abs.toNat, e.target.offset.toNat, bytesRead e.expect,
      bytesRead e.replace⟩ e.who.toList e.note.toList) := by
    rw [parseEdit, editParts_editLine, bind_ok _ (question_some _)]
    dsimp only
    rw [headText, words, bind_ok _ fields]
  rw [run]
  obtain ⟨⟨shape, bytes, insns, abs, offset⟩, expect, replace, who, note⟩ := e
  constructor
  · rintro ⟨some, same⟩
    dsimp only at some same
    have more : replace ≠ [] := by
      rintro rfl
      exact some (List.length_eq_zero_iff.mp same.symm)
    rw [bytesRead, if_neg some, bytesRead, if_neg more]
    simp [editOf, Edit.new, some, same, Edit.by_, Edit.noted, question, Except.toOption]
  · intro unsound
    by_cases empty : expect = []
    · rw [bytesRead, if_pos empty]
      rfl
    · by_cases none : replace = []
      · rw [bytesRead, if_neg empty, bytesRead, if_pos none]
        rfl
      · have different : ¬expect.length = replace.length := fun same => unsound ⟨empty, same.symm⟩
        rw [bytesRead, if_neg empty, bytesRead, if_neg none]
        simp [editOf, Edit.new, empty, different, question, Except.toOption]

/-! ### Lines -/

theorem quoted_line {line : List Char} (first : line.head? = some c) (letter : isWhitespace c = false)
    (last : line.getLast? = some '"') (feed : '\n' ∉ line) : Line line ∧ Trimmed line := by
  refine ⟨⟨feed, by rw [last]; decide⟩, ⟨?_, ?_⟩⟩
  · intro d is
    rw [first] at is
    cases is
    exact letter
  · intro d is
    rw [last] at is
    cases is
    decide

theorem getLast_quote (a s : List Char) : (a ++ quote s).getLast? = some '"' := by
  rw [List.getLast?_append_of_ne_nil _ (by simp [quote, escape]), quote, getLast_escape]

theorem editLine_line (e : Edit) : Line (editLine e) ∧ Trimmed (editLine e) := by
  have first : (editLine e).head? = some 'e' := by
    rw [editLine_eq]
    rfl
  have last : (editLine e).getLast? = some '"' := by
    unfold editLine
    exact getLast_quote _ _
  refine quoted_line first (by decide) last ?_
  have head : '\n' ∉ headText e :=
    headText_plain e (by decide) (by decide) (fun d digit => digit.plain.2.2.2.1) (by decide)
  have who : '\n' ∉ e.who.toList.flatMap escapeChar ++ ['"'] := by
    have := feed_escape e.who.toList
    rw [escape, List.mem_cons, not_or] at this
    exact this.2
  rw [editLine_eq]
  simp only [List.mem_append, not_or] at who ⊢
  exact ⟨by decide, head, by decide, who, by decide, feed_escape _⟩

theorem nameLine_line (name : String) : Line (nameLine name) ∧ Trimmed (nameLine name) := by
  have first : (nameLine name).head? = some 'n' := rfl
  refine quoted_line first (by decide) (getLast_quote _ _) ?_
  rw [nameLine, List.mem_append, not_or]
  exact ⟨by decide, feed_escape _⟩

theorem readLines_name (number : ℕ) (p : Patch) (name : String) (rest : List (List Char)) :
    readLines number p (nameLine name :: rest) = readLines (number + 1) { p with name := name } rest := by
  have quoted : Trimmed (quote name.toList) := by
    refine ⟨?_, ?_⟩
    · intro c is
      rw [quote, head_escape] at is
      cases is
      decide
    · intro c is
      rw [quote, getLast_escape] at is
      cases is
      decide
  rw [readLines]
  rw [trim_eq (nameLine_line name).2, if_neg (by simp [nameLine]), nameLine, stripPrefix_append]
  dsimp only
  rw [trim_eq quoted, unquote, quote, unescape_escape]
  dsimp only
  rw [String.ofList_toList]

theorem readLines_binary (number : ℕ) (p : Patch) {b : String} (unspaced : ∀ c ∈ b.toList, isWhitespace c = false)
    (nonempty : b ≠ "") (rest : List (List Char)) :
    readLines number p (("binary ".toList ++ b.toList) :: rest) =
      readLines (number + 1) { p with binary := some b } rest := by
  obtain ⟨line, digest, -⟩ := binary_word unspaced (by simpa using nonempty)
  have other : stripPrefix "name ".toList ("binary ".toList ++ b.toList) = none := by
    simp [stripPrefix, List.isPrefixOf]
  rw [readLines]
  rw [trim_eq line, if_neg (by simp), other]
  dsimp only
  rw [stripPrefix_append]
  dsimp only
  rw [trim_eq digest, String.ofList_toList]

theorem readLines_emptyBinary (number : ℕ) (p : Patch) (rest : List (List Char)) :
    readLines number p (("binary ".toList ++ "".toList) :: rest) = some (.error (.malformed number "binary".toList)) := by
  rw [readLines]
  rw [show trim ("binary ".toList ++ "".toList) = "binary".toList by decide, if_neg (by decide)]
  rfl

theorem comment_marked : ∀ line ∈ commentLines, (trim line).head? = some '#' := by
  intro line member
  simp only [commentLines, List.mem_cons, List.not_mem_nil, or_false] at member
  rcases member with is | is | is | is | is <;> rw [is, String.toList_ofList] <;> decide

theorem comment_line : ∀ line ∈ commentLines, Line line := by
  intro line member
  simp only [commentLines, List.mem_cons, List.not_mem_nil, or_false] at member
  rcases member with is | is | is | is | is <;> rw [is, String.toList_ofList] <;> exact ⟨by decide, by decide⟩

theorem readLines_skip {comments : List (List Char)} (marked : ∀ line ∈ comments, (trim line).head? = some '#')
    (number : ℕ) (p : Patch) (rest : List (List Char)) :
    readLines number p (comments ++ rest) = readLines (number + comments.length) p rest := by
  induction comments generalizing number with
  | nil => rfl
  | cons line more ih =>
    rw [List.cons_append, readLines, if_pos (.inr (marked line List.mem_cons_self)),
      ih (fun line inside => marked line (List.mem_cons_of_mem _ inside)), List.length_cons, Nat.add_assoc, Nat.add_comm 1]

theorem readLines_comments (number : ℕ) (p : Patch) (rest : List (List Char)) :
    readLines number p (commentLines ++ rest) = readLines (number + 5) p rest :=
  readLines_skip comment_marked number p rest

theorem readLines_edit (number : ℕ) (p : Patch) (e : Edit) (rest : List (List Char)) :
    (∀ edit, parseEdit (editLine e) = some (.ok edit) →
      readLines number p (editLine e :: rest) = readLines (number + 1) (p.push edit) rest) ∧
      (parseEdit (editLine e) = some (.error ()) →
        readLines number p (editLine e :: rest) = some (.error (.malformed number (editLine e)))) := by
  obtain ⟨keep, named, binary⟩ := editParts_other (editParts_editLine e)
  rw [readLines]
  rw [trim_eq (editLine_line e).2, if_neg keep, named, binary]
  constructor
  · intro edit parsed
    rw [parsed]
  · intro parsed
    rw [parsed]

variable {es : List Edit}

theorem readLines_edits (sound : ∀ e ∈ es, e.Sound) (number : ℕ) (p : Patch) :
    readLines number p (es.map editLine) = some (.ok (es.foldl Patch.push p)) := by
  induction es generalizing number p with
  | nil => rfl
  | cons e es ih =>
    rw [List.map_cons, (readLines_edit _ _ _ _).1 e ((parseEdit_editLine e).1 (sound e (by simp))), List.foldl_cons]
    exact ih (fun f member => sound f (by simp [member])) _ _

/-- An edit that `new` would refuse is written as a line that is refused. -/
theorem readLines_unsound (unsound : ∃ e ∈ es, ¬e.Sound) (number : ℕ) (p : Patch) :
    ∃ error, readLines number p (es.map editLine) = some (.error error) := by
  induction es generalizing number p with
  | nil => simp at unsound
  | cons e es ih =>
    rw [List.map_cons]
    by_cases here : e.Sound
    · rw [(readLines_edit _ _ _ _).1 e ((parseEdit_editLine e).1 here)]
      obtain ⟨f, member, bad⟩ := unsound
      rcases List.mem_cons.mp member with rfl | later
      · exact absurd here bad
      · exact ih ⟨f, later, bad⟩ _ _
    · rw [(readLines_edit _ _ _ _).2 ((parseEdit_editLine e).2 here)]
      exact ⟨_, rfl⟩

variable {p : Patch}

theorem lines_toText (unspaced : Unspaced p.binary) : lines (toText p).toList =
    headerLine :: nameLine p.name :: (binaryLines p.binary ++ (commentLines ++ p.edits.map editLine)) := by
  rw [toText, String.toList_ofList, lines_writeLines]
  · simp
  · intro line member
    simp only [List.cons_append, List.mem_cons, List.mem_append, List.mem_map] at member
    rcases member with rfl | rfl | (inside | inside) | ⟨e, -, rfl⟩
    · exact ⟨by decide, by decide⟩
    · exact (nameLine_line p.name).1
    · exact LogText.binaryLines_line unspaced line inside
    · exact comment_line line inside
    · exact (editLine_line e).1

theorem fromText_of_lines {text name : String} {rest : List (List Char)}
    (whole : lines text.toList = headerLine :: nameLine name :: rest) :
    fromText text = readLines 3 (Patch.new name) rest := by
  have header : readHeader headerLine = .ok () := by decide
  rw [fromText, whole]
  simp only [List.headD_cons, List.drop_succ_cons, List.drop_zero]
  rw [header]
  exact readLines_name 2 _ name rest

theorem fromText_toText (unspaced : Unspaced p.binary) (nonempty : p.binary ≠ some "")
    (sound : ∀ e ∈ p.edits, e.Sound) :
    fromText (toText p) = some (.ok (p.edits.foldl Patch.push ⟨[], p.name, p.binary⟩)) := by
  rw [fromText_of_lines (lines_toText unspaced)]
  cases is : p.binary with
  | none =>
    rw [binaryLines, List.nil_append, readLines_comments, readLines_edits sound]
    rfl
  | some b =>
    have some : b ≠ "" := fun empty => nonempty (by rw [is, empty])
    rw [binaryLines, List.singleton_append, readLines_binary 3 _ (unspaced b is) some, readLines_comments,
      readLines_edits sound]
    rfl

theorem fromText_refuses (unspaced : Unspaced p.binary) (bad : p.binary = some "" ∨ ∃ e ∈ p.edits, ¬e.Sound) :
    ∃ error, fromText (toText p) = some (.error error) := by
  rw [fromText_of_lines (lines_toText unspaced)]
  by_cases empty : p.binary = some ""
  · rw [empty, binaryLines, List.singleton_append, readLines_emptyBinary]
    exact ⟨_, rfl⟩
  · have unsound := bad.resolve_left empty
    cases is : p.binary with
    | none =>
      rw [binaryLines, List.nil_append, readLines_comments]
      exact readLines_unsound unsound _ _
    | some b =>
      have some : b ≠ "" := fun none => empty (by rw [is, none])
      rw [binaryLines, List.singleton_append, readLines_binary 3 _ (unspaced b is) some, readLines_comments]
      exact readLines_unsound unsound _ _

/-! ### Pushing the edits again -/

/-- The order of edits. -/
def idKey (e : Edit) : ℕ := e.id.toNat

/-- Sorted by id, and no edit twice in a row under one id. -/
structure Kept (p : Patch) : Prop where
  sorted : Sorted idKey p.edits
  apart : ∀ k, (withKey idKey k p.edits).IsChain (· ≠ ·)

private theorem at_partition (sorted : Sorted idKey es) (e : Edit) :
    es[partitionPoint (fun f => decide (f.id < e.id)) es]? = some e ↔ (withKey idKey (idKey e) es).head? = some e := by
  have order : ∀ f : Edit, f.id < e.id ↔ idKey f < idKey e := fun f => UInt64.lt_iff_toNat_lt
  induction es with
  | nil => simp [partitionPoint]
  | cons f es ih =>
    obtain ⟨above, tail⟩ := List.pairwise_cons.mp sorted
    rw [withKey_cons]
    by_cases less : f.id < e.id
    · rw [if_neg (ne_of_lt ((order f).mp less))]
      simpa [partitionPoint, less] using ih tail
    · have here : partitionPoint (fun f => decide (f.id < e.id)) (f :: es) = 0 := by simp [partitionPoint, less]
      rw [here, List.getElem?_cons_zero]
      by_cases same : idKey f = idKey e
      · rw [if_pos same, List.head?_cons]
      · have greater : idKey e < idKey f := lt_of_le_of_ne (not_lt.mp fun below => less ((order f).mpr below)) (Ne.symm same)
        have none : withKey idKey (idKey e) es = [] :=
          (withKey_eq_nil idKey).mpr fun g member is => absurd (above g member) (by rw [is]; omega)
        rw [if_neg same, none]
        constructor
        · rintro ⟨⟩
          exact absurd rfl same
        · rintro ⟨⟩

theorem withKey_push (sorted : Sorted idKey p.edits) (e : Edit) (k : ℕ) :
    withKey idKey k (p.push e).edits =
      if idKey e = k ∧ (withKey idKey k p.edits).head? ≠ some e then e :: withKey idKey k p.edits
      else withKey idKey k p.edits := by
  have order : ∀ f : Edit, f.id < e.id ↔ idKey f < idKey e := fun f => UInt64.lt_iff_toNat_lt
  have entered : p.edits.insertIdx (partitionPoint (fun f => decide (f.id < e.id)) p.edits) e = put idKey e p.edits := by
    simp only [put, order]
  rw [Patch.push]
  by_cases held : p.edits[partitionPoint (fun f => decide (f.id < e.id)) p.edits]? = some e
  · rw [if_pos held]
    rw [at_partition sorted] at held
    rw [if_neg]
    rintro ⟨rfl, other⟩
    exact other held
  · rw [if_neg held]
    rw [at_partition sorted] at held
    dsimp only
    rw [entered, withKey_put idKey sorted]
    by_cases same : idKey e = k
    · subst same
      rw [if_pos rfl, if_pos ⟨rfl, held⟩]
    · rw [if_neg same, if_neg fun both => same both.1]

theorem push_sorted (sorted : Sorted idKey p.edits) (e : Edit) : Sorted idKey (p.push e).edits := by
  have order : ∀ f : Edit, f.id < e.id ↔ idKey f < idKey e := fun f => UInt64.lt_iff_toNat_lt
  rw [Patch.push]
  split
  · exact sorted
  · have entered : p.edits.insertIdx (partitionPoint (fun f => decide (f.id < e.id)) p.edits) e = put idKey e p.edits := by
      simp only [put, order]
    dsimp only
    rw [entered]
    exact put_sorted idKey sorted

theorem push_kept (kept : Kept p) (e : Edit) : Kept (p.push e) := by
  refine ⟨push_sorted kept.sorted e, fun k => ?_⟩
  rw [withKey_push kept.sorted]
  split
  · next enters =>
    refine (kept.apart k).cons fun f first => ?_
    rintro rfl
    exact enters.2 first
  · exact kept.apart k

theorem foldl_push_kept (kept : Kept p) (es : List Edit) : Kept (es.foldl Patch.push p) := by
  induction es generalizing p with
  | nil => exact kept
  | cons e es ih => exact ih (push_kept kept e)

theorem push_fields (p : Patch) (e : Edit) : (p.push e).name = p.name ∧ (p.push e).binary = p.binary := by
  rw [Patch.push]
  split
  · exact ⟨rfl, rfl⟩
  · exact ⟨rfl, rfl⟩

theorem foldl_push_fields (es : List Edit) (p : Patch) :
    (es.foldl Patch.push p).name = p.name ∧ (es.foldl Patch.push p).binary = p.binary := by
  induction es generalizing p with
  | nil => exact ⟨rfl, rfl⟩
  | cons e es ih =>
    obtain ⟨name, binary⟩ := push_fields p e
    obtain ⟨sameName, sameBinary⟩ := ih (p.push e)
    exact ⟨sameName.trans name, sameBinary.trans binary⟩

theorem withKey_foldl_push (apart : ∀ k, (withKey idKey k es).IsChain (· ≠ ·)) (k : ℕ) (name : String)
    (binary : Option String) :
    Sorted idKey (es.foldl Patch.push ⟨[], name, binary⟩).edits ∧
      withKey idKey k (es.foldl Patch.push ⟨[], name, binary⟩).edits = (withKey idKey k es).reverse := by
  induction es using List.reverseRecOn with
  | nil => exact ⟨.nil, rfl⟩
  | append_singleton es e ih =>
    have split : ∀ k, withKey idKey k (es ++ [e]) = withKey idKey k es ++ withKey idKey k [e] :=
      fun k => List.filter_append _ _
    have front : ∀ k, (withKey idKey k es).IsChain (· ≠ ·) := by
      intro k
      have := apart k
      rw [split] at this
      exact this.left_of_append
    obtain ⟨sorted, turned⟩ := ih front
    rw [List.foldl_append, List.foldl_cons, List.foldl_nil]
    refine ⟨push_sorted sorted e, ?_⟩
    rw [withKey_push sorted, turned, split, withKey_cons]
    by_cases same : idKey e = k
    · have last : (withKey idKey k es).getLast? ≠ some e := by
        intro is
        have := apart k
        rw [split, withKey_cons, if_pos same] at this
        obtain ⟨more, is⟩ := List.getLast?_eq_some_iff.mp is
        rw [is, withKey_nil] at this
        rw [List.append_assoc] at this
        have := (List.isChain_append.mp this).2.1
        simp at this
      rw [if_pos same, if_pos ⟨same, by rw [List.head?_reverse]; exact last⟩, withKey_nil, List.reverse_append]
      rfl
    · rw [if_neg same, if_neg fun both => same both.1, withKey_nil, List.append_nil]

/-- The edits of each id read the same backwards. -/
def Mirrored (p : Patch) : Prop := ∀ k, (withKey idKey k p.edits).reverse = withKey idKey k p.edits

/-- The reader gives back the edits, the name and the digest of a text. -/
def RoundTrips (p : Patch) : Prop :=
  ∃ back, fromText (toText p) = some (.ok back) ∧ back.edits = p.edits ∧ back.name = p.name ∧ back.binary = p.binary

theorem roundTrips_iff (kept : Kept p) (unspaced : Unspaced p.binary) :
    RoundTrips p ↔ p.binary ≠ some "" ∧ (∀ e ∈ p.edits, e.Sound) ∧ Mirrored p := by
  by_cases good : p.binary ≠ some "" ∧ ∀ e ∈ p.edits, e.Sound
  · have read := fromText_toText unspaced good.1 good.2
    obtain ⟨name, binary⟩ := foldl_push_fields p.edits ⟨[], p.name, p.binary⟩
    constructor
    · rintro ⟨back, accepted, edits, -⟩
      rw [read] at accepted
      cases accepted
      refine ⟨good.1, good.2, fun k => ?_⟩
      rw [← (withKey_foldl_push kept.apart k p.name p.binary).2, edits]
    · rintro ⟨-, -, mirrored⟩
      refine ⟨_, read, ?_, name, binary⟩
      refine sorted_ext idKey (withKey_foldl_push kept.apart 0 p.name p.binary).1 kept.sorted fun k => ?_
      rw [(withKey_foldl_push kept.apart k p.name p.binary).2, mirrored k]
  · have bad : p.binary = some "" ∨ ∃ e ∈ p.edits, ¬e.Sound := by
      by_cases empty : p.binary = some ""
      · exact .inl empty
      · refine .inr ?_
        by_contra none
        exact good ⟨empty, fun e member => not_not.mp fun unsound => none ⟨e, member, unsound⟩⟩
    obtain ⟨error, refused⟩ := fromText_refuses unspaced bad
    constructor
    · rintro ⟨back, accepted, -⟩
      rw [refused] at accepted
      cases accepted
    · rintro ⟨nonempty, sound, -⟩
      exact absurd ⟨nonempty, sound⟩ good

/-! ### Patch sets of any history -/

/-- The patch sets that are reached by any operations, with any edits, names and
    digests. -/
inductive Reachable : Patch → Prop where
  | new (name : String) : Reachable (Patch.new name)
  | push {p : Patch} (edit : Edit) (reached : Reachable p) : Reachable (p.push edit)
  | merge {p other : Patch} (reached : Reachable p) (reachedOther : Reachable other) : Reachable (p.merge other)
  | revert {p : Patch} (reached : Reachable p) : Reachable p.revert
  | rename {p : Patch} (name : String) (reached : Reachable p) : Reachable { p with name := name }
  | digest {p : Patch} (binary : Option String) (reached : Reachable p) : Reachable { p with binary := binary }
  | fromText {text : String} {p : Patch} (accepted : fromText text = some (.ok p)) : Reachable p

private theorem new_kept (name : String) (binary : Option String) : Kept ⟨[], name, binary⟩ := ⟨.nil, fun _ => .nil⟩

theorem readLines_kept {number : ℕ} {q : Patch} {ls : List (List Char)} (kept : Kept p)
    (read : readLines number p ls = some (.ok q)) : Kept q := by
  fun_induction readLines number p ls with
  | case1 =>
    cases read
    exact kept
  | case2 number p line rest trimmed skip ih => exact ih kept read
  | case3 number p line rest trimmed keep quoted strip name is ih => exact ih ⟨kept.sorted, kept.apart⟩ read
  | case4 => cases read
  | case5 number p line rest trimmed keep named digest strip ih => exact ih ⟨kept.sorted, kept.apart⟩ read
  | case6 => cases read
  | case7 number p line rest trimmed keep named other edit parsed ih => exact ih (push_kept kept edit) read
  | case8 => cases read

theorem reachable_kept (reached : Reachable p) : Kept p := by
  induction reached with
  | new name => exact new_kept name none
  | push edit _ ih => exact push_kept ih edit
  | @merge p other _ _ ih _ => exact foldl_push_kept ih other.edits
  | @revert p _ ih =>
    have turned : p.revert = (p.edits.map Edit.inverse).foldl Patch.push ⟨[], p.name, p.binary⟩ := by
      rw [List.foldl_map]
      rfl
    rw [turned]
    exact foldl_push_kept (new_kept p.name p.binary) _
  | rename _ _ ih => exact ⟨ih.sorted, ih.apart⟩
  | digest _ _ ih => exact ⟨ih.sorted, ih.apart⟩
  | @fromText text p accepted =>
    rw [PatchText.fromText] at accepted
    split at accepted
    · cases accepted
    · exact readLines_kept (new_kept "" none) accepted

/-! ### Logs and patch sets -/

/-- A log that is reached is read back exactly when its digest is not empty and no two
    records have one id and one sequence number; a patch set, when its digest is not
    empty, its edits are sound and those of each id read the same backwards. -/
theorem database_roundTrips_iff (log : Log) (p : Patch) :
    (LogText.Reachable log → Unspaced log.binary →
      (LogText.RoundTrips log ↔ log.binary ≠ some "" ∧ StrictlySorted Assertion.place log.records)) ∧
    (Reachable p → Unspaced p.binary →
      (RoundTrips p ↔ p.binary ≠ some "" ∧ (∀ e ∈ p.edits, e.Sound) ∧ Mirrored p)) :=
  ⟨fun reached unspaced => LogText.roundTrips_iff (LogText.reachable_sorted reached) unspaced,
    fun reached unspaced => roundTrips_iff (reachable_kept reached) unspaced⟩

def oneLog : Log := { LogHistory.oneAssertion with binary := some "sha256:abcd" }
def oneEdit : Edit := ⟨⟨1, 2, 4, 0x1000, 0⟩, [0x74], [0x90], "alice \"a\"", "jump\nnever"⟩
def onePatch : Patch := { (Patch.new "x").push oneEdit with binary := some "sha256:abcd" }

theorem database_roundTrips_one : LogText.RoundTrips oneLog ∧ RoundTrips onePatch := by
  have digest : Unspaced (some "sha256:abcd") := by
    intro b same
    cases same
    exact forall_mem_of_all (by decide)
  have asserted : LogText.Reachable LogHistory.oneAssertion := .assert _ _ _ _ .new
  have pushed : Reachable ((Patch.new "x").push oneEdit) := .push oneEdit (.new "x")
  have reachedLog : LogText.Reachable oneLog := asserted.digest (some "sha256:abcd")
  have reached : Reachable onePatch := pushed.digest (some "sha256:abcd")
  constructor
  · refine ((database_roundTrips_iff oneLog onePatch).1 reachedLog digest).mpr ⟨by decide, ?_⟩
    exact List.pairwise_singleton _ _
  · refine ((database_roundTrips_iff oneLog onePatch).2 reached digest).mpr ⟨by decide, ?_, ?_⟩
    · intro e member
      obtain rfl := List.mem_singleton.mp member
      exact ⟨by decide, rfl⟩
    · intro k
      have single : onePatch.edits = [oneEdit] := List.insertIdx_zero
      rw [single, withKey_cons, withKey_nil]
      split
      · exact List.reverse_singleton
      · exact List.reverse_nil

/-- A record that was taken back, merged again and redone is written twice and read
    once. -/
theorem repeated_record_lost :
    ¬∀ log, LogText.Reachable log → Unspaced log.binary → LogText.RoundTrips log := by
  intro always
  have asserted : LogText.Reachable LogHistory.oneAssertion := .assert _ _ _ _ .new
  have reached : LogText.Reachable (LogHistory.oneAssertion.undo.1.merge LogHistory.oneAssertion).redo.1 :=
    .redo (.merge (.undo asserted) asserted)
  have unspaced : Unspaced (LogHistory.oneAssertion.undo.1.merge LogHistory.oneAssertion).redo.1.binary := by
    have none : (LogHistory.oneAssertion.undo.1.merge LogHistory.oneAssertion).redo.1.binary = none := by decide
    rw [none]
    rintro _ ⟨⟩
  have strict := ((LogText.roundTrips_iff (LogText.reachable_sorted reached) unspaced).mp (always _ reached unspaced)).2
  have twice : ¬(LogHistory.oneAssertion.undo.1.merge LogHistory.oneAssertion).redo.1.records.Nodup := by decide +kernel
  exact twice strict.nodup

end E5r.PatchRoundTrip
