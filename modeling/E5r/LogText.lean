import E5r.LogHistory
import E5r.QuotedText

/-!
Writing a log and reading it back. Every record is read back as it was written,
whatever its texts hold; the reader then sorts the records and keeps one of each
place (`fromText_toText`).
-/
namespace E5r.LogText
open RustText LineText QuotedText SortedRecords AnnotationLog AnnotationText

def asStr : Field → String
  | .name => "name"
  | .type => "type"
  | .comment => "comment"

def recordLine (r : Assertion) : List Char :=
  (asStr r.field).toList ++ " shape=".toList ++ paddedHex 16 r.target.shape.toNat ++
    " bytes=".toList ++ paddedHex 16 r.target.bytes.toNat ++ " insns=".toList ++ decimal r.target.insns.toNat ++
    " abs=".toList ++ lowerHex r.target.abs.toNat ++ " off=".toList ++ decimal r.target.offset.toNat ++
    " seq=".toList ++ decimal r.seq.toNat ++ " id=".toList ++ paddedHex 16 r.id.toNat ++
    " by=".toList ++ escape r.who.toList ++ " value=".toList ++
    (match r.value with
      | some v => escape v.toList
      | none => ['-'])

/-- The format and its version. -/
def headerLine : List Char := TAG.toList ++ ' ' :: decimal VERSION

def binaryLines (binary : Option String) : List (List Char) :=
  match binary with
  | some b => ["binary ".toList ++ b.toList]
  | none => []

def commentLines : List (List Char) :=
  ["# One assertion per line, sorted by content id. Order does not affect the".toList,
    "# result, so the union of two branches is the correct merge. Put this in".toList,
    "# .gitattributes so git does that for you:".toList,
    "#     *.e5r merge=union".toList,
    "# Do not sort or reflow by hand.".toList]

/-- Serialize, in the order of the records. -/
def toText (log : Log) : String :=
  String.ofList (writeLines (headerLine :: binaryLines log.binary ++ commentLines ++ log.records.map recordLine))

def readAll (fs : Fields) (cursor : List Char) : Option Fields := readFields (cursor.length + 1) fs cursor

theorem readAll_nil (fs : Fields) : readAll fs [] = some fs := rfl

theorem readFields_blank (n : ℕ) (fs : Fields) (cursor : List Char) :
    readFields n fs (' ' :: cursor) = readFields n fs cursor := by
  cases n with
  | zero => rfl
  | succ n => rfl

/-- A field of a line, with the blank before it. -/
def item (key : String) (v : List Char) : List Char := ' ' :: (key.toList ++ '=' :: v)

theorem head_item (key : String) (v : List Char) : (item key v).head? = some ' ' := rfl

variable (v : List Char)

theorem item_shape : item "shape" v = " shape=".toList ++ v := rfl
theorem item_bytes : item "bytes" v = " bytes=".toList ++ v := rfl
theorem item_insns : item "insns" v = " insns=".toList ++ v := rfl
theorem item_abs : item "abs" v = " abs=".toList ++ v := rfl
theorem item_off : item "off" v = " off=".toList ++ v := rfl
theorem item_seq : item "seq" v = " seq=".toList ++ v := rfl
theorem item_id : item "id" v = " id=".toList ++ v := rfl
theorem item_by : item "by" v = " by=".toList ++ v := rfl
theorem item_value : item "value" v = " value=".toList ++ v := rfl

structure IsKey (key : String) : Prop where
  nonempty : key.toList ≠ []
  first : ∀ c, key.toList.head? = some c → isWhitespace c = false
  outside : '=' ∉ key.toList

theorem isKey_of {key : String} (nonempty : key.toList ≠ [])
    (first : (key.toList.head?.all fun c => decide (isWhitespace c = false)) = true) (outside : '=' ∉ key.toList) :
    IsKey key :=
  ⟨nonempty, forall_some_of_all first, outside⟩

theorem readAll_field {fs : Fields} {key : String} {after : List Char} (isKey : IsKey key)
    {read : Option Fields} {tail : List Char} (shorter : tail.length ≤ after.length)
    (step : readField fs (key.toList ++ '=' :: after) = read.map fun next => (next, tail)) :
    readAll fs (item key after) = read.bind fun next => readAll next tail := by
  have whole : trimStart (key.toList ++ '=' :: after) = key.toList ++ '=' :: after := by
    refine trimStart_eq fun c head => isKey.first c ?_
    rwa [List.head?_append_of_ne_nil _ isKey.nonempty] at head
  rw [readAll, item, readFields_blank, readFields]
  dsimp only
  rw [whole, if_neg (by simp), step]
  cases read with
  | none => rfl
  | some next => exact readFields_enough _ next tail (by simp; omega)

theorem readAll_bare {fs : Fields} (key : String) {v tail : List Char} (isKey : IsKey key)
    (plain : ∀ d ∈ v, d ≠ ' ' ∧ d ≠ '"') (nonempty : v ≠ []) (stops : tail = [] ∨ tail.head? = some ' ') :
    readAll fs (item key (v ++ tail)) = (setField fs key.toList v).bind fun next => readAll next tail := by
  refine readAll_field isKey (by simp) ?_
  have value : (v ++ tail).takeWhile (fun c => c ≠ ' ') = v := by
    rw [List.takeWhile_append_of_pos fun d member => by simpa using (plain d member).1]
    rcases stops with rfl | blank
    · simp
    · cases tail with
      | nil => simp
      | cons d tail =>
        obtain rfl : d = ' ' := by simpa using blank
        simp
  have first : (v ++ tail).head? ≠ some '"' := by
    cases v with
    | nil => exact absurd rfl nonempty
    | cons d v => simpa using (plain d (by simp)).2
  rw [readField, splitOnce_append isKey.outside]
  simp only [Option.bind_eq_bind, Option.bind_some]
  rw [if_neg first, value]
  cases setField fs key.toList v with
  | none => rfl
  | some next =>
    show some (next, (v ++ tail).drop v.length) = _
    rw [List.drop_left' rfl]
    rfl

theorem readAll_quoted {fs : Fields} (key : String) {s tail : List Char} (isKey : IsKey key) :
    readAll fs (item key (escape s ++ tail)) = (setQuoted fs key.toList s).bind fun next => readAll next tail := by
  refine readAll_field isKey (by simp) ?_
  rw [readField, splitOnce_append isKey.outside]
  simp only [Option.bind_eq_bind, Option.bind_some]
  rw [if_pos (by rw [escape]; rfl), findQuoteEnd_escape]
  simp only [Option.bind_some]
  rw [take_escape, drop_escape, unescape_escape, Option.bind_some]
  cases setQuoted fs key.toList s with
  | none => rfl
  | some next => rfl

theorem number_plain {v : List Char} (digits : ∀ c ∈ v, NumberChar c) : ∀ d ∈ v, d ≠ ' ' ∧ d ≠ '"' :=
  fun d member => ⟨(digits d member).plain.2.2.2.2.1, (digits d member).plain.2.1⟩

theorem readAll_padded {fs : Fields} (key : String) {n width : ℕ} {tail : List Char} (isKey : IsKey key)
    (stops : tail = [] ∨ tail.head? = some ' ') :
    readAll fs (item key (paddedHex width n ++ tail)) =
      (setField fs key.toList (paddedHex width n)).bind fun next => readAll next tail :=
  readAll_bare key isKey (number_plain paddedHex_chars) paddedHex_ne_nil stops

theorem readAll_decimal {fs : Fields} (key : String) {n : ℕ} {tail : List Char} (isKey : IsKey key)
    (stops : tail = [] ∨ tail.head? = some ' ') :
    readAll fs (item key (decimal n ++ tail)) = (setField fs key.toList (decimal n)).bind fun next => readAll next tail :=
  readAll_bare key isKey (number_plain decimal_chars) decimal_ne_nil stops

def valueText (value : Option String) : List Char :=
  match value with
  | some v => escape v.toList
  | none => ['-']

theorem readAll_value {fs : Fields} (value : Option String) :
    readAll fs (item "value" (valueText value)) = some { fs with value := some (value.map String.toList) } := by
  have isKey : IsKey "value" := isKey_of (by decide) (by decide) (by decide)
  cases value with
  | none =>
    have := @readAll_bare fs "value" ['-'] [] isKey (forall_mem_of_all (by decide)) (by decide) (.inl rfl)
    rw [List.append_nil] at this
    rw [valueText, this, setField, if_neg (by decide), if_neg (by decide), if_neg (by decide), if_neg (by decide),
      if_neg (by decide), if_neg (by decide), if_neg (by decide), if_pos ⟨rfl, rfl⟩, Option.bind_some, readAll_nil]
    rfl
  | some v =>
    have := @readAll_quoted fs "value" v.toList [] isKey
    rw [List.append_nil] at this
    rw [valueText, this, setQuoted, if_neg (by decide), if_pos rfl, Option.bind_some, readAll_nil]
    rfl

/-- The fields of a line behind the name of what it sets. -/
def recordItems (r : Assertion) : List Char :=
  item "shape" (paddedHex 16 r.target.shape.toNat ++ item "bytes" (paddedHex 16 r.target.bytes.toNat ++
    item "insns" (decimal r.target.insns.toNat ++ item "abs" (lowerHex r.target.abs.toNat ++
    item "off" (decimal r.target.offset.toNat ++ item "seq" (decimal r.seq.toNat ++
    item "id" (paddedHex 16 r.id.toNat ++ item "by" (escape r.who.toList ++ item "value" (valueText r.value)))))))))

theorem recordLine_eq (r : Assertion) : recordLine r = (asStr r.field).toList ++ recordItems r := by
  unfold recordItems recordLine
  simp only [item_shape, item_bytes, item_insns, item_abs, item_off, item_seq, item_id, item_by, item_value,
    List.append_assoc]
  rfl

private theorem keys : IsKey "shape" ∧ IsKey "bytes" ∧ IsKey "insns" ∧ IsKey "abs" ∧ IsKey "off" ∧ IsKey "seq" ∧
    IsKey "id" ∧ IsKey "by" :=
  ⟨isKey_of (by decide) (by decide) (by decide), isKey_of (by decide) (by decide) (by decide),
    isKey_of (by decide) (by decide) (by decide), isKey_of (by decide) (by decide) (by decide),
    isKey_of (by decide) (by decide) (by decide), isKey_of (by decide) (by decide) (by decide),
    isKey_of (by decide) (by decide) (by decide), isKey_of (by decide) (by decide) (by decide)⟩

private theorem setField_eq (fs : Fields) (v : List Char) :
    setField fs "shape".toList v = some { fs with shape := fromStrRadix 16 (2 ^ 64) v } ∧
      setField fs "bytes".toList v = some { fs with bytes := fromStrRadix 16 (2 ^ 64) v } ∧
      setField fs "insns".toList v = some { fs with insns := fromStrRadix 10 (2 ^ 32) v } ∧
      setField fs "abs".toList v = some { fs with abs := fromStrRadix 16 (2 ^ 64) v } ∧
      setField fs "off".toList v = (fromStrRadix 10 (2 ^ 32) v).map (fun n => { fs with offset := n }) ∧
      setField fs "seq".toList v = some { fs with seq := fromStrRadix 10 (2 ^ 64) v } ∧
      setField fs "id".toList v = some { fs with id := fromStrRadix 16 (2 ^ 64) v } := by
  exact ⟨rfl, rfl, rfl, rfl, rfl, rfl, rfl⟩

theorem readAll_recordItems (r : Assertion) : readAll {} (recordItems r) =
    some ⟨some r.target.shape.toNat, some r.target.bytes.toNat, some r.target.insns.toNat, some r.target.abs.toNat,
      r.target.offset.toNat, some r.seq.toNat, some r.id.toNat, r.who.toList, some (r.value.map String.toList)⟩ := by
  obtain ⟨shape, bytes, insns, abs, off, seq, id, by_⟩ := keys
  rw [recordItems, readAll_padded "shape" shape (.inr (head_item _ _)), (setField_eq _ _).1,
    read_paddedHex r.target.shape.toNat_lt, Option.bind_some]
  dsimp only
  rw [readAll_padded "bytes" bytes (.inr (head_item _ _)), (setField_eq _ _).2.1,
    read_paddedHex r.target.bytes.toNat_lt, Option.bind_some]
  dsimp only
  rw [readAll_decimal "insns" insns (.inr (head_item _ _)), (setField_eq _ _).2.2.1,
    read_decimal r.target.insns.toNat_lt, Option.bind_some]
  dsimp only
  rw [readAll_bare "abs" abs (number_plain lowerHex_chars) lowerHex_ne_nil (.inr (head_item _ _)),
    (setField_eq _ _).2.2.2.1, read_lowerHex r.target.abs.toNat_lt, Option.bind_some]
  dsimp only
  rw [readAll_decimal "off" off (.inr (head_item _ _)), (setField_eq _ _).2.2.2.2.1,
    read_decimal r.target.offset.toNat_lt, Option.map_some, Option.bind_some]
  dsimp only
  rw [readAll_decimal "seq" seq (.inr (head_item _ _)), (setField_eq _ _).2.2.2.2.2.1, read_decimal r.seq.toNat_lt,
    Option.bind_some]
  dsimp only
  rw [readAll_padded "id" id (.inr (head_item _ _)), (setField_eq _ _).2.2.2.2.2.2, read_paddedHex r.id.toNat_lt,
    Option.bind_some]
  dsimp only
  rw [readAll_quoted "by" by_, setQuoted, if_pos rfl, Option.bind_some, readAll_value]

theorem readAll_blank (fs : Fields) (rest : List Char) : readAll fs (' ' :: rest) = readAll fs rest := by
  rw [readAll, readFields_blank]
  exact readFields_enough _ fs rest (by rw [List.length_cons]; omega)

theorem parseRecord_recordLine (r : Assertion) : parseRecord (recordLine r) = some r := by
  have word : ∀ f : Field, ' ' ∉ (asStr f).toList ∧ Field.parse (asStr f).toList = some f := by
    intro f
    cases f <;> decide
  obtain ⟨rest, shape⟩ : ∃ rest, recordItems r = ' ' :: rest := ⟨_, rfl⟩
  have fields := readAll_recordItems r
  rw [shape, readAll_blank, readAll] at fields
  rw [recordLine_eq, shape, parseRecord, splitOnce_append (word r.field).1]
  simp only [Option.bind_eq_bind, Option.bind_some]
  rw [(word r.field).2, fields]
  simp only [Option.bind_some]
  cases r
  simp

theorem recordLine_line (r : Assertion) : Line (recordLine r) ∧ Trimmed (recordLine r) := by
  have marks : ∀ f : Field, '\n' ∉ (asStr f).toList ∧ ∃ c rest, (asStr f).toList = c :: rest ∧ isWhitespace c = false := by
    intro f
    cases f
    · exact ⟨by decide, 'n', "ame".toList, rfl, by decide⟩
    · exact ⟨by decide, 't', "ype".toList, rfl, by decide⟩
    · exact ⟨by decide, 'c', "omment".toList, rfl, by decide⟩
  have number : ∀ {v : List Char}, (∀ c ∈ v, NumberChar c) → '\n' ∉ v :=
    fun digits member => (digits _ member).plain.2.2.2.1 rfl
  have value : '\n' ∉ valueText r.value ∧ ((valueText r.value).getLast? = some '"' ∨ (valueText r.value).getLast? = some '-') := by
    cases r.value with
    | none => exact ⟨by decide, .inr rfl⟩
    | some v => exact ⟨feed_escape _, .inl (getLast_escape _)⟩
  have last : (recordLine r).getLast? = (valueText r.value).getLast? := by
    have nonempty : valueText r.value ≠ [] := by
      intro empty
      rw [empty] at value
      simp at value
    show (_ ++ valueText r.value).getLast? = _
    rw [List.getLast?_append_of_ne_nil _ nonempty]
  obtain ⟨noFeed, c, more, head, letter⟩ := marks r.field
  have first : (recordLine r).head? = some c := by
    rw [recordLine_eq, head]
    rfl
  refine ⟨⟨?_, ?_⟩, ⟨?_, ?_⟩⟩
  · unfold recordLine
    simp only [List.mem_append, not_or]
    refine ⟨⟨⟨⟨⟨⟨⟨⟨⟨⟨⟨⟨⟨⟨⟨⟨⟨⟨noFeed, by decide⟩, number paddedHex_chars⟩, by decide⟩, number paddedHex_chars⟩,
      by decide⟩, number decimal_chars⟩, by decide⟩, number lowerHex_chars⟩, by decide⟩, number decimal_chars⟩,
      by decide⟩, number decimal_chars⟩, by decide⟩, number paddedHex_chars⟩, by decide⟩, feed_escape _⟩, by decide⟩,
      value.1⟩
  · rw [last]
    rcases value.2 with is | is
    · rw [is]
      decide
    · rw [is]
      decide
  · intro d is
    rw [first] at is
    cases is
    exact letter
  · intro d is
    rw [last] at is
    rcases value.2 with same | same
    · rw [same] at is
      cases is
      decide
    · rw [same] at is
      cases is
      decide

theorem readLines_record (number : ℕ) (log : Log) (r : Assertion) (rest : List (List Char)) :
    readLines number log (recordLine r :: rest) =
      readLines (number + 1) { log with records := log.records ++ [r] } rest := by
  have words : ∀ f : Field, ∃ c d more, (asStr f).toList = c :: d :: more ∧ c ≠ '#' ∧ c ≠ 'b' := by
    intro f
    cases f
    · exact ⟨'n', 'a', "me".toList, rfl, by decide, by decide⟩
    · exact ⟨'t', 'y', "pe".toList, rfl, by decide, by decide⟩
    · exact ⟨'c', 'o', "mment".toList, rfl, by decide, by decide⟩
  obtain ⟨c, d, more, word, comment, binary⟩ := words r.field
  have line : recordLine r = c :: d :: (more ++ recordItems r) := by
    rw [recordLine_eq, word]
    rfl
  have other : stripPrefix "binary ".toList (recordLine r) = none := by
    rw [line, stripPrefix, if_neg]
    intro starts
    obtain ⟨_, same⟩ := List.isPrefixOf_iff_prefix.mp starts
    exact binary (List.cons.inj same).1.symm
  rw [readLines]
  rw [trim_eq (recordLine_line r).2, if_neg (by rw [line]; simp [comment]), other, parseRecord_recordLine]

theorem readLines_records (number : ℕ) (log : Log) (rs : List Assertion) :
    readLines number log (rs.map recordLine) = .ok { log with records := log.records ++ rs } := by
  induction rs generalizing number log with
  | nil => simp [readLines]
  | cons r rs ih =>
    rw [List.map_cons, readLines_record, ih]
    simp

theorem comment_marked : ∀ line ∈ commentLines, (trim line).head? = some '#' := by
  intro line member
  simp only [commentLines, List.mem_cons, List.not_mem_nil, or_false] at member
  rcases member with is | is | is | is | is <;> rw [is, String.toList_ofList] <;> decide

theorem comment_line : ∀ line ∈ commentLines, Line line := by
  intro line member
  simp only [commentLines, List.mem_cons, List.not_mem_nil, or_false] at member
  rcases member with is | is | is | is | is <;> rw [is, String.toList_ofList] <;> exact ⟨by decide, by decide⟩

theorem readLines_skip {comments : List (List Char)} (marked : ∀ line ∈ comments, (trim line).head? = some '#')
    (number : ℕ) (log : Log) (rest : List (List Char)) :
    readLines number log (comments ++ rest) = readLines (number + comments.length) log rest := by
  induction comments generalizing number with
  | nil => rfl
  | cons line more ih =>
    rw [List.cons_append, readLines, if_pos (.inr (marked line List.mem_cons_self)),
      ih (fun line inside => marked line (List.mem_cons_of_mem _ inside)), List.length_cons, Nat.add_assoc, Nat.add_comm 1]

theorem readLines_comments (number : ℕ) (log : Log) (rest : List (List Char)) :
    readLines number log (commentLines ++ rest) = readLines (number + 5) log rest :=
  readLines_skip comment_marked number log rest

/-- A digest without white space. -/
def Unspaced (binary : Option String) : Prop := ∀ b, binary = some b → ∀ c ∈ b.toList, isWhitespace c = false

theorem binary_word {b : List Char} (unspaced : ∀ c ∈ b, isWhitespace c = false) (some : b ≠ []) :
    Trimmed ("binary ".toList ++ b) ∧ Trimmed b ∧ Line ("binary ".toList ++ b) := by
  have last : ("binary ".toList ++ b).getLast? = b.getLast? := List.getLast?_append_of_ne_nil _ some
  have ends : ∀ c, b.getLast? = Option.some c → isWhitespace c = false :=
    fun c is => unspaced c (List.mem_of_getLast? is)
  refine ⟨⟨?_, ?_⟩, ⟨fun c is => unspaced c (List.mem_of_head? is), ends⟩, ?_, ?_⟩
  · intro c is
    cases is
    decide
  · intro c is
    exact ends c (last ▸ is)
  · rw [List.mem_append, not_or]
    exact ⟨by decide, fun member => absurd (unspaced _ member) (by decide)⟩
  · rw [last]
    intro is
    exact absurd (ends _ is) (by decide)

theorem readLines_binary (number : ℕ) (log : Log) {b : String} (unspaced : ∀ c ∈ b.toList, isWhitespace c = false)
    (nonempty : b ≠ "") (rest : List (List Char)) :
    readLines number log (("binary ".toList ++ b.toList) :: rest) =
      readLines (number + 1) { log with binary := some b } rest := by
  have some : b.toList ≠ [] := by simpa using nonempty
  obtain ⟨line, digest, -⟩ := binary_word unspaced some
  rw [readLines]
  rw [trim_eq line, if_neg (by simp), stripPrefix_append]
  dsimp only
  rw [trim_eq digest, String.ofList_toList]

theorem readLines_emptyBinary (number : ℕ) (log : Log) (rest : List (List Char)) :
    readLines number log (("binary ".toList ++ "".toList) :: rest) = .error (.malformed number "binary".toList) := by
  rw [readLines]
  rw [show trim ("binary ".toList ++ "".toList) = "binary".toList by decide, if_neg (by decide)]
  rfl

theorem binaryLines_line {binary : Option String} (unspaced : Unspaced binary) : ∀ line ∈ binaryLines binary, Line line := by
  intro line member
  cases binary with
  | none => cases member
  | some b =>
    obtain rfl := List.mem_singleton.mp member
    by_cases empty : b.toList = []
    · rw [empty]
      exact ⟨by decide, by decide⟩
    · exact (binary_word (unspaced b rfl) empty).2.2

theorem lines_toText {log : Log} (unspaced : Unspaced log.binary) : lines (toText log).toList =
    headerLine :: (binaryLines log.binary ++ (commentLines ++ log.records.map recordLine)) := by
  rw [toText, String.toList_ofList, lines_writeLines]
  · simp
  · intro line member
    simp only [List.cons_append, List.mem_cons, List.mem_append, List.mem_map] at member
    rcases member with rfl | (inside | inside) | ⟨r, -, rfl⟩
    · exact ⟨by decide, by decide⟩
    · exact binaryLines_line unspaced line inside
    · exact comment_line line inside
    · exact (recordLine_line r).1

theorem fromText_of_lines {text : String} {rest : List (List Char)} (whole : lines text.toList = headerLine :: rest) :
    fromText text = do
      let log ← readLines 2 Log.new rest
      let records := dedupByKey Assertion.place (sortByKey Assertion.place log.records)
      return { log with records, nextSeq := ceiling records } := by
  have words : splitWhitespace headerLine = [TAG.toList, ['1']] := by decide
  have version : fromStrRadix 10 (2 ^ 32) ['1'] = some 1 := by decide
  unfold fromText
  rw [whole]
  simp only [List.headD_cons, List.drop_succ_cons, List.drop_zero]
  rw [words]
  simp only [List.head?_cons, ne_eq, not_true_eq_false, if_false, List.getElem?_cons_succ, List.getElem?_cons_zero,
    Option.bind_some]
  rw [version]
  rfl

theorem fromText_toText {log : Log} (unspaced : Unspaced log.binary) (nonempty : log.binary ≠ some "") :
    ∃ back, fromText (toText log) = .ok back ∧ back.binary = log.binary ∧
      back.records = dedupByKey Assertion.place (sortByKey Assertion.place log.records) := by
  rw [fromText_of_lines (lines_toText unspaced)]
  cases is : log.binary with
  | none =>
    rw [binaryLines, List.nil_append, readLines_comments, readLines_records]
    exact ⟨_, rfl, rfl, rfl⟩
  | some b =>
    have some : b ≠ "" := fun empty => nonempty (by rw [is, empty])
    rw [binaryLines, List.singleton_append, readLines_binary 2 Log.new (unspaced b is) some, readLines_comments,
      readLines_records]
    exact ⟨_, rfl, rfl, rfl⟩

theorem fromText_emptyBinary {log : Log} (is : log.binary = some "") :
    fromText (toText log) = .error (.malformed 2 "binary".toList) := by
  have unspaced : Unspaced log.binary := by
    intro b same c member
    rw [is] at same
    cases same
    cases member
  rw [fromText_of_lines (lines_toText unspaced), is, binaryLines, List.singleton_append, readLines_emptyBinary]
  rfl

/-- The reader gives back the records and the digest of a text. -/
def RoundTrips (log : Log) : Prop :=
  ∃ back, fromText (toText log) = .ok back ∧ back.records = log.records ∧ back.binary = log.binary

private theorem dedup_sorted_iff {records : List Assertion} (sorted : Sorted Assertion.place records) :
    dedupByKey Assertion.place (sortByKey Assertion.place records) = records ↔
      StrictlySorted Assertion.place records := by
  have same : sortByKey Assertion.place records = records :=
    List.mergeSort_of_pairwise (sorted.imp fun below => decide_eq_true below)
  rw [same]
  constructor
  · intro kept
    rw [← kept]
    exact dedupByKey_strictlySorted _ sorted
  · intro strict
    exact (List.destutter_eq_self_iff _ _).mpr ((strict.imp fun less => ne_of_lt less).isChain)

/-- A log with sorted records is read back exactly when its digest is not empty and no
    two records have one place. -/
theorem roundTrips_iff {log : Log} (sorted : Sorted Assertion.place log.records) (unspaced : Unspaced log.binary) :
    RoundTrips log ↔ log.binary ≠ some "" ∧ StrictlySorted Assertion.place log.records := by
  by_cases empty : log.binary = some ""
  · constructor
    · rintro ⟨back, accepted, -⟩
      rw [fromText_emptyBinary empty] at accepted
      cases accepted
    · rintro ⟨nonempty, -⟩
      exact absurd empty nonempty
  · obtain ⟨back, accepted, binary, records⟩ := fromText_toText unspaced empty
    rw [← dedup_sorted_iff sorted]
    constructor
    · rintro ⟨other, same, held, -⟩
      rw [accepted] at same
      cases same
      exact ⟨empty, records ▸ held⟩
    · rintro ⟨-, held⟩
      exact ⟨back, accepted, records.trans held, binary⟩

/-- The logs that are reached by any operations and any digests. -/
inductive Reachable : Log → Prop where
  | new : Reachable Log.new
  | assert {log : Log} (target : Anchor) (field : Field) (value : Option String) (who : String) (reached : Reachable log) :
      Reachable (log.assert target field value who).1
  | undo {log : Log} (reached : Reachable log) : Reachable log.undo.1
  | redo {log : Log} (reached : Reachable log) : Reachable log.redo.1
  | merge {log other : Log} (reached : Reachable log) (reachedOther : Reachable other) : Reachable (log.merge other)
  | digest {log : Log} (binary : Option String) (reached : Reachable log) : Reachable { log with binary := binary }
  | fromText {text : String} {log : Log} (accepted : fromText text = .ok log) : Reachable log

/-- No operation looks at the digest. -/
theorem reachable_built {log : Log} (reached : Reachable log) :
    ∃ built, LogHistory.Reachable built ∧ built.records = log.records ∧ built.nextSeq = log.nextSeq ∧
      built.redoStack = log.redoStack := by
  induction reached with
  | new => exact ⟨_, .new, rfl, rfl, rfl⟩
  | assert target field value who _ ih =>
    obtain ⟨built, history, records, next, -⟩ := ih
    exact ⟨_, .assert target field value who history trivial, by simp [Log.assert, records, next],
      by simp [Log.assert, next], rfl⟩
  | undo _ ih =>
    obtain ⟨built, history, records, next, stack⟩ := ih
    refine ⟨_, .undo history trivial, ?_⟩
    unfold Log.undo
    rw [records]
    split
    · exact ⟨records, next, stack⟩
    · split
      · exact ⟨records, next, stack⟩
      · exact ⟨rfl, next, by rw [stack]⟩
  | redo _ ih =>
    obtain ⟨built, history, records, next, stack⟩ := ih
    refine ⟨_, .redo history trivial, ?_⟩
    unfold Log.redo
    rw [stack]
    split
    · exact ⟨records, next, stack⟩
    · exact ⟨by rw [records], next, rfl⟩
  | merge _ _ ih ihOther =>
    obtain ⟨built, history, records, next, stack⟩ := ih
    obtain ⟨builtOther, historyOther, recordsOther, -⟩ := ihOther
    exact ⟨_, .merge history historyOther trivial, by simp [Log.merge, records, recordsOther],
      by simp [Log.merge, records, recordsOther, next], stack⟩
  | digest _ _ ih => exact ih
  | fromText accepted => exact ⟨_, .fromText accepted trivial, rfl, rfl, rfl⟩

theorem reachable_sorted {log : Log} (reached : Reachable log) : Sorted Assertion.place log.records := by
  obtain ⟨built, history, records, -⟩ := reachable_built reached
  rw [← records]
  exact LogHistory.built_sorted history

end E5r.LogText
