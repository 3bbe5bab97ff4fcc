import E5r.AnnotationLog

/-!
Reading a log from its text. The header names the format and its version, and
every later line is blank, a comment, the binary or one assertion. An accepted
text yields sorted records with distinct places (`fromText_strictlySorted`).
-/
namespace E5r.AnnotationText
open RustText SortedRecords AnnotationLog

/-- Why a text is refused. The source renders the number and the line of
    `malformed` into one message. -/
inductive Error where
  | notRecognized (expected : String)
  | badField (field : String) (value : ℕ) (reason : String)
  | unsupported (what : String)
  | malformed (number : ℕ) (line : List Char)
deriving DecidableEq

/-- Magic on the first line. -/
def TAG : String := "e5r-annotations"
/-- On-disk format version. -/
def VERSION : ℕ := 1

def unescapeBody : List Char → Option (List Char)
  | [] => some []
  | ['\\'] => none
  | '\\' :: c :: rest => (unescapeBody rest).map (fun out =>
      (match c with
        | 'n' => '\n'
        | 't' => '\t'
        | other => other) :: out)
  | c :: rest => (unescapeBody rest).map (fun out => c :: out)

def unescape (s : List Char) : Option (List Char) := do
  let body ← (stripPrefix ['"'] s).bind (stripSuffix ['"'])
  unescapeBody body

/-- The index of the closing quote, where the text continues at index `i`. The
    source counts bytes and skips one byte after a backslash. The other bytes of
    a longer character are neither a quote nor a backslash, so the whole
    character is skipped here. -/
def findQuoteFrom (i : ℕ) : List Char → Option ℕ
  | [] => none
  | ['\\'] => none
  | '\\' :: _ :: rest => findQuoteFrom (i + 2) rest
  | c :: rest => if c = '"' then some i else findQuoteFrom (i + 1) rest
def findQuoteEnd (s : List Char) : Option ℕ := findQuoteFrom 1 (s.drop 1)

/-- The fields of a record read so far. -/
structure Fields where
  shape : Option ℕ := none
  bytes : Option ℕ := none
  insns : Option ℕ := none
  abs : Option ℕ := none
  offset : ℕ := 0
  seq : Option ℕ := none
  id : Option ℕ := none
  who : List Char := []
  value : Option (Option (List Char)) := none

def setField (fs : Fields) (key v : List Char) : Option Fields :=
  if key = "shape".toList then some { fs with shape := fromStrRadix 16 (2 ^ 64) v }
  else if key = "bytes".toList then some { fs with bytes := fromStrRadix 16 (2 ^ 64) v }
  else if key = "insns".toList then some { fs with insns := fromStrRadix 10 (2 ^ 32) v }
  else if key = "abs".toList then some { fs with abs := fromStrRadix 16 (2 ^ 64) v }
  else if key = "off".toList then (fromStrRadix 10 (2 ^ 32) v).map (fun n => { fs with offset := n })
  else if key = "seq".toList then some { fs with seq := fromStrRadix 10 (2 ^ 64) v }
  else if key = "id".toList then some { fs with id := fromStrRadix 16 (2 ^ 64) v }
  else if key = "value".toList ∧ v = ['-'] then some { fs with value := some none }
  else none

def setQuoted (fs : Fields) (key v : List Char) : Option Fields :=
  if key = "by".toList then some { fs with who := v }
  else if key = "value".toList then some { fs with value := some (some v) }
  else none

/-- One turn of the reading loop: the fields and what is left to read. -/
def readField (fs : Fields) (cursor : List Char) : Option (Fields × List Char) := do
  let (key, after) ← splitOnce '=' cursor
  if after.head? = some '"' then
    let stop ← findQuoteEnd after
    let v ← unescape (after.take (stop + 1))
    let fs ← setQuoted fs key v
    return (fs, after.drop (stop + 1))
  else
    let v := after.takeWhile (fun c => c ≠ ' ')
    let fs ← setField fs key v
    return (fs, after.drop v.length)

/-- The reading loop. A turn takes at least one character, so the length of the
    text bounds the turns (`readFields_enough`). -/
def readFields : ℕ → Fields → List Char → Option Fields
  | 0, _, _ => none
  | n + 1, fs, cursor =>
    let cursor := trimStart cursor
    if cursor = [] then some fs
    else do
      let (fs, tail) ← readField fs cursor
      readFields n fs tail

private theorem readField_shorter {fs next : Fields} {cursor tail : List Char}
    (read : readField fs cursor = some (next, tail)) : tail.length < cursor.length := by
  simp only [readField, Option.bind_eq_bind, Option.bind_eq_some_iff] at read
  obtain ⟨⟨key, after⟩, split, body⟩ := read
  have whole := splitOnce_length split
  split at body
  · simp only [Option.bind_eq_some_iff, Option.pure_def, Option.some.injEq, Prod.mk.injEq] at body
    obtain ⟨stop, -, _, -, _, -, -, rfl⟩ := body
    simp only [List.length_drop]
    omega
  · simp only [Option.bind_eq_some_iff, Option.pure_def, Option.some.injEq, Prod.mk.injEq] at body
    obtain ⟨_, -, -, rfl⟩ := body
    simp only [List.length_drop]
    omega

theorem readFields_enough (n : ℕ) (fs : Fields) (cursor : List Char) (enough : cursor.length < n) :
    readFields n fs cursor = readFields (cursor.length + 1) fs cursor := by
  induction n using Nat.strong_induction_on generalizing fs cursor with
  | _ n ih =>
    obtain ⟨n, rfl⟩ : ∃ k, n = k + 1 := ⟨n - 1, by omega⟩
    rw [readFields, readFields]
    split
    · rfl
    next more =>
      cases read : readField fs (trimStart cursor) with
      | none => rfl
      | some result =>
        obtain ⟨next, tail⟩ := result
        have shorter := readField_shorter read
        have trimmed := length_trimStart_le cursor
        show readFields n next tail = readFields cursor.length next tail
        exact (ih n (by omega) next tail (by omega)).trans
          (ih cursor.length (by omega) next tail (by omega)).symm

def parseRecord (line : List Char) : Option Assertion := do
  let (fieldWord, rest) ← splitOnce ' ' line
  let field ← Field.parse fieldWord
  let fs ← readFields (rest.length + 1) {} rest
  let shape ← fs.shape
  let bytes ← fs.bytes
  let insns ← fs.insns
  let abs ← fs.abs
  let value ← fs.value
  let seq ← fs.seq
  let id ← fs.id
  return {
    target := {
      shape := .ofNat shape, bytes := .ofNat bytes, insns := .ofNat insns, abs := .ofNat abs,
      offset := .ofNat fs.offset }
    field
    value := value.map String.ofList
    seq := .ofNat seq
    id := .ofNat id
    who := String.ofList fs.who }

/-- The lines after the header, the first of them with number `number`. -/
def readLines (number : ℕ) (log : Log) : List (List Char) → Except Error Log
  | [] => .ok log
  | line :: rest =>
    let line := trim line
    if line.isEmpty ∨ line.head? = some '#' then readLines (number + 1) log rest
    else
      match stripPrefix "binary ".toList line with
      | some digest => readLines (number + 1) { log with binary := some (String.ofList (trim digest)) } rest
      | none =>
        match parseRecord line with
        | some r => readLines (number + 1) { log with records := log.records ++ [r] } rest
        | none => .error (.malformed number line)

def fromText (text : String) : Except Error Log :=
  let all := lines text.toList
  let parts := splitWhitespace (all.headD [])
  if parts.head? ≠ some TAG.toList then .error (.notRecognized "e5r annotation log")
  else
    match parts[1]?.bind (fromStrRadix 10 (2 ^ 32)) with
    | none => .error (.badField "format version" 0 "is missing from the header line")
    | some version =>
      if version > VERSION then
        .error (.unsupported s!"annotation format version {version}; this build knows {VERSION}")
      else do
        let log ← readLines 2 Log.new (all.drop 1)
        let records := dedupByKey Assertion.place (sortByKey Assertion.place log.records)
        return { log with records, nextSeq := ceiling records }

private theorem readLines_redoStack {number : ℕ} {log read : Log} {rest : List (List Char)}
    (done : readLines number log rest = .ok read) : read.redoStack = log.redoStack := by
  fun_induction readLines number log rest with
  | case1 => cases done; rfl
  | case2 number log line rest trimmed skip ih => exact ih done
  | case3 number log line rest trimmed keep digest found ih => exact ih done
  | case4 number log line rest trimmed keep other r parsed ih => exact ih done
  | case5 => cases done

/-- What an accepted text yields: sorted records, one of each place, a clock
    set after them, and nothing to redo. -/
theorem fromText_ok {text : String} {log : Log} (accepted : fromText text = .ok log) :
    StrictlySorted Assertion.place log.records ∧ log.nextSeq = ceiling log.records ∧ log.redoStack = [] := by
  rw [fromText] at accepted
  split at accepted
  · cases accepted
  · split at accepted
    · cases accepted
    · split at accepted
      · cases accepted
      · cases done : readLines 2 Log.new ((RustText.lines text.toList).drop 1) with
        | error e =>
          rw [done] at accepted
          cases accepted
        | ok read =>
          rw [done] at accepted
          cases accepted
          exact ⟨dedupByKey_strictlySorted _ (sortByKey_sorted _ _), rfl, readLines_redoStack done⟩

end E5r.AnnotationText
