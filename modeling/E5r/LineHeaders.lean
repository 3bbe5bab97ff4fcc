import E5r.LineReads

/-!
Reading the header of a line number program gives what its operations depend on, with
the names of its file tables.
-/
namespace E5r.LineHeaders
open Cursor DwarfModel LineProgram LineMachine LineReads RustText

section
variable {e : Endian}

variable {β : Type} {bs : List UInt8}

theorem takes_bind_pure {α : Type} {m : Read α} {v : α} (first : Takes e m bs v) (f : α → β) :
    Takes e (m >>= fun a => pure (f a)) bs (f v) := by
  have := first.bind (f := fun a => pure (f a)) (.pure (f v))
  rwa [List.append_nil] at this

/-! ### File tables before DWARF 5 -/

variable {cs : List UInt8}

theorem takes_cstr_zero {s : List UInt8} (plain : 0 ∉ s) {f : List UInt8 → Read β} {w : β}
    (second : Takes e (f s) cs w) : Takes e (cstr >>= f) (s ++ 0 :: cs) w := by
  have := (takes_cstr plain).bind second
  rwa [List.append_assoc, List.singleton_append] at this

theorem takes_skipDirectories (directories : Directories bs) : ∀ {n : ℕ}, bs.length ≤ n →
    Takes e (skipDirectories n) bs PUnit.unit := by
  induction directories with
  | nil =>
    intro n enough
    obtain ⟨n, rfl⟩ : ∃ k, n = k + 1 := ⟨n - 1, by simp at enough; omega⟩
    exact takes_cstr_zero (s := []) (List.not_mem_nil) (.pure PUnit.unit)
  | @cons s cs nonempty plain rest ih =>
    intro n enough
    have positive := List.length_pos_iff.mpr nonempty
    rw [List.length_append, List.length_cons] at enough
    obtain ⟨n, rfl⟩ : ∃ k, n = k + 1 := ⟨n - 1, by omega⟩
    have more : Takes e (if s.isEmpty then pure PUnit.unit else skipDirectories n) cs PUnit.unit := by
      rw [if_neg (by simpa using nonempty)]
      exact ih (by omega)
    exact takes_cstr_zero plain more

theorem takes_three (numbers : Numbers 3 bs) {α : Type} {m : Read α} {w : α} (next : Takes e m cs w) :
    Takes e (do
      let _ ← uleb128
      let _ ← uleb128
      let _ ← uleb128
      m) (bs ++ cs) w := by
  cases numbers with
  | cons first numbers =>
    cases numbers with
    | cons second numbers =>
      cases numbers with
      | cons third numbers =>
        cases numbers
        rw [List.append_nil, List.append_assoc, List.append_assoc]
        exact (takes_number first).bind (f := fun _ => _) ((takes_number second).bind (f := fun _ => _)
          ((takes_number third).bind (f := fun _ => _) next))

variable {names : List String}

theorem takes_fileEntries (files : Files names bs) : ∀ {n : ℕ}, bs.length ≤ n →
    Takes e (fileEntries n) bs names := by
  induction files with
  | nil =>
    intro n enough
    obtain ⟨n, rfl⟩ : ∃ k, n = k + 1 := ⟨n - 1, by simp at enough; omega⟩
    exact takes_cstr_zero (s := []) (List.not_mem_nil) (.pure [])
  | @cons s bs cs names nonempty plain operands rest ih =>
    intro n enough
    have positive := List.length_pos_iff.mpr nonempty
    rw [List.length_append, List.length_cons, List.length_append] at enough
    obtain ⟨n, rfl⟩ : ∃ k, n = k + 1 := ⟨n - 1, by omega⟩
    have later := takes_bind_pure (ih (n := n) (by omega)) (fun files => fromUtf8Lossy s :: files)
    have entry := takes_three operands later
    have more : Takes e (if s.isEmpty then pure [] else do
        let _ ← uleb128
        let _ ← uleb128
        let _ ← uleb128
        let files ← fileEntries n
        pure (fromUtf8Lossy s :: files)) (bs ++ cs) (fromUtf8Lossy s :: names) := by
      rw [if_neg (by simpa using nonempty)]
      exact entry
    exact takes_cstr_zero plain more

theorem takes_fileNamesV4 (directories : Directories bs) (files : Files names cs) :
    Takes e fileNamesV4 (bs ++ cs) ("" :: names) := by
  intro c rest order here
  rw [List.append_assoc] at here
  have inside : bs.length ≤ c.data.length := by
    have whole : c.data.length - c.pos = (bs ++ (cs ++ rest)).length := by
      rw [← here]
      exact List.length_drop.symm
    rw [List.length_append] at whole
    omega
  have first := takes_skipDirectories directories inside c _ order here
  have after := Cur.rest_advance here
  have second := takes_fileEntries files (n := (c.advance bs.length).rest.length + 1) (by rw [after, List.length_append]; omega)
    (c.advance bs.length) rest order after
  unfold fileNamesV4
  rw [first]
  show (fileEntries _ (c.advance bs.length) >>= _) = _
  rw [second, Cur.advance_advance, List.length_append]
  rfl

/-! ### Entry tables of DWARF 5 -/

variable {sections : Sections} {sixtyFour : Bool}

theorem takes_offset {v : ℕ} (is : Offset e sixtyFour bs v) : Takes e (offset sixtyFour) bs v := by
  obtain ⟨width, rfl⟩ := is
  unfold offset
  cases sixtyFour with
  | true => exact takes_sized width
  | false => exact takes_sized width

theorem stringAt_eq {section_ s : List UInt8} {at_ : ℕ} (text : StringIn section_ at_ s) :
    stringAt section_ at_ = fromUtf8Lossy s := by
  obtain ⟨before, after, rfl, rfl, plain⟩ := text
  have whole : slice (before ++ s ++ 0 :: after) before.length (before ++ s ++ 0 :: after).length = some (s ++ 0 :: after) := by
    unfold slice
    rw [if_pos ⟨by simp, le_refl _⟩, List.take_length, List.append_assoc, List.drop_left' rfl]
  unfold stringAt
  rw [whole]
  dsimp only
  rw [List.takeWhile_append_of_pos]
  · simp
  · intro b member
    have : b ≠ 0 := fun zero => plain (zero ▸ member)
    simpa using this

variable {form : ℕ}

theorem takes_readForm {unit : DwarfModel.Unit} {v : Value} (direct : form ≠ DW_FORM_INDIRECT)
    (reads : Takes e (readDirect form 0 unit) bs v) : Takes e (readForm form 0 unit) bs v := by
  intro c rest order here
  unfold readForm readFormFrom
  rw [if_neg direct]
  exact reads c rest order here

def text : Value → Option String
  | .string s => some s
  | _ => none

theorem takes_field {name : Option String} (field : Field e sections sixtyFour form bs name) :
    ∃ v, Takes e (readForm form 0 (tableUnit sections e sixtyFour)) bs v ∧ text v = name := by
  cases field with
  | string plain =>
    have reads := takes_bind_pure (e := e) (takes_cstr plain) (fun s => Value.string (fromUtf8Lossy s))
    exact ⟨_, takes_readForm (by decide) reads, rfl⟩
  | lineStrp offset is =>
    have reads := takes_bind_pure (e := e) (takes_offset offset) (fun o => Value.string (stringAt sections.lineStr o))
    exact ⟨_, takes_readForm (by decide) reads, congrArg some (stringAt_eq is)⟩
  | strp offset is =>
    have reads := takes_bind_pure (e := e) (takes_offset offset) (fun o => Value.string (stringAt sections.str o))
    exact ⟨_, takes_readForm (by decide) reads, congrArg some (stringAt_eq is)⟩
  | udata value =>
    have reads := takes_bind_pure (e := e) (takes_number value) Value.unsigned
    exact ⟨_, takes_readForm (by decide) reads, rfl⟩
  | data1 width =>
    have reads := takes_bind_pure (e := e) (takes_sized width) Value.unsigned
    exact ⟨_, takes_readForm (by decide) reads, rfl⟩
  | data2 width =>
    have reads := takes_bind_pure (e := e) (takes_sized width) Value.unsigned
    exact ⟨_, takes_readForm (by decide) reads, rfl⟩
  | data4 width =>
    have reads := takes_bind_pure (e := e) (takes_sized width) Value.unsigned
    exact ⟨_, takes_readForm (by decide) reads, rfl⟩
  | data8 width =>
    have reads := takes_bind_pure (e := e) (takes_sized width) Value.unsigned
    exact ⟨_, takes_readForm (by decide) reads, rfl⟩
  | data16 width =>
    have reads := takes_bind_pure (e := e) (takes_bytes bs) Value.block
    rw [width] at reads
    exact ⟨_, takes_readForm (by decide) reads, rfl⟩
  | @block size bs length =>
    have reads := (takes_number (e := e) length).bind (f := fun n => bytes n >>= fun bs => pure (Value.block bs))
      (takes_bind_pure (takes_bytes bs) Value.block)
    exact ⟨_, takes_readForm (by decide) reads, rfl⟩

variable {formats : List (ℕ × ℕ)}

theorem takes_entry {name : Option String} (entry : Entry e sections sixtyFour formats bs name) : ∀ start : String,
    Takes e (entryName (tableUnit sections e sixtyFour) formats start) bs (name.getD start) := by
  induction entry with
  | nil => exact fun start => .pure start
  | @path form formats bs cs name later field rest ih =>
    intro start
    obtain ⟨v, reads, is⟩ := takes_field field
    cases v with
    | string s =>
      obtain rfl : s = name := Option.some.inj is
      have := reads.bind (f := fun value => entryName (tableUnit sections e sixtyFour) formats
        (match value with
          | .string s => if DW_LNCT_PATH = DW_LNCT_PATH then s else start
          | _ => start)) (ih s)
      cases later with
      | none => exact this
      | some l => exact this
    | _ => cases is
  | @other content form formats bs cs value later unlike field rest ih =>
    intro start
    have same : ∀ v : Value, (match v with
        | .string s => if content = DW_LNCT_PATH then s else start
        | _ => start) = start := by
      intro v
      cases v with
      | string s => exact if_neg unlike
      | _ => rfl
    obtain ⟨v, reads, -⟩ := takes_field field
    have := reads.bind (f := fun value => entryName (tableUnit sections e sixtyFour) formats
      (match value with
        | .string s => if content = DW_LNCT_PATH then s else start
        | _ => start)) (by rw [same]; exact ih start)
    exact this

theorem takes_entries (entries : Entries e sections sixtyFour formats names bs) :
    Takes e (repeatRead (entryName (tableUnit sections e sixtyFour) formats "") names.length) bs names := by
  induction entries with
  | nil => exact .pure []
  | @cons name names bs cs first rest ih =>
    exact (takes_entry first "").bind (f := fun a => repeatRead _ names.length >>= fun rest => pure (a :: rest))
      (takes_bind_pure ih _)

theorem takes_formats (is : Formats formats bs) :
    Takes e (repeatRead (do pure (← uleb128, ← uleb128)) formats.length) bs formats := by
  induction is with
  | nil => exact .pure []
  | @cons content form formats bs cs ds first second rest ih =>
    have pair := (takes_number (e := e) first).bind (f := fun a => uleb128 >>= fun b => pure (a, b))
      (takes_bind_pure (takes_number second) fun b => (content, b))
    exact pair.bind (f := fun a => repeatRead _ formats.length >>= fun rest => pure (a :: rest)) (takes_bind_pure ih _)

theorem field_length_pos {name : Option String} (field : Field e sections sixtyFour form bs name) : 0 < bs.length := by
  have number : ∀ {bs v}, Number bs v → 0 < bs.length := by
    rintro bs v ⟨groups, -⟩
    cases groups <;> exact Nat.succ_pos _
  cases field with
  | string plain => simp
  | lineStrp offset is =>
    have := offset.1
    split at this <;> omega
  | strp offset is =>
    have := offset.1
    split at this <;> omega
  | udata value => exact number value
  | block length =>
    have := number length
    rw [List.length_append]
    omega
  | _ => omega

theorem entries_length (some : formats ≠ []) (entries : Entries e sections sixtyFour formats names bs) :
    names.length ≤ bs.length := by
  induction entries with
  | nil => exact le_refl _
  | @cons name names bs cs first rest ih =>
    have positive : 0 < bs.length := by
      cases first with
      | nil => exact absurd rfl some
      | path field =>
        have := field_length_pos field
        rw [List.length_append]
        omega
      | other _ field =>
        have := field_length_pos field
        rw [List.length_append]
        omega
    rw [List.length_cons, List.length_append]
    omega

theorem takes_table (table : Table e sections sixtyFour names bs) (inside : bs.length ≤ sections.line.length) :
    Takes e (entryTable (tableUnit sections e sixtyFour)) bs names := by
  cases table with
  | @table n formats names bs cs ds fields described count entries some =>
    have few : names.length ≤ sections.line.length := by
      rcases some with some | rfl
      · have := entries_length some entries
        simp only [List.length_cons, List.length_append] at inside
        omega
      · exact Nat.zero_le _
    have last : Takes e (if (tableUnit sections e sixtyFour).sections.line.length < names.length then fun _ => none
        else repeatRead (entryName (tableUnit sections e sixtyFour) formats "") names.length) ds names := by
      rw [if_neg (by exact Nat.not_lt.mpr few)]
      exact takes_entries entries
    have counted := (takes_number (e := e) count).bind (f := fun count =>
      if (tableUnit sections e sixtyFour).sections.line.length < count then fun _ => none
      else repeatRead (entryName (tableUnit sections e sixtyFour) formats "") count) last
    have formatted := (fields ▸ takes_formats (e := e) described).bind (f := fun formats => uleb128 >>= fun count =>
      if (tableUnit sections e sixtyFour).sections.line.length < count then fun _ => none
      else repeatRead (entryName (tableUnit sections e sixtyFour) formats "") count) counted
    rw [← List.append_assoc] at formatted
    exact (takes_u8 n).bind (f := fun formatCount => repeatRead _ formatCount >>= fun formats => uleb128 >>= fun count =>
      if (tableUnit sections e sixtyFour).sections.line.length < count then fun _ => none
      else repeatRead (entryName (tableUnit sections e sixtyFour) formats "") count) formatted

/-! ### Headers -/

theorem takes_fileNames {version : ℕ} {files : List String}
    (tables : FileTables e sections sixtyFour version files bs) (inside : bs.length ≤ sections.line.length) :
    Takes e (fileNames sections sixtyFour version) bs files := by
  intro c rest order here
  unfold fileNames
  cases tables with
  | old before directories files =>
    rw [if_neg (by omega)]
    exact takes_fileNamesV4 directories files c rest order here
  | @new directories names bs cs first second =>
    rw [List.length_append] at inside
    have reads : Takes e (fileNamesV5 (tableUnit sections e sixtyFour)) (bs ++ cs) files :=
      Takes.bind (takes_table first (by omega)) (takes_table second (by omega))
    rw [if_pos (le_refl _), order]
    exact reads c rest order here

theorem takes_u8_bind {f : ℕ → Read β} {b : UInt8} {w : β} (next : Takes e (f b.toNat) cs w) :
    Takes e (u8 >>= f) (b :: cs) w := (takes_u8 b).bind next

theorem takes_u8s (bs : List UInt8) : Takes e (repeatRead u8 bs.length) bs (bs.map UInt8.toNat) := by
  induction bs with
  | nil => exact .pure []
  | cons b bs ih =>
    refine takes_u8_bind ?_
    exact takes_bind_pure ih _

def fieldBytes (version : ℕ) (minimum stmt base range opcodeBase : UInt8) (lengths tables : List UInt8) : List UInt8 :=
  [minimum] ++ (if 4 ≤ version then [1] else []) ++ [stmt, base, range, opcodeBase] ++ lengths ++ tables

theorem takes_headerFields {version : ℕ} {minimum stmt base range opcodeBase : UInt8} {lengths tables : List UInt8}
    {files : List String} (rangePositive : 1 ≤ range.toNat) (basePositive : 1 ≤ opcodeBase.toNat)
    (lengthsWidth : lengths.length = opcodeBase.toNat - 1) (isTables : FileTables e sections sixtyFour version files tables)
    (inside : tables.length ≤ sections.line.length) :
    Takes e (headerFields sections sixtyFour version) (fieldBytes version minimum stmt base range opcodeBase lengths tables)
      ⟨minimum.toNat, stmt ≠ 0, toI8 base.toNat, range.toNat, opcodeBase.toNat, lengths.map UInt8.toNat, files⟩ := by
  have operations : Takes e (maximumOperations version) (if 4 ≤ version then [1] else []) 1 := by
    unfold maximumOperations
    by_cases four : 4 ≤ version
    · rw [if_pos four, if_pos four]
      exact takes_u8 1
    · rw [if_neg four, if_neg four]
      exact .pure 1
  have standard : Takes e (repeatRead u8 (max opcodeBase.toNat 1 - 1)) lengths (lengths.map UInt8.toNat) := by
    rw [max_eq_left basePositive, ← lengthsWidth]
    exact takes_u8s lengths
  have same : (⟨minimum.toNat, stmt ≠ 0, toI8 base.toNat, range.toNat, opcodeBase.toNat, lengths.map UInt8.toNat, files⟩ : Header) =
      ⟨minimum.toNat, stmt.toNat ≠ 0, toI8 base.toNat, max range.toNat 1, max opcodeBase.toNat 1, lengths.map UInt8.toNat,
        files⟩ := by
    rw [max_eq_left rangePositive, max_eq_left basePositive]
    have : stmt ≠ 0 ↔ stmt.toNat ≠ 0 := not_congr UInt8.toNat_inj.symm
    simp only [this]
  unfold fieldBytes headerFields
  rw [same]
  simp only [List.append_assoc, List.cons_append, List.nil_append]
  refine takes_u8_bind ?_
  refine Takes.bind operations ?_
  refine takes_u8_bind (takes_u8_bind (takes_u8_bind (takes_u8_bind ?_)))
  refine Takes.bind standard ?_
  exact takes_bind_pure (takes_fileNames isTables inside) _

theorem takes_addressSizes {version : ℕ} {sizes : List UInt8} (width : sizes.length = if 5 ≤ version then 2 else 0) :
    Takes e (addressSizes version) sizes (sizes.map UInt8.toNat) := by
  unfold addressSizes
  rw [← width]
  exact takes_u8s sizes

theorem takes_initialLength {length : ℕ} (is : InitialLength e sixtyFour length bs) :
    Takes e initialLength bs (sixtyFour, length) := by
  cases is with
  | short width small =>
    have reads : Takes e (if toNat e bs = 0xffffffff then u64 >>= fun n => pure (true, n) else pure (false, toNat e bs)) []
        (false, toNat e bs) := by
      rw [if_neg (by omega)]
      exact .pure _
    have := (takes_sized (e := e) width).bind (f := fun length => if length = 0xffffffff then u64 >>= fun n => pure (true, n)
      else pure (false, length)) reads
    rwa [List.append_nil] at this
  | @long bs width =>
    have ones : toNat e [255, 255, 255, 255] = 0xffffffff := by cases e <;> decide
    have reads : Takes e (if toNat e [255, 255, 255, 255] = 0xffffffff then u64 >>= fun n => pure (true, n)
        else pure (false, toNat e [255, 255, 255, 255])) bs (true, toNat e bs) := by
      rw [if_pos ones]
      exact takes_bind_pure (takes_sized width) fun n => (true, n)
    exact (takes_sized (e := e) (n := 4) rfl).bind (f := fun length => if length = 0xffffffff then u64 >>= fun n => pure (true, n)
      else pure (false, length)) reads

variable {h : Header} {c : Cur}

theorem run_programHeader {version : ℕ} {versionBytes sizes headerLength fields extra code rest : List UInt8}
    (versionWidth : versionBytes.length = 2) (isVersion : toNat e versionBytes = version)
    (supported : 2 ≤ version ∧ version ≤ 5) (sizesWidth : sizes.length = if 5 ≤ version then 2 else 0)
    (reads : Takes e (headerFields sections sixtyFour version) fields h)
    (isHeaderLength : Offset e sixtyFour headerLength (fields ++ extra).length) (order : c.endian = e)
    (memory : c.data.length < 2 ^ 64)
    (here : c.rest = (versionBytes ++ sizes ++ headerLength ++ (fields ++ extra) ++ code) ++ rest) :
    ∃ c', programHeader sections sixtyFour c =
      some (some (h, c.pos + (versionBytes ++ sizes ++ headerLength ++ (fields ++ extra)).length), c') ∧
      c'.data = c.data ∧ c'.endian = c.endian := by
  have whole : c.data.length - c.pos = ((versionBytes ++ sizes ++ headerLength ++ (fields ++ extra) ++ code) ++ rest).length := by
    rw [← here]
    exact List.length_drop.symm
  simp only [List.length_append] at whole
  simp only [List.append_assoc] at here
  have first : u16 c = some (toNat e versionBytes, c.advance versionBytes.length) := takes_sized versionWidth c _ order here
  have second := takes_addressSizes sizesWidth (c.advance versionBytes.length) _ order (Cur.rest_advance here)
  have third := takes_offset isHeaderLength ((c.advance versionBytes.length).advance sizes.length) _ order
    (Cur.rest_advance (Cur.rest_advance here))
  have fourth := reads (((c.advance versionBytes.length).advance sizes.length).advance headerLength.length) _ order
    (Cur.rest_advance (Cur.rest_advance (Cur.rest_advance here)))
  let c' := ((c.advance versionBytes.length).advance sizes.length).advance headerLength.length
  refine ⟨c'.advance fields.length, ?_, rfl, rfl⟩
  have at_ : position c' = some (c.pos + versionBytes.length + sizes.length + headerLength.length, c') := rfl
  unfold programHeader
  rw [run_bind first, isVersion, if_neg (by omega), run_bind second, run_bind third, run_bind at_, run_bind fourth]
  have start : wrap (c.pos + versionBytes.length + sizes.length + headerLength.length + (fields ++ extra).length) =
      c.pos + (versionBytes ++ sizes ++ headerLength ++ (fields ++ extra)).length := by
    unfold wrap
    simp only [List.length_append]
    rw [Nat.mod_eq_of_lt (by omega)]
    omega
  rw [start]
  rfl

/-! ### Programs -/

theorem run_programHead {code rest : List UInt8} (program : Program e sections h code bs) (order : c.endian = e)
    (data : c.data = sections.line) (memory : c.data.length < 2 ^ 64) (here : c.rest = bs ++ rest) :
    ∃ length start c', programHead sections c = some ((length, c.pos + bs.length, some (h, start)), c') ∧ c'.data = c.data ∧
      c'.endian = c.endian ∧ start + code.length = c.pos + bs.length ∧ c.data.drop start = code ++ rest ∧ code.length ≤ length := by
  have whole : c.data.length - c.pos = (bs ++ rest).length := by
    rw [← here]
    exact List.length_drop.symm
  cases program with
  | @program sixtyFour minimum stmt base range opcodeBase version files length versionBytes sizes headerLength lengths tables extra
      code versionWidth isVersion supported sizesWidth minimumPositive rangePositive basePositive lengthsWidth isTables
      isHeaderLength isLength =>
    let fields := fieldBytes version minimum stmt base range opcodeBase lengths tables
    change Offset e sixtyFour headerLength (fields ++ extra).length at isHeaderLength
    let body := versionBytes ++ sizes ++ headerLength ++ (fields ++ extra) ++ code
    change InitialLength e sixtyFour body.length length at isLength
    change c.rest = length ++ body ++ rest at here
    change c.data.length - c.pos = (length ++ body ++ rest).length at whole
    show ∃ n start c', programHead sections c = some ((n, c.pos + (length ++ body).length, _), c') ∧ _ ∧ _ ∧
      start + code.length = c.pos + (length ++ body).length ∧ _
    have sizesOf : body.length = versionBytes.length + sizes.length + headerLength.length + (fields ++ extra).length + code.length := by
      simp only [body, List.length_append]
    have tablesInside : tables.length ≤ (fields ++ extra).length := by
      simp only [fields, fieldBytes, List.length_append]
      omega
    rw [List.append_assoc] at here
    simp only [@List.length_append _ (length ++ body), @List.length_append _ length] at whole ⊢
    have inside : tables.length ≤ sections.line.length := by
      rw [← data]
      omega
    have first := takes_initialLength isLength c _ order here
    obtain ⟨c', ran, data', order'⟩ := run_programHeader versionWidth isVersion supported sizesWidth
      (takes_headerFields rangePositive basePositive lengthsWidth isTables inside) isHeaderLength
      (c := c.advance length.length) order memory (Cur.rest_advance here)
    refine ⟨body.length, c.pos + length.length + (body.length - code.length), c', ?_, data', order', by omega, ?_, by omega⟩
    · have at_ : position (c.advance length.length) = some (c.pos + length.length, c.advance length.length) := rfl
      unfold programHead
      rw [run_bind first]
      dsimp only
      rw [run_bind at_, if_neg (by rw [← data]; omega), run_bind ran]
      have start : (c.advance length.length).pos + (versionBytes ++ sizes ++ headerLength ++ (fields ++ extra)).length =
          c.pos + length.length + (body.length - code.length) := by
        simp only [@List.length_append _ _ (fields ++ extra), @List.length_append _ _ headerLength,
          @List.length_append _ _ sizes, Cur.pos_advance]
        omega
      show some ((body.length, c.pos + length.length + body.length, some (_, _)), c') = _
      rw [start, Nat.add_assoc c.pos]
    · have before : c.rest = length ++ (versionBytes ++ sizes ++ headerLength ++ (fields ++ extra)) ++ (code ++ rest) := by
        rw [here]
        simp only [body, List.append_assoc]
      have at_ : c.pos + (length ++ (versionBytes ++ sizes ++ headerLength ++ (fields ++ extra))).length =
          c.pos + length.length + (body.length - code.length) := by
        simp only [@List.length_append _ _ (fields ++ extra), @List.length_append _ _ headerLength,
          @List.length_append _ _ sizes, @List.length_append _ length]
        omega
      have after := Cur.rest_advance before
      rw [← at_]
      exact after

theorem program_positive {code : List UInt8} (program : Program e sections h code bs) :
    1 ≤ h.opcodeBase ∧ 1 ≤ h.minimumInstructionLength ∧ 0 < bs.length := by
  cases program with
  | program versionWidth isVersion supported sizesWidth minimumPositive rangePositive basePositive =>
    refine ⟨basePositive, minimumPositive, ?_⟩
    simp only [List.length_append]
    omega

theorem ended_rows {ops : List Op} {m : Machine} (start : m.rows = [])
    (ended : ops = [] ∨ ops.getLast? = some .endSequence) : (ops.foldl (Machine.exec h) m).rows = [] := by
  rcases ended with rfl | last
  · exact start
  · obtain ⟨before, rfl⟩ := List.getLast?_eq_some_iff.mp last
    rw [List.foldl_append]
    rfl

theorem run_lineProgram {ops : List Op} {code rest : List UInt8} (program : Program e sections h code bs)
    (operations : Code e h ops code) (ended : ops = [] ∨ ops.getLast? = some .endSequence)
    (fits : RunFits h ⟨.start h h.files, [], []⟩ ops) (order : c.endian = e) (data : c.data = sections.line)
    (memory : c.data.length < 2 ^ 64) (here : c.rest = bs ++ rest) :
    lineProgram sections c = ((sequences h ops).flatMap sequenceRows, some (c.seek (c.pos + bs.length))) := by
  obtain ⟨length, start, c', head, data', order', ends, code', short⟩ := run_programHead program order data memory here
  have inside : c.data.length - c.pos = (bs ++ rest).length := by
    rw [← here]
    exact List.length_drop.symm
  obtain ⟨base, positive, some⟩ := program_positive program
  rw [List.length_append] at inside
  have at_ : (c'.seek start).pos = start := Nat.min_eq_left (by rw [data']; omega)
  have codeHere : (c'.seek start).rest = code ++ rest := by
    unfold Cur.rest
    rw [at_, Cur.data_seek, data', code']
  have ran := @run_code e _ _ _ operations base positive length (c.pos + bs.length) rest
    ⟨.start h h.files, [], []⟩ (.new h.defaultIsStmt) (c'.seek start) (c'.data.length + 1)
    ⟨rfl, rfl, rfl, rfl, rfl, rfl, rfl⟩ fits (order'.trans order) (by rw [Cur.data_seek, data']; exact memory) codeHere
    (by rw [at_]; exact ends) (by simpa [machineRows] using short) (by rw [data']; omega)
  have rows := ended_rows (h := h) (m := ⟨.start h h.files, [], []⟩) rfl ended
  unfold lineProgram
  rw [head]
  refine ran.trans ?_
  have same : (c'.seek start).seek (c.pos + bs.length) = c.seek (c.pos + bs.length) := by
    unfold Cur.seek
    simp only [data', order']
  unfold machineRows
  rw [rows, same, List.map_nil, List.append_nil]
  rfl

/-- The programs of a section give the rows of all their sequences. -/
theorem run_linesFrom {programs : List (Header × List Op)} {bs : List UInt8} (is : Programs e sections programs bs)
    (fits : ∀ p ∈ programs, RunFits p.1 ⟨.start p.1 p.1.files, [], []⟩ p.2) (memory : sections.line.length < 2 ^ 64) :
    ∀ {c : Cur} {fuel : ℕ} {rows : List LineRow}, c.data = sections.line → c.endian = e → c.rest = bs → bs.length < fuel →
      LineProgram.linesFrom sections fuel c rows = rows ++ (allSequences programs).flatMap sequenceRows := by
  induction is with
  | nil =>
    intro c fuel rows data order here enough
    obtain ⟨fuel, rfl⟩ : ∃ n, fuel = n + 1 := ⟨fuel - 1, by simp at enough; omega⟩
    rw [LineProgram.linesFrom, if_pos (by simp [Cur.isEmpty, here])]
    simp [allSequences]
  | @cons h ops later code bs cs first operations ended more ih =>
    intro c fuel rows data order here enough
    obtain ⟨fuel, rfl⟩ : ∃ n, fuel = n + 1 := ⟨fuel - 1, by omega⟩
    have ran := run_lineProgram first operations ended (fits _ List.mem_cons_self) order data (data ▸ memory) here
    have some := (program_positive first).2.2
    have nonempty : bs ≠ [] := List.length_pos_iff.mp some
    have moved := Cur.seek_advance here nonempty
    rw [List.length_append] at enough
    have unread : ¬c.isEmpty := by simp [Cur.isEmpty, here, nonempty]
    rw [LineProgram.linesFrom, if_neg unread, ran, moved]
    dsimp only
    rw [if_neg (by rw [Cur.pos_advance]; omega)]
    have later := @ih (fun p member => fits p (List.mem_cons_of_mem _ member)) (c.advance bs.length) fuel
      (rows ++ (sequences h ops).flatMap sequenceRows) data order (Cur.rest_advance here) (by omega)
    rw [later]
    simp [allSequences, List.append_assoc]

/-- Decoding a section of programs gives the rows of their sequences in order. -/
theorem lines_eq {programs : List (Header × List Op)} (is : Programs e sections programs sections.line)
    (fits : ∀ p ∈ programs, RunFits p.1 ⟨.start p.1 p.1.files, [], []⟩ p.2) (memory : sections.line.length < 2 ^ 64) :
    LineProgram.lines sections e = (allSequences programs).flatMap sequenceRows := by
  have := @run_linesFrom _ _ _ _ is fits memory (.new sections.line e) _ [] rfl rfl rfl (Nat.lt_succ_self _)
  simpa [LineProgram.lines] using this
end

end E5r.LineHeaders
