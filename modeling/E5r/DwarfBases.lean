import E5r.DwarfReads

/-!
Parsing a section of DWARF 5 units: what is read of every unit, and when that is what
the unit wrote.
-/
namespace E5r.DwarfBases
open Cursor DwarfModel DwarfUnits DwarfTrees DwarfReads LineProgram LineMachine LineReads
  E5r.LineHeaders E5r.RustText

/-- Entries whose attributes have the values that a unit wrote. -/
def EntriesMean (sections : Sections) (u : WrittenUnit) (entries : List (ℕ × DwarfUnits.Entry)) : Prop :=
  List.Forall₂ (fun p q => p.1 = q.1 ∧ p.2.tag = q.2.tag ∧ p.2.parent = q.2.parent ∧
    List.Forall₂ (fun a b => a.1 = b.1 ∧ u.means sections b.2 a.2) p.2.attributes q.2.attributes) entries u.entries

/-- Units as they are written: with the bases of their own and the values they wrote. -/
def Wrote (sections : Sections) (us : List WrittenUnit) (reads : List ReadUnit) : Prop :=
  List.Forall₂ (fun r u => r.unit = WrittenUnit.own sections u ∧ EntriesMean sections u r.entries ∧
    r = ownBases (WrittenUnit.default sections u) r.entries) reads us

section
variable {sections : Sections} {u : WrittenUnit}

theorem takes_unitSizes {unitType size : UInt8} {abbrevAt : List UInt8} {abbrevOffset : ℕ} {e : Endian} {sixtyFour : Bool}
    (isOffset : Offset e sixtyFour abbrevAt abbrevOffset) :
    Takes e (unitSizes 5 sixtyFour) ([unitType, size] ++ abbrevAt) (size.toNat, abbrevOffset) := by
  unfold unitSizes
  rw [if_pos (by decide)]
  refine takes_u8_bind (takes_u8_bind ?_)
  exact takes_bind_pure (takes_offset isOffset) fun abbrevOffset => (size.toNat, abbrevOffset)

theorem get_read (unit : DwarfModel.Unit) (entry : WrittenEntry) (attribute_ : ℕ) :
    (WrittenEntry.read unit entry).get attribute_ = (getKey entry.attributes attribute_).map (Written.read unit) := by
  unfold DwarfUnits.Entry.get getKey WrittenEntry.read
  rw [List.find?_map, Option.map_map, Option.map_map]
  rfl

theorem ownBases_read (strBase : Declares u.entries DW_AT_STR_OFFSETS_BASE u.strBase)
    (addrBase : Declares u.entries DW_AT_ADDR_BASE u.addrBase) :
    (WrittenUnit.read sections u).unit = WrittenUnit.own sections u := by
  obtain ⟨at_, root, rest, entries, foundStr⟩ := strBase
  obtain ⟨at_', root', rest', entries', foundAddr⟩ := addrBase
  rw [entries] at entries'
  obtain ⟨same, -⟩ := List.cons.inj entries'
  obtain ⟨rfl, rfl⟩ := Prod.mk.inj same
  unfold WrittenUnit.read
  rw [entries]
  unfold ownBases DwarfUnits.Entry.base
  simp only [List.map_cons, get_read, foundStr, foundAddr]
  rfl

theorem run_unitHead {length version abbrevAt code rest : List UInt8} {unitType size : UInt8} {abbrevOffset : ℕ} {e : Endian}
    {sixtyFour : Bool} {c : Cur} (isVersion : version.length = 2 ∧ toNat e version = 5)
    (isOffset : Offset e sixtyFour abbrevAt abbrevOffset)
    (isLength : InitialLength e sixtyFour (version ++ [unitType, size] ++ abbrevAt ++ code).length length) (order : c.endian = e)
    (data : c.data = sections.info) (memory : sections.info.length < 2 ^ 64)
    (here : c.rest = length ++ (version ++ [unitType, size] ++ abbrevAt ++ code) ++ rest) :
    unitHead sections c = some (⟨sixtyFour, (version ++ [unitType, size] ++ abbrevAt ++ code).length,
      c.pos + (length ++ (version ++ [unitType, size] ++ abbrevAt ++ code)).length, 5, size.toNat, abbrevOffset⟩,
      c.advance (length ++ version ++ [unitType, size] ++ abbrevAt).length) := by
  have whole : c.data.length - c.pos = (length ++ (version ++ [unitType, size] ++ abbrevAt ++ code) ++ rest).length := by
    rw [← here]
    exact List.length_drop.symm
  have here : c.rest = length ++ (version ++ (([unitType, size] ++ abbrevAt) ++ (code ++ rest))) := by
    rw [here]
    simp only [List.append_assoc]
  have first := takes_initialLength isLength c _ order here
  have second : u16 (c.advance length.length) = some (toNat e version, (c.advance length.length).advance version.length) :=
    takes_sized isVersion.1 _ _ order (Cur.rest_advance here)
  have third := takes_unitSizes isOffset ((c.advance length.length).advance version.length) _
    order (Cur.rest_advance (Cur.rest_advance here))
  have at_ : position (c.advance length.length) = some (c.pos + length.length, c.advance length.length) := rfl
  have twoBytes := isVersion.1
  simp only [List.length_append, List.length_cons, List.length_nil] at whole
  have inside : ¬¬(c.pos + length.length + (version ++ [unitType, size] ++ abbrevAt ++ code).length < 2 ^ 64 ∧
      c.pos + length.length + (version ++ [unitType, size] ++ abbrevAt ++ code).length ≤ sections.info.length ∧
      c.pos + length.length < c.pos + length.length + (version ++ [unitType, size] ++ abbrevAt ++ code).length) := by
    rw [data] at whole
    simp only [List.length_append, List.length_cons, List.length_nil]
    omega
  unfold unitHead
  rw [run_bind first]
  dsimp only
  rw [run_bind at_, if_neg inside, run_bind second, isVersion.2, if_neg (by decide), run_bind third]
  show some (_, _) = some (_, _)
  simp only [Cur.advance_advance, List.length_append, Nat.add_assoc]

theorem run_unit {bs rest : List UInt8} (is : UnitBytes sections u bs) {c : Cur} (order : c.endian = u.format.endian)
    (data : c.data = sections.info) (memory : sections.info.length < 2 ^ 64)
    (known : u.format.addressSize = 4 ∨ u.format.addressSize = 8) (here : c.rest = bs ++ rest) (start : c.pos = u.start) :
    unitAt sections c = some (some (WrittenUnit.read sections u), c.seek (c.pos + bs.length)) := by
  cases is with
  | @unit abbrevs abbrevOffset length version abbrevAt code table after unitType size isVersion isType isSize isOffset declarations
      inTable isTable tree strBase addrBase found isLength =>
    obtain ⟨declared, abbreviations, finds⟩ := abbreviations_eq declarations inTable isTable
    have head := run_unitHead isVersion isOffset isLength order data memory here
    have serves : Serves u.format sections u.start (WrittenUnit.default sections u) := ⟨rfl, rfl, rfl, rfl, rfl, known, memory⟩
    have whole : c.data.length - c.pos = (length ++ (version ++ [unitType, size] ++ abbrevAt ++ code) ++ rest).length := by
      rw [← here]
      exact List.length_drop.symm
    have here' : c.rest = (length ++ version ++ [unitType, size] ++ abbrevAt) ++ (code ++ rest) := by
      rw [here]
      simp only [List.append_assoc]
    have codeShort : code.length ≤ (version ++ [unitType, size] ++ abbrevAt ++ code).length := by
      rw [List.length_append]
      omega
    simp only [List.length_append, List.length_cons, List.length_nil] at whole
    obtain ⟨-, fuel, left, walked⟩ := @walk_forest _ _ _ _ serves _ _ finds
      (version ++ [unitType, size] ++ abbrevAt ++ code).length
      (c.pos + (length ++ (version ++ [unitType, size] ++ abbrevAt ++ code)).length) _ _ _ _ tree
      (c.advance (length ++ version ++ [unitType, size] ++ abbrevAt).length) (c.data.length + 1) [] [] rest order
      (Cur.rest_advance here') (by rw [Cur.pos_advance, start]) rfl
      (by simp only [Cur.pos_advance, List.length_append, List.length_cons, List.length_nil]; omega)
      (by simpa using codeShort) (by omega)
    obtain ⟨fuel, rfl⟩ : ∃ n, fuel = n + 1 := ⟨fuel - 1, by omega⟩
    have walkEnds : walk (WrittenUnit.default sections u) declared (version ++ [unitType, size] ++ abbrevAt ++ code).length
        (c.pos + (length ++ (version ++ [unitType, size] ++ abbrevAt ++ code)).length) (c.data.length + 1) [] []
        (c.advance (length ++ version ++ [unitType, size] ++ abbrevAt).length) =
        some (some (u.entries.map fun p => (p.1, WrittenEntry.read (WrittenUnit.default sections u) p.2)),
          (c.advance (length ++ version ++ [unitType, size] ++ abbrevAt).length).advance code.length) := by
      rw [walked, walk]
      dsimp only
      rw [if_neg (by simp only [Cur.pos_advance, List.length_append, List.length_cons, List.length_nil]; omega), List.nil_append]
    have unit : (⟨size.toNat, u.format.sixtyFour, 5, c.pos, 8, 8, c.endian, sections⟩ : DwarfModel.Unit) =
        WrittenUnit.default sections u := by
      rw [isSize, start, order]
      rfl
    unfold unitAt
    simp only [head, Option.bind_eq_bind, Option.bind_some, abbreviations, unit, Cur.data_advance, walkEnds]
    rfl

theorem run_units {e : Endian} {us : List WrittenUnit} {bs : List UInt8} {at_ : ℕ} (is : Units e sections at_ us bs)
    (memory : sections.info.length < 2 ^ 64) (known : ∀ u ∈ us, u.format.addressSize = 4 ∨ u.format.addressSize = 8) :
    ∀ {c : Cur} {fuel : ℕ} {out : List (Option ReadUnit)}, c.data = sections.info → c.endian = e → c.rest = bs → c.pos = at_ →
      bs.length < fuel →
      unitsFrom sections fuel c out = out ++ us.map fun u => some (WrittenUnit.read sections u) := by
  induction is with
  | nil =>
    intro c fuel out data order here pos enough
    obtain ⟨fuel, rfl⟩ : ∃ n, fuel = n + 1 := ⟨fuel - 1, by simp at enough; omega⟩
    rw [unitsFrom, if_pos (by simp [Cur.isEmpty, here])]
    simp
  | @cons at_ u us bs cs starts ordered first rest ih =>
    intro c fuel out data order here pos enough
    obtain ⟨fuel, rfl⟩ : ∃ n, fuel = n + 1 := ⟨fuel - 1, by omega⟩
    have ran := run_unit first (order.trans ordered.symm) data memory (known u List.mem_cons_self) here (pos.trans starts.symm)
    have positive : 0 < bs.length := by
      cases first with
      | unit isVersion =>
        have := isVersion.1
        simp only [List.length_append]
        omega
    have nonempty : bs ≠ [] := List.length_pos_iff.mp positive
    rw [Cur.seek_advance here nonempty] at ran
    rw [List.length_append] at enough
    have unread : ¬c.isEmpty := by simp [Cur.isEmpty, here, nonempty]
    rw [unitsFrom, if_neg unread, ran]
    dsimp only
    rw [if_neg (by rw [Cur.pos_advance]; omega)]
    have later := @ih (fun u member => known u (List.mem_cons_of_mem _ member)) (c.advance bs.length) fuel
      (out ++ [some (WrittenUnit.read sections u)]) data order (Cur.rest_advance here) (by rw [Cur.pos_advance, pos]) (by omega)
    rw [later, List.map_cons, List.append_assoc, List.singleton_append]

theorem parseUnits_eq {e : Endian} {us : List WrittenUnit} (is : Units e sections 0 us sections.info)
    (memory : sections.info.length < 2 ^ 64) (known : ∀ u ∈ us, u.format.addressSize = 4 ∨ u.format.addressSize = 8) :
    parseUnits sections e = us.map fun u => some (WrittenUnit.read sections u) :=
  run_units is memory known (c := .new sections.info e) rfl rfl rfl rfl (Nat.lt_succ_self _)

theorem entries_read (sections : Sections) (u : WrittenUnit) : (WrittenUnit.read sections u).entries =
    u.entries.map fun p => (p.1, WrittenEntry.read (WrittenUnit.default sections u) p.2) := by
  unfold WrittenUnit.read ownBases
  cases u.entries <;> rfl

theorem unit_found {bs : List UInt8} (is : UnitBytes sections u bs) :
    Declares u.entries DW_AT_STR_OFFSETS_BASE u.strBase ∧ Declares u.entries DW_AT_ADDR_BASE u.addrBase ∧
      ∀ p ∈ u.entries, ∀ a ∈ p.2.attributes, ∃ v, u.means sections a.2 v := by
  cases is with
  | unit isVersion isType isSize isOffset declarations inTable isTable tree strBase addrBase found =>
    exact ⟨strBase, addrBase, found⟩

theorem units_found {e : Endian} {us : List WrittenUnit} {bs : List UInt8} {at_ : ℕ} (is : Units e sections at_ us bs) :
    ∀ u ∈ us, ∃ bs, UnitBytes sections u bs := by
  induction is with
  | nil => simp
  | cons starts order first rest ih =>
    intro u member
    rcases List.mem_cons.mp member with rfl | later
    · exact ⟨_, first⟩
    · exact ih u later

theorem entriesMean_iff {bs : List UInt8} (is : UnitBytes sections u bs)
    (known : u.format.addressSize = 4 ∨ u.format.addressSize = 8) (strings : sections.strOffsets.length < 2 ^ 64)
    (addresses : sections.addr.length < 2 ^ 64) :
    EntriesMean sections u (WrittenUnit.read sections u).entries ↔
      ∀ p ∈ u.entries, ∀ a ∈ p.2.attributes, Agrees sections u a.2 := by
  obtain ⟨-, -, found⟩ := unit_found is
  rw [entries_read, EntriesMean, List.forall₂_map_left_iff, List.forall₂_same]
  refine forall₂_congr fun p member => ?_
  have attributes : List.Forall₂ (fun a b : ℕ × _ => a.1 = b.1 ∧ u.means sections b.2 a.2)
      (WrittenEntry.read (WrittenUnit.default sections u) p.2).attributes p.2.attributes ↔
      ∀ a ∈ p.2.attributes, Agrees sections u a.2 := by
    unfold WrittenEntry.read
    rw [List.forall₂_map_left_iff, List.forall₂_same]
    refine forall₂_congr fun a inside => ?_
    rw [means_read_iff (found p member a inside) known strings addresses]
    exact ⟨fun both => both.2, fun agrees => ⟨rfl, agrees⟩⟩
  exact ⟨fun all => attributes.mp all.2.2.2, fun agrees => ⟨rfl, rfl, rfl, attributes.mpr agrees⟩⟩

/-- Every attribute of every unit is read as it is written, and so every function and
    variable gets its name and address, exactly when every index leads from the base 8 to
    what it leads to from the unit's own base. -/
theorem units_iff {e : Endian} {us : List WrittenUnit} (is : Units e sections 0 us sections.info) (lists : Lists)
    (memory : sections.info.length < 2 ^ 64) (strings : sections.strOffsets.length < 2 ^ 64)
    (addresses : sections.addr.length < 2 ^ 64) (known : ∀ u ∈ us, u.format.addressSize = 4 ∨ u.format.addressSize = 8) :
    (∃ reads, Wrote sections us reads ∧ parseUnits sections e = reads.map some ∧
      parseFunctions sections lists e = named (reads.flatMap (ReadUnit.functions lists)) ∧
      parseVariables sections e = named (reads.flatMap ReadUnit.variables)) ↔
    ∀ u ∈ us, ∀ p ∈ u.entries, ∀ a ∈ p.2.attributes, Agrees sections u a.2 := by
  have parsed := parseUnits_eq is memory known
  constructor
  · rintro ⟨reads, wrote, same, -⟩ u member
    rw [parsed] at same
    have same : us.map (WrittenUnit.read sections) = reads := by
      have := congrArg (List.filterMap id) same
      simpa [List.filterMap_map] using this
    subst same
    obtain ⟨bs, bytes⟩ := units_found is u member
    rw [Wrote, List.forall₂_map_left_iff, List.forall₂_same] at wrote
    exact (entriesMean_iff bytes (known u member) strings addresses).mp (wrote u member).2.1
  · intro agrees
    refine ⟨us.map (WrittenUnit.read sections), ?_, ?_, ?_, ?_⟩
    · rw [Wrote, List.forall₂_map_left_iff, List.forall₂_same]
      intro u member
      obtain ⟨bs, bytes⟩ := units_found is u member
      obtain ⟨strBase, addrBase, -⟩ := unit_found bytes
      refine ⟨ownBases_read strBase addrBase, (entriesMean_iff bytes (known u member) strings addresses).mpr (agrees u member), ?_⟩
      rw [entries_read]
      rfl
    · rw [parsed, List.map_map]
      rfl
    · unfold parseFunctions
      rw [parsed, List.flatMap_map, List.flatMap_map]
      rfl
    · unfold parseVariables
      rw [parsed, List.flatMap_map, List.flatMap_map]
      rfl
end

def abbrevTable : List UInt8 := [1, 0x11, 1, 0x72, 0x17, 0x73, 0x17, 0, 0, 2, 0x2e, 0, 3, 0x25, 0x11, 0x29, 0, 0, 0]

/-- A unit with one function, whose name and start are at the index zero of its bases. -/
def unitBytes (strBase addrBase : UInt8) : List UInt8 :=
  [21, 0, 0, 0, 5, 0, 1, 8, 0, 0, 0, 0, 1, strBase, 0, 0, 0, addrBase, 0, 0, 0, 2, 0, 0, 0]

def unitAtBases (start : ℕ) (strBase addrBase : UInt8) : WrittenUnit :=
  ⟨⟨.little, false, 8⟩, start, strBase.toNat, addrBase.toNat,
    [(start + 12, ⟨DW_TAG_COMPILE_UNIT, none, [(DW_AT_STR_OFFSETS_BASE, .value (.unsigned strBase.toNat)),
      (DW_AT_ADDR_BASE, .value (.unsigned addrBase.toNat))]⟩),
    (start + 21, ⟨DW_TAG_SUBPROGRAM, some (start + 12), [(DW_AT_NAME, .strx false 0), (DW_AT_LOW_PC, .addrx false 0)]⟩)]⟩

/-- The names "a" and "b" and the addresses 0x1000 and 0x2000, each in a contribution of
    its own. -/
def contributions (info : List UInt8) : Sections :=
  ⟨info, abbrevTable, [97, 0, 98, 0], [], [8, 0, 0, 0, 5, 0, 0, 0, 0, 0, 0, 0, 8, 0, 0, 0, 5, 0, 0, 0, 2, 0, 0, 0],
    [12, 0, 0, 0, 5, 0, 8, 0, 0, 16, 0, 0, 0, 0, 0, 0, 12, 0, 0, 0, 5, 0, 8, 0, 0, 32, 0, 0, 0, 0, 0, 0], []⟩

theorem number_byte {b : UInt8} (small : b.toNat < 128) : Number [b] b.toNat := ⟨.last small, by simp, by omega⟩

def declared : List (ℕ × Abbreviation) :=
  [(1, ⟨DW_TAG_COMPILE_UNIT, true, [(DW_AT_STR_OFFSETS_BASE, DW_FORM_SEC_OFFSET, 0), (DW_AT_ADDR_BASE, DW_FORM_SEC_OFFSET, 0)]⟩),
    (2, ⟨DW_TAG_SUBPROGRAM, false, [(DW_AT_NAME, DW_FORM_STRX1, 0), (DW_AT_LOW_PC, DW_FORM_ADDRX1, 0)]⟩)]

theorem abbrevTable_declarations : Declarations declared abbrevTable := by
  have byte : ∀ b : UInt8, b.toNat < 128 → Number [b] b.toNat := fun b small => number_byte small
  have spec : ∀ (a form : UInt8) {rest : List (ℕ × ℕ × ℤ)} {bs : List UInt8}, a.toNat < 128 → form.toNat < 128 →
      form.toNat ≠ DW_FORM_IMPLICIT_CONST → ¬(a.toNat = 0 ∧ form.toNat = 0) → AttributeSpecs rest bs →
      AttributeSpecs ((a.toNat, form.toNat, 0) :: rest) (a :: form :: bs) :=
    fun a form _ _ small small' other some later => .cons (byte a small) (byte form small') (.none other) some later
  have done : AttributeSpecs [] [0, 0] := .nil (byte 0 (by decide)) (byte 0 (by decide))
  have first := spec 0x72 0x17 (by decide) (by decide) (by decide) (by decide)
    (spec 0x73 0x17 (by decide) (by decide) (by decide) (by decide) done)
  have second := spec 3 0x25 (by decide) (by decide) (by decide) (by decide)
    (spec 0x11 0x29 (by decide) (by decide) (by decide) (by decide) done)
  have last : Declarations [] [0] := .nil (byte 0 (by decide))
  have later := @Declarations.cons _ _ false _ _ _ _ _ _ (byte 2 (by decide)) (by decide) (byte 0x2e (by decide)) second
    (by simp) last
  have whole := @Declarations.cons _ _ true _ _ _ _ _ _ (byte 1 (by decide)) (by decide) (byte 0x11 (by decide)) first
    (by decide) later
  exact whole

theorem unit_bytes {info : List UInt8} {start : ℕ} {strBase addrBase : UInt8} {s : List UInt8} {a : ℕ}
    (string : IndexedString ⟨.little, false, 8⟩ (contributions info) strBase.toNat 0 s)
    (address : IndexedAddress ⟨.little, false, 8⟩ (contributions info) addrBase.toNat 0 a) :
    UnitBytes (contributions info) (unitAtBases start strBase addrBase) (unitBytes strBase addrBase) := by
  have offset : ∀ b : UInt8, Offset .little false [b, 0, 0, 0] b.toNat := fun b => ⟨rfl, by simp [Cursor.toNat, leNat]⟩
  have root : Attributes ⟨.little, false, 8⟩ (contributions info) start
      [(DW_AT_STR_OFFSETS_BASE, DW_FORM_SEC_OFFSET, 0), (DW_AT_ADDR_BASE, DW_FORM_SEC_OFFSET, 0)]
      ([strBase, 0, 0, 0] ++ ([addrBase, 0, 0, 0] ++ [])) [(DW_AT_STR_OFFSETS_BASE, .value (.unsigned strBase.toNat)),
        (DW_AT_ADDR_BASE, .value (.unsigned addrBase.toNat))] :=
    .cons (.secOffset (offset strBase)) (.cons (.secOffset (offset addrBase)) .nil)
  have function : Attributes ⟨.little, false, 8⟩ (contributions info) start
      [(DW_AT_NAME, DW_FORM_STRX1, 0), (DW_AT_LOW_PC, DW_FORM_ADDRX1, 0)] ([0] ++ ([0] ++ []))
      [(DW_AT_NAME, .strx false 0), (DW_AT_LOW_PC, .addrx false 0)] :=
    .cons (.strx (.one rfl)) (.cons (.addrx (.one rfl)) .nil)
  have below : Forest ⟨.little, false, 8⟩ (contributions info) start declared (some (start + 12)) (start + 21)
      [(start + 21, ⟨DW_TAG_SUBPROGRAM, some (start + 12), [(DW_AT_NAME, .strx false 0), (DW_AT_LOW_PC, .addrx false 0)]⟩)]
      ([2] ++ ([0] ++ ([0] ++ [])) ++ []) :=
    .leaf (number_byte (b := 2) (by decide)) (by decide) (List.mem_cons_of_mem _ List.mem_cons_self) function .nil
  have tree : Forest ⟨.little, false, 8⟩ (contributions info) start declared none (start + 12)
      (unitAtBases start strBase addrBase).entries
      ([1] ++ ([strBase, 0, 0, 0] ++ ([addrBase, 0, 0, 0] ++ [])) ++ ([2] ++ ([0] ++ ([0] ++ [])) ++ []) ++ [0] ++ []) :=
    .node (number_byte (b := 1) (by decide)) (by decide) List.mem_cons_self root below (number_byte (b := 0) (by decide)) .nil
  have value : toNat .little [21, 0, 0, 0] = 21 := by decide
  have length : InitialLength .little false 21 [21, 0, 0, 0] := value ▸ .short rfl (by decide)
  have zero : Offset .little false [0, 0, 0, 0] 0 := ⟨rfl, by decide⟩
  have version : ([5, 0] : List UInt8).length = 2 ∧ toNat .little [5, 0] = 5 := by decide
  refine @UnitBytes.unit (contributions info) (unitAtBases start strBase addrBase) declared 0 [21, 0, 0, 0] [5, 0] [0, 0, 0, 0] _
    abbrevTable [] 1 8 version (.inl rfl) rfl zero abbrevTable_declarations (Nat.zero_le _) rfl tree
    ⟨_, _, _, rfl, rfl⟩ ⟨_, _, _, rfl, rfl⟩ ?_ length
  intro p member attribute_ inside
  rcases List.mem_cons.mp member with rfl | member
  · rcases List.mem_cons.mp inside with rfl | inside
    · exact ⟨_, .value _⟩
    · rw [List.mem_singleton.mp inside]
      exact ⟨_, .value _⟩
  · rw [List.mem_singleton.mp member] at inside
    rcases List.mem_cons.mp inside with rfl | inside
    · exact ⟨_, .strx string⟩
    · rw [List.mem_singleton.mp inside]
      exact ⟨_, .addrx address⟩

theorem first_bytes (info : List UInt8) (start : ℕ) :
    UnitBytes (contributions info) (unitAtBases start 8 8) (unitBytes 8 8) := by
  refine unit_bytes (s := [97]) (a := 0x1000) ?_ ?_
  · exact ⟨[0, 0, 0, 0], 0, ⟨(contributions info).strOffsets.take 8, (contributions info).strOffsets.drop 12, rfl, rfl⟩,
      ⟨rfl, by decide⟩, ⟨[], [98, 0], rfl, rfl, by decide⟩⟩
  · exact ⟨[0, 16, 0, 0, 0, 0, 0, 0], ⟨(contributions info).addr.take 8, (contributions info).addr.drop 16, rfl, rfl⟩, rfl,
      by decide⟩

theorem second_bytes (info : List UInt8) (start : ℕ) :
    UnitBytes (contributions info) (unitAtBases start 20 24) (unitBytes 20 24) := by
  refine unit_bytes (s := [98]) (a := 0x2000) ?_ ?_
  · exact ⟨[2, 0, 0, 0], 2, ⟨(contributions info).strOffsets.take 20, [], rfl, rfl⟩, ⟨rfl, by decide⟩,
      ⟨[97, 0], [], rfl, rfl, by decide⟩⟩
  · exact ⟨[0, 32, 0, 0, 0, 0, 0, 0], ⟨(contributions info).addr.take 24, [], rfl, rfl⟩, rfl, by decide⟩

/-- One unit whose bases are the default. -/
theorem units_iff_default :
    ((∃ reads, Wrote (contributions (unitBytes 8 8)) [unitAtBases 0 8 8] reads ∧
      parseUnits (contributions (unitBytes 8 8)) .little = reads.map some ∧
      parseFunctions (contributions (unitBytes 8 8)) ⟨[], []⟩ .little = named (reads.flatMap (ReadUnit.functions ⟨[], []⟩)) ∧
      parseVariables (contributions (unitBytes 8 8)) .little = named (reads.flatMap ReadUnit.variables)) ↔
    ∀ u ∈ [unitAtBases 0 8 8], ∀ p ∈ u.entries, ∀ a ∈ p.2.attributes, Agrees (contributions (unitBytes 8 8)) u a.2) ∧
    ∀ u ∈ [unitAtBases 0 8 8], ∀ p ∈ u.entries, ∀ a ∈ p.2.attributes, Agrees (contributions (unitBytes 8 8)) u a.2 := by
  have units : DwarfTrees.Units .little (contributions (unitBytes 8 8)) 0 [unitAtBases 0 8 8] (unitBytes 8 8 ++ []) :=
    .cons rfl rfl (first_bytes _ 0) .nil
  refine ⟨units_iff units ⟨[], []⟩ (by decide) (by decide) (by decide) (by simp [unitAtBases]), ?_⟩
  intro u member p _ a _
  rw [List.mem_singleton.mp member]
  obtain ⟨name, w⟩ := a
  cases w with
  | value => trivial
  | strx three index => simp [unitAtBases, Agrees, readIndex, WrittenUnit.default, WrittenUnit.own]
  | addrx three index => simp [unitAtBases, Agrees, readIndex, WrittenUnit.default, WrittenUnit.own]

def twoUnits : Sections := contributions (unitBytes 8 8 ++ unitBytes 20 24)

def twoUnitsWritten : List WrittenUnit := [unitAtBases 0 8 8, unitAtBases 25 20 24]

theorem twoUnits_units : DwarfTrees.Units .little twoUnits 0 twoUnitsWritten twoUnits.info := by
  have rest : DwarfTrees.Units .little twoUnits 25 [unitAtBases 25 20 24] (unitBytes 20 24 ++ []) :=
    .cons rfl rfl (second_bytes _ 25) .nil
  have whole : DwarfTrees.Units .little twoUnits 0 twoUnitsWritten (unitBytes 8 8 ++ (unitBytes 20 24 ++ [])) :=
    .cons rfl rfl (first_bytes _ 0) rest
  exact whole

theorem twoUnits_known : ∀ u ∈ twoUnitsWritten, u.format.addressSize = 4 ∨ u.format.addressSize = 8 := by
  simp [twoUnitsWritten, unitAtBases]

/-- The function of the second unit, "b" at 0x2000, is read with the name and the start of
    the first. -/
theorem units_missed :
    DwarfTrees.Units .little twoUnits 0 twoUnitsWritten twoUnits.info ∧
      (unitAtBases 25 20 24).means twoUnits (.strx false 0) (.string (fromUtf8Lossy [98])) ∧
      (unitAtBases 25 20 24).means twoUnits (.addrx false 0) (.address 0x2000) ∧
      parseFunctions twoUnits ⟨[], []⟩ .little = [(0x1000, "a")] ∧
      ¬∃ reads, Wrote twoUnits twoUnitsWritten reads ∧ parseUnits twoUnits .little = reads.map some := by
  refine ⟨twoUnits_units, ?_, ?_, ?_, ?_⟩
  · exact .strx ⟨[2, 0, 0, 0], 2, ⟨twoUnits.strOffsets.take 20, [], rfl, rfl⟩, ⟨rfl, by decide⟩, ⟨[97, 0], [], rfl, rfl, by decide⟩⟩
  · exact .addrx ⟨[0, 32, 0, 0, 0, 0, 0, 0], ⟨twoUnits.addr.take 24, [], rfl, rfl⟩, rfl, by decide⟩
  · unfold parseFunctions
    rw [parseUnits_eq twoUnits_units (by decide) twoUnits_known]
    decide
  · rintro ⟨reads, wrote, same⟩
    rw [parseUnits_eq twoUnits_units (by decide) twoUnits_known] at same
    have same : twoUnitsWritten.map (WrittenUnit.read twoUnits) = reads := by
      have := congrArg (List.filterMap id) same
      simpa [List.filterMap_map] using this
    subst same
    rw [Wrote, List.forall₂_map_left_iff, List.forall₂_same] at wrote
    have entries := (wrote (unitAtBases 25 20 24) (by simp [twoUnitsWritten])).2.1
    have agrees := (entriesMean_iff (second_bytes _ 25) (.inr rfl) (by decide) (by decide)).mp entries
    have address := agrees (46, ⟨DW_TAG_SUBPROGRAM, some 37, [(DW_AT_NAME, .strx false 0), (DW_AT_LOW_PC, .addrx false 0)]⟩)
      (List.mem_cons_of_mem _ List.mem_cons_self) (DW_AT_LOW_PC, .addrx false 0) (List.mem_cons_of_mem _ List.mem_cons_self)
    revert address
    show ¬_ = _
    decide

end E5r.DwarfBases
