import E5r.DwarfTrees
import E5r.LineHeaders

/-!
Reading the units of DWARF 5. Every index is looked up from the base 8, the default that
holds while the tree of a unit is read, so a unit is read right exactly when each of its
indices leads to the same string or address from there as from the unit's own base.
-/
namespace E5r.DwarfReads
open Cursor DwarfModel DwarfUnits DwarfTrees LineProgram LineMachine LineReads LineHeaders
  E5r.RustText

/-! ### What is read -/

/-- An index as it is read: three bytes are taken with the lowest first in either order. -/
def readIndex (e : Endian) (three : Bool) (index : ℕ) : ℕ :=
  if three ∧ e = .big then index / 65536 + 256 * (index / 256 % 256) + 65536 * (index % 256) else index

def Written.read (unit : DwarfModel.Unit) : Written → Value
  | .value v => v
  | .strx three index => .string (indexedString unit (readIndex unit.endian three index))
  | .addrx three index => .address ((addressFromTable unit (readIndex unit.endian three index)).getD 0)

def WrittenEntry.read (unit : DwarfModel.Unit) (entry : WrittenEntry) : Entry :=
  ⟨entry.tag, entry.parent, entry.attributes.map fun a => (a.1, Written.read unit a.2)⟩

def WrittenUnit.unit (sections : Sections) (u : WrittenUnit) (strBase addrBase : ℕ) : DwarfModel.Unit :=
  ⟨u.format.addressSize, u.format.sixtyFour, 5, u.start, strBase, addrBase, u.format.endian, sections⟩

def WrittenUnit.default (sections : Sections) (u : WrittenUnit) : DwarfModel.Unit := WrittenUnit.unit sections u 8 8

def WrittenUnit.read (sections : Sections) (u : WrittenUnit) : ReadUnit :=
  ownBases (WrittenUnit.default sections u) (u.entries.map fun p => (p.1, WrittenEntry.read (WrittenUnit.default sections u) p.2))

/-! ### Attributes -/

section
variable {f : Format} {sections : Sections} {start : ℕ} {unit : DwarfModel.Unit}

variable {bs : List UInt8}

theorem takes_u24 {e : Endian} (width : bs.length = 3) : Takes e u24 bs (readIndex e true (toNat e bs)) := by
  obtain ⟨a, b, c, rfl⟩ := List.length_eq_three.mp width
  have reads := (takes_bytes (e := e) [a, b, c]).map leNat
  have value : readIndex e true (toNat e [a, b, c]) = leNat [a, b, c] := by
    have la := a.toNat_lt
    have lb := b.toNat_lt
    have lc := c.toNat_lt
    cases e with
    | little => rfl
    | big =>
      simp [readIndex, Cursor.toNat, leNat]
      omega
  rw [value]
  exact reads

/-- A unit whose forms are those of a format. -/
structure Serves (f : Format) (sections : Sections) (start : ℕ) (unit : DwarfModel.Unit) : Prop where
  order : unit.endian = f.endian
  wide : unit.sixtyFour = f.sixtyFour
  size : unit.addressSize = f.addressSize
  data : unit.sections = sections
  base : unit.base = start
  known : f.addressSize = 4 ∨ f.addressSize = 8
  memory : sections.info.length < 2 ^ 64

theorem takes_strx {form index : ℕ} {i : ℤ} {three : Bool} (is : StrIndex f.endian form bs three index)
    (order : unit.endian = f.endian) :
    Takes f.endian (readDirect form i unit) bs (Written.read unit (.strx three index)) := by
  unfold Written.read
  rw [order]
  cases is with
  | leb number => exact takes_bind_pure (takes_number number) fun i => Value.string (indexedString unit i)
  | one width => exact takes_bind_pure (takes_sized width) fun i => Value.string (indexedString unit i)
  | two width => exact takes_bind_pure (takes_sized width) fun i => Value.string (indexedString unit i)
  | three width => exact takes_bind_pure (takes_u24 width) fun i => Value.string (indexedString unit i)
  | four width => exact takes_bind_pure (takes_sized width) fun i => Value.string (indexedString unit i)

theorem takes_addrx {form index : ℕ} {i : ℤ} {three : Bool} (is : AddrIndex f.endian form bs three index)
    (order : unit.endian = f.endian) :
    Takes f.endian (readDirect form i unit) bs (Written.read unit (.addrx three index)) := by
  unfold Written.read
  rw [order]
  cases is with
  | leb number => exact takes_bind_pure (takes_number number) fun i => Value.address ((addressFromTable unit i).getD 0)
  | one width => exact takes_bind_pure (takes_sized width) fun i => Value.address ((addressFromTable unit i).getD 0)
  | two width => exact takes_bind_pure (takes_sized width) fun i => Value.address ((addressFromTable unit i).getD 0)
  | three width => exact takes_bind_pure (takes_u24 width) fun i => Value.address ((addressFromTable unit i).getD 0)
  | four width => exact takes_bind_pure (takes_sized width) fun i => Value.address ((addressFromTable unit i).getD 0)


theorem number_length_pos {v : ℕ} (number : Number bs v) : 0 < bs.length := by
  obtain ⟨groups, -⟩ := number
  cases groups <;> exact Nat.succ_pos _

theorem takes_block {e : Endian} {length : Read ℕ} {size : List UInt8} (first : Takes e length size bs.length) :
    Takes e (readBlock length) (size ++ bs) (.block bs) :=
  first.bind (f := fun n => bytes n >>= fun bs => pure (Value.block bs)) (takes_bind_pure (takes_bytes bs) Value.block)

theorem takes_reference {e : Endian} {m : Read ℕ} {v : ℕ} (reads : Takes e m bs v) (base : unit.base = start)
    (inside : start + v < sections.info.length) (memory : sections.info.length < 2 ^ 64) :
    Takes e (m >>= fun v => pure (Value.reference (wrap (unit.base + v)))) bs (.reference (start + v)) := by
  have reads := takes_bind_pure reads fun v => Value.reference (wrap (unit.base + v))
  have value : wrap (unit.base + v) = start + v := by
    rw [base, wrap, Nat.mod_eq_of_lt (by omega)]
  rwa [value] at reads

/-- An attribute is read in its form, and every index from the base of the unit at that
    time. -/
theorem takes_spelled (serves : Serves f sections start unit) {form : ℕ} {i : ℤ} {w : Written}
    (spelled : Spelled f sections start form i bs w) :
    ∀ fuel, bs.length < fuel → Takes f.endian (readFormFrom unit fuel form i) bs (Written.read unit w) := by
  obtain ⟨order, wide, size, data, base, known, memory⟩ := serves
  have direct : ∀ {form : ℕ} {i : ℤ} {bs : List UInt8} {w : Written}, form ≠ DW_FORM_INDIRECT →
      Takes f.endian (readDirect form i unit) bs (Written.read unit w) →
      ∀ fuel, bs.length < fuel → Takes f.endian (readFormFrom unit fuel form i) bs (Written.read unit w) := by
    intro form i bs w other reads fuel enough
    obtain ⟨fuel, rfl⟩ : ∃ n, fuel = n + 1 := ⟨fuel - 1, by omega⟩
    rw [readFormFrom, if_neg other]
    exact reads
  induction spelled with
  | strx is => exact direct (by cases is <;> decide) (takes_strx is order)
  | addrx is => exact direct (by cases is <;> decide) (takes_addrx is order)
  | @addr i bs width =>
    have reads : Takes f.endian (readAddress unit) bs (toNat f.endian bs) := by
      unfold readAddress
      rcases known with four | eight
      · rw [size, if_pos four]
        exact takes_sized (width.trans four)
      · rw [size, if_neg (by omega)]
        exact takes_sized (width.trans eight)
    exact direct (by decide) (takes_bind_pure reads Value.address)
  | block1 width length => exact direct (by decide) (takes_block (length ▸ takes_sized width))
  | block2 width length => exact direct (by decide) (takes_block (length ▸ takes_sized width))
  | block4 width length => exact direct (by decide) (takes_block (length ▸ takes_sized width))
  | block length => exact direct (by decide) (takes_block (takes_number length))
  | exprloc length => exact direct (by decide) (takes_block (takes_number length))
  | data1 width => exact direct (by decide) (takes_bind_pure (takes_sized width) Value.unsigned)
  | data2 width => exact direct (by decide) (takes_bind_pure (takes_sized width) Value.unsigned)
  | data4 width => exact direct (by decide) (takes_bind_pure (takes_sized width) Value.unsigned)
  | data8 width => exact direct (by decide) (takes_bind_pure (takes_sized width) Value.unsigned)
  | data16 width => exact direct (by decide) (takes_bind_pure (width ▸ takes_bytes _) Value.block)
  | sdata number =>
    exact direct (by decide) (takes_bind_pure (takes_sleb128 number.1 number.2.1 number.2.2.1 number.2.2.2) Value.signed)
  | udata number => exact direct (by decide) (takes_bind_pure (takes_number number) Value.unsigned)
  | string plain =>
    exact direct (by decide) (takes_bind_pure (takes_cstr plain) fun s => Value.string (fromUtf8Lossy s))
  | strp offset text =>
    have reads := takes_bind_pure (takes_offset offset) fun o => Value.string (stringAt unit.sections.str o)
    rw [data, stringAt_eq text, ← wide, ← data] at reads
    exact direct (by decide) reads
  | lineStrp offset text =>
    have reads := takes_bind_pure (takes_offset offset) fun o => Value.string (stringAt unit.sections.lineStr o)
    rw [data, stringAt_eq text, ← wide, ← data] at reads
    exact direct (by decide) reads
  | ref1 width inside => exact direct (by decide) (takes_reference (takes_sized width) base inside memory)
  | ref2 width inside => exact direct (by decide) (takes_reference (takes_sized width) base inside memory)
  | ref4 width inside => exact direct (by decide) (takes_reference (takes_sized width) base inside memory)
  | ref8 width inside => exact direct (by decide) (takes_reference (takes_sized width) base inside memory)
  | refUdata number inside => exact direct (by decide) (takes_reference (takes_number number) base inside memory)
  | refAddr offset => exact direct (by decide) (takes_bind_pure (wide ▸ takes_offset offset) Value.reference)
  | secOffset offset => exact direct (by decide) (takes_bind_pure (wide ▸ takes_offset offset) Value.unsigned)
  | @flag i b =>
    have reads := takes_bind_pure (takes_u8 (e := f.endian) b) fun n => Value.flag (n ≠ 0)
    have same : decide (b.toNat ≠ 0) = decide (b ≠ 0) := decide_eq_decide.mpr (not_congr (UInt8.toNat_inj (a := b) (b := 0)))
    rw [same] at reads
    exact direct (by decide) reads
  | flagPresent => exact direct (by decide) (.pure _)
  | implicitConst => exact direct (by decide) (.pure _)
  | loclistx number => exact direct (by decide) (takes_bind_pure (takes_number number) Value.listIndex)
  | rnglistx number => exact direct (by decide) (takes_bind_pure (takes_number number) Value.listIndex)
  | strpSup offset => exact direct (by decide) (takes_bind_pure (wide ▸ takes_offset offset) Value.unsigned)
  | @indirect i form number bs w is explicit actual ih =>
    intro fuel enough
    obtain ⟨fuel, rfl⟩ : ∃ n, fuel = n + 1 := ⟨fuel - 1, by omega⟩
    have positive := number_length_pos is
    rw [List.length_append] at enough
    rw [readFormFrom, if_pos rfl]
    exact (takes_number is).bind (ih fuel (by omega))

theorem takes_attributes (serves : Serves f sections start unit) {specs : List (ℕ × ℕ × ℤ)} {ws : List (ℕ × Written)}
    (is : Attributes f sections start specs bs ws) :
    Takes f.endian (readAttributes unit specs) bs (ws.map fun a => (a.1, Written.read unit a.2)) := by
  induction is with
  | nil => exact .pure []
  | @cons attribute_ form implicit rest bs cs w ws first later ih =>
    have reads : Takes f.endian (readForm form implicit unit) bs (Written.read unit w) := by
      intro c rest order here
      refine takes_spelled serves first (c.rest.length + 1) ?_ c rest order here
      rw [here, List.length_append]
      omega
    exact reads.bind (takes_bind_pure ih fun values => (attribute_, Written.read unit w) :: values)

/-! ### Entries -/

section
variable (serves : Serves f sections start unit) {abbrevs found : List (ℕ × Abbreviation)} {length end_ : ℕ} {c : Cur} {fuel : ℕ}
  {out : List (ℕ × Entry)} {stack : List ℕ} {rest : List UInt8}
include serves

theorem walk_entry {code : ℕ} {abbrev_ : Abbreviation} {bs cs : List UInt8} {ws : List (ℕ × Written)} (coded : Number bs code)
    (nonzero : code ≠ 0) (declared : getKey found code = some abbrev_)
    (attributes : Attributes f sections start abbrev_.attributes cs ws) (order : c.endian = f.endian)
    (here : c.rest = bs ++ cs ++ rest) (inside : c.pos < end_) (room : out.length ≤ length) :
    walk unit found length end_ (fuel + 1) out stack c =
      walk unit found length end_ fuel
        (out ++ [(c.pos, ⟨abbrev_.tag, stack.head?, ws.map fun a => (a.1, Written.read unit a.2)⟩)])
        (if abbrev_.children then c.pos :: stack else stack) (c.advance (bs ++ cs).length) := by
  rw [List.append_assoc] at here
  have first := takes_number coded c _ order here
  have second := takes_attributes serves attributes (c.advance bs.length) _ order (Cur.rest_advance here)
  rw [walk]
  dsimp only
  rw [if_pos inside, if_neg (by omega), first]
  dsimp only
  rw [if_neg nonzero, declared]
  dsimp only
  rw [second, Cur.advance_advance, List.length_append]

omit serves in
/-- The end of the entries below one. -/
theorem walk_null {e : Endian} {bs : List UInt8} (zero : Number bs 0) (order : c.endian = e) (here : c.rest = bs ++ rest)
    (inside : c.pos < end_) (room : out.length ≤ length) :
    walk unit found length end_ (fuel + 1) out stack c = walk unit found length end_ fuel out stack.tail (c.advance bs.length) := by
  have first := takes_number zero c _ order here
  rw [walk]
  dsimp only
  rw [if_pos inside, if_neg (by omega), first]
  dsimp only
  rw [if_pos rfl]
end

theorem walk_forest (serves : Serves f sections start unit) {abbrevs found : List (ℕ × Abbreviation)}
    (declared : ∀ p ∈ abbrevs, getKey found p.1 = some p.2) {length end_ : ℕ} {parent : Option ℕ} {at_ : ℕ}
    {entries : List (ℕ × WrittenEntry)} {bs : List UInt8} (forest : Forest f sections start abbrevs parent at_ entries bs) :
    ∀ {c : Cur} {fuel : ℕ} {out : List (ℕ × Entry)} {stack : List ℕ} {rest : List UInt8}, c.endian = f.endian →
      c.rest = bs ++ rest → c.pos = at_ → parent = stack.head? → c.pos + bs.length ≤ end_ → out.length + bs.length ≤ length →
      bs.length < fuel → entries.length ≤ bs.length ∧
      ∃ fuel', fuel ≤ fuel' + bs.length ∧
        walk unit found length end_ fuel out stack c =
          walk unit found length end_ fuel' (out ++ entries.map fun p => (p.1, WrittenEntry.read unit p.2)) stack
            (c.advance bs.length) := by
  induction forest with
  | nil =>
    intro c fuel out stack rest order here pos top inside room enough
    exact ⟨le_refl _, fuel, by simp, by simp [Cur.advance_zero]⟩
  | @leaf parent at_ code tag specs ws later bs cs ds coded nonzero member attributes siblings ih =>
    intro c fuel out stack rest order here pos top inside room enough
    have positive := number_length_pos coded
    simp only [@List.length_append _ _ ds] at inside room enough ⊢
    simp only [@List.length_append _ _ cs] at inside room enough ⊢
    obtain ⟨fuel, rfl⟩ : ∃ n, fuel = n + 1 := ⟨fuel - 1, by omega⟩
    rw [List.append_assoc] at here
    have step := @walk_entry _ _ _ _ serves _ length end_ _ fuel out stack _ _ _ _ _ _ coded nonzero
      (declared _ member) attributes order here (by omega) (by omega)
    obtain ⟨few, fuel', left, walked⟩ := @ih (c.advance (bs ++ cs).length) fuel
      (out ++ [(at_, WrittenEntry.read unit ⟨tag, parent, ws⟩)]) stack rest order
      (Cur.rest_advance here) (by rw [Cur.pos_advance, pos]) top
      (by rw [Cur.pos_advance, List.length_append]; omega) (by rw [List.length_append, List.length_singleton]; omega) (by omega)
    refine ⟨by rw [List.length_cons]; omega, fuel', by omega, ?_⟩
    subst pos top
    rw [step]
    refine walked.trans ?_
    rw [Cur.advance_advance, @List.length_append _ _ cs, List.map_cons, List.append_assoc, List.singleton_append]
  | @node parent at_ code tag specs ws below later bs cs ds zero es coded nonzero member attributes children ended siblings
      ihChildren ihSiblings =>
    intro c fuel out stack rest order here pos top inside room enough
    have positive := number_length_pos coded
    have zeroPositive := number_length_pos ended
    simp only [@List.length_append _ _ es] at inside room enough ⊢
    simp only [@List.length_append _ _ zero] at inside room enough ⊢
    simp only [@List.length_append _ _ ds] at inside room enough ⊢
    simp only [@List.length_append _ _ cs] at inside room enough ⊢
    obtain ⟨fuel, rfl⟩ : ∃ n, fuel = n + 1 := ⟨fuel - 1, by omega⟩
    have here : c.rest = bs ++ cs ++ (ds ++ (zero ++ (es ++ rest))) := by rw [here]; simp only [List.append_assoc]
    have step := @walk_entry _ _ _ _ serves _ length end_ _ fuel out stack _ _ _ _ _ _ coded nonzero
      (declared _ member) attributes order here (by omega) (by omega)
    obtain ⟨few, fuel', left, walked⟩ := @ihChildren (c.advance (bs ++ cs).length) fuel
      (out ++ [(at_, WrittenEntry.read unit ⟨tag, parent, ws⟩)]) (at_ :: stack)
      (zero ++ (es ++ rest)) order (Cur.rest_advance here) (by rw [Cur.pos_advance, pos]) rfl
      (by rw [Cur.pos_advance, List.length_append]; omega) (by rw [List.length_append, List.length_singleton]; omega) (by omega)
    obtain ⟨fuel', rfl⟩ : ∃ n, fuel' = n + 1 := ⟨fuel' - 1, by omega⟩
    have null := @walk_null unit found length end_ ((c.advance (bs ++ cs).length).advance ds.length) fuel'
      (out ++ [(at_, WrittenEntry.read unit ⟨tag, parent, ws⟩)] ++ below.map fun p => (p.1, WrittenEntry.read unit p.2))
      (at_ :: stack) _ _ _ ended order
      (Cur.rest_advance (Cur.rest_advance here))
      (by simp only [Cur.pos_advance, @List.length_append _ _ cs]; omega)
      (by simp only [List.length_append, List.length_singleton, List.length_map]; omega)
    obtain ⟨fewLater, fuel'', leftLater, walkedLater⟩ := @ihSiblings
      (((c.advance (bs ++ cs).length).advance ds.length).advance zero.length) fuel'
      (out ++ [(at_, WrittenEntry.read unit ⟨tag, parent, ws⟩)] ++ below.map fun p => (p.1, WrittenEntry.read unit p.2))
      stack rest order (Cur.rest_advance (Cur.rest_advance (Cur.rest_advance here)))
      (by simp only [Cur.pos_advance, @List.length_append _ _ zero, @List.length_append _ _ ds]; omega) top
      (by simp only [Cur.pos_advance, @List.length_append _ _ cs]; omega)
      (by simp only [List.length_append, List.length_singleton, List.length_map]; omega) (by omega)
    refine ⟨by simp only [List.length_cons, List.length_append]; omega, fuel'', by omega, ?_⟩
    subst pos top
    rw [step]
    refine walked.trans (null.trans (walkedLater.trans ?_))
    simp only [Cur.advance_advance, List.length_append, List.map_cons, List.map_append, List.append_assoc,
      List.singleton_append, Nat.add_assoc]
    rfl
end

/-! ### Abbreviations -/

theorem getKey_insertKey {α : Type} (key : ℕ) (a : α) (l : List (ℕ × α)) : getKey (insertKey key a l) key = some a := by
  simp [getKey, insertKey]

theorem getKey_insertKey_of_ne {α : Type} {key other : ℕ} (a : α) (l : List (ℕ × α)) (different : other ≠ key) :
    getKey (insertKey key a l) other = getKey l other := by
  unfold getKey insertKey
  rw [List.find?_cons_of_neg (by simpa using Ne.symm different), List.find?_filter]
  congr 2
  funext p
  by_cases same : p.1 = other
  · simp [same, different]
  · simp [same]

theorem length_insertKey {α : Type} (key : ℕ) (a : α) (l : List (ℕ × α)) : (insertKey key a l).length ≤ l.length + 1 :=
  Nat.succ_le_succ (List.length_filter_le _ l)

section
variable {e : Endian}

theorem takes_implicit {form : ℕ} {i : ℤ} {bs : List UInt8} (is : Implicit form i bs) : Takes e (implicitConst form) bs i := by
  unfold implicitConst
  cases is with
  | const number =>
    rw [if_pos rfl]
    exact takes_sleb128 number.1 number.2.1 number.2.2.1 number.2.2.2
  | none other =>
    rw [if_neg other]
    exact .pure 0

theorem takes_specs {specs : List (ℕ × ℕ × ℤ)} {bs : List UInt8} (is : AttributeSpecs specs bs) :
    ∀ {limit fuel : ℕ} {out : List (ℕ × ℕ × ℤ)}, out.length + bs.length ≤ limit → bs.length < fuel →
      Takes e (abbreviationAttributes limit fuel out) bs (out ++ specs) := by
  induction is with
  | @nil bs cs first second =>
    intro limit fuel out room enough
    obtain ⟨fuel, rfl⟩ : ∃ n, fuel = n + 1 := ⟨fuel - 1, by omega⟩
    rw [abbreviationAttributes, if_neg (by omega), List.append_nil]
    refine Takes.bind (takes_number first) ?_
    rw [← List.append_nil cs]
    refine Takes.bind (takes_number second) ?_
    rw [← List.nil_append []]
    refine Takes.bind (takes_implicit (.none (by decide))) ?_
    rw [if_pos ⟨rfl, rfl⟩]
    exact .pure out
  | @cons attribute_ form implicit rest bs cs ds es first second carried some later ih =>
    intro limit fuel out room enough
    have positive := number_length_pos first
    simp only [List.length_append] at room enough
    obtain ⟨fuel, rfl⟩ : ∃ n, fuel = n + 1 := ⟨fuel - 1, by omega⟩
    rw [abbreviationAttributes, if_neg (by omega), List.append_assoc, List.append_assoc]
    refine Takes.bind (takes_number first) ?_
    refine Takes.bind (takes_number second) ?_
    refine Takes.bind (takes_implicit carried) ?_
    rw [if_neg some]
    have reads := @ih limit fuel (out ++ [(attribute_, form, implicit)])
      (by rw [List.length_append, List.length_singleton]; omega) (by omega)
    rwa [List.append_assoc, List.singleton_append] at reads

theorem takes_declarations {abbrevs : List (ℕ × Abbreviation)} {bs : List UInt8} (is : Declarations abbrevs bs) :
    ∀ {limit fuel : ℕ} {out : List (ℕ × Abbreviation)}, out.length + bs.length ≤ limit → bs.length < fuel →
      ∃ found, Takes e (abbreviationsFrom limit fuel out) bs found ∧ (∀ p ∈ abbrevs, getKey found p.1 = some p.2) ∧
        ∀ key ∉ abbrevs.map Prod.fst, getKey found key = getKey out key := by
  induction is with
  | @nil bs zero =>
    intro limit fuel out room enough
    obtain ⟨fuel, rfl⟩ : ∃ n, fuel = n + 1 := ⟨fuel - 1, by omega⟩
    refine ⟨out, ?_, by simp, fun _ _ => rfl⟩
    rw [abbreviationsFrom, if_neg (by omega), ← List.append_nil bs]
    refine Takes.bind (takes_number zero) ?_
    rw [if_pos rfl]
    exact .pure out
  | @cons code tag children specs rest bs cs ds es first nonzero second attributes fresh later ih =>
    intro limit fuel out room enough
    have positive := number_length_pos first
    simp only [List.length_append, List.length_cons] at room enough
    obtain ⟨fuel, rfl⟩ : ∃ n, fuel = n + 1 := ⟨fuel - 1, by omega⟩
    have grown := length_insertKey code ⟨tag, children, specs⟩ out
    obtain ⟨found, reads, declared, others⟩ := @ih limit fuel (insertKey code ⟨tag, children, specs⟩ out)
      (by omega) (by omega)
    refine ⟨found, ?_, ?_, ?_⟩
    · have flag : decide ((if children then (1 : UInt8) else 0).toNat ≠ 0) = children := by cases children <;> decide
      rw [abbreviationsFrom, if_neg (by omega)]
      simp only [List.append_assoc, List.cons_append]
      refine Takes.bind (takes_number first) ?_
      rw [if_neg nonzero]
      refine Takes.bind (takes_number second) ?_
      refine takes_u8_bind ?_
      refine Takes.bind (@takes_specs _ _ _ attributes _ _ [] (by simp; omega) (by omega)) ?_
      rw [flag, List.nil_append]
      exact reads
    · intro p member
      rcases List.mem_cons.mp member with rfl | member
      · rw [others _ fresh]
        exact getKey_insertKey _ _ _
      · exact declared p member
    · intro key outside
      rw [List.map_cons, List.mem_cons, not_or] at outside
      rw [others key outside.2, getKey_insertKey_of_ne _ _ outside.1]
end

theorem abbreviations_eq {data table after : List UInt8} {at_ : ℕ} {abbrevs : List (ℕ × Abbreviation)}
    (declarations : Declarations abbrevs table) (inside : at_ ≤ data.length) (is : data.drop at_ = table ++ after) :
    ∃ found, abbreviations data at_ = some found ∧ ∀ p ∈ abbrevs, getKey found p.1 = some p.2 := by
  obtain ⟨found, reads, declared, -⟩ := @takes_declarations .little _ _ declarations
    (table ++ after).length ((table ++ after).length + 2) [] (by simp) (by rw [List.length_append]; omega)
  refine ⟨found, ?_, declared⟩
  have rest : slice data at_ data.length = some (table ++ after) := by
    unfold slice
    rw [if_pos ⟨inside, le_refl _⟩, List.take_length, is]
  have ran := reads (.new (table ++ after) .little) after rfl rfl
  unfold abbreviations
  rw [rest]
  show (abbreviationsFrom _ _ [] _ >>= _) = _
  rw [ran]
  rfl

/-! ### Indices -/

theorem slice_eq {section_ bs : List UInt8} {at_ : ℕ} (is : BytesIn section_ at_ bs) (memory : section_.length < 2 ^ 64) :
    at_ + bs.length < 2 ^ 64 ∧ slice section_ at_ (at_ + bs.length) = some bs := by
  obtain ⟨before, after, rfl, rfl⟩ := is
  rw [List.length_append, List.length_append] at memory
  refine ⟨by omega, ?_⟩
  unfold slice
  rw [if_pos ⟨by omega, by simp⟩, ← List.length_append, List.take_left' rfl, List.drop_left' rfl]

section
variable {f : Format} {sections : Sections} {unit : DwarfModel.Unit} (order : unit.endian = f.endian)
  (wide : unit.sixtyFour = f.sixtyFour) (size : unit.addressSize = f.addressSize) (data : unit.sections = sections)
include order data

include wide in
theorem indexedString_eq {index : ℕ} {s : List UInt8} (found : IndexedString f sections unit.strOffsetsBase index s)
    (memory : sections.strOffsets.length < 2 ^ 64) : indexedString unit index = fromUtf8Lossy s := by
  obtain ⟨bs, at_, bytes, ⟨width, is⟩, text⟩ := found
  obtain ⟨fits, sliced⟩ := slice_eq bytes memory
  have same : (if unit.sixtyFour then 8 else 4) = f.offsetSize := by rw [wide]; rfl
  have length : bs.length = f.offsetSize := width
  rw [length] at fits sliced
  unfold indexedString
  simp only [same, data]
  have start : wrap (unit.strOffsetsBase + wrap (index * f.offsetSize)) = unit.strOffsetsBase + index * f.offsetSize := by
    unfold wrap
    rw [Nat.mod_eq_of_lt (a := index * f.offsetSize) (by omega), Nat.mod_eq_of_lt (by omega)]
  rw [start, wrap, Nat.mod_eq_of_lt fits, sliced]
  dsimp only
  rw [order, is, stringAt_eq text]

include size in
theorem addressFromTable_eq {index a : ℕ} (found : IndexedAddress f sections unit.addrBase index a)
    (known : f.addressSize = 4 ∨ f.addressSize = 8) (memory : sections.addr.length < 2 ^ 64) :
    addressFromTable unit index = some a := by
  obtain ⟨bs, bytes, width, is⟩ := found
  obtain ⟨fits, sliced⟩ := slice_eq bytes memory
  have same : max unit.addressSize 1 = f.addressSize := by rw [size]; omega
  rw [width] at fits sliced
  have reads : (if f.addressSize = 4 then u32 else u64) (Cur.new bs unit.endian) =
      some (a, (Cur.new bs unit.endian).advance bs.length) := by
    rw [← is]
    rcases known with four | eight
    · rw [if_pos four]
      exact takes_sized (e := f.endian) (width.trans four) _ [] order (List.append_nil bs).symm
    · rw [if_neg (by omega)]
      exact takes_sized (e := f.endian) (width.trans eight) _ [] order (List.append_nil bs).symm
  have product : index * f.addressSize < 2 ^ 64 := by omega
  have start : unit.addrBase + index * f.addressSize < 2 ^ 64 := by omega
  unfold addressFromTable
  simp only [same, data, if_pos product, if_pos start, if_pos fits, Option.bind_eq_bind, Option.bind_some, sliced, reads]
end

def WrittenUnit.own (sections : Sections) (u : WrittenUnit) : DwarfModel.Unit :=
  WrittenUnit.unit sections u u.strBase u.addrBase

/-- An index leads from the base 8 to what it leads to from the unit's own base. -/
def Agrees (sections : Sections) (u : WrittenUnit) : Written → Prop
  | .value _ => True
  | .strx three index =>
    indexedString (WrittenUnit.default sections u) (readIndex u.format.endian three index) =
      indexedString (WrittenUnit.own sections u) index
  | .addrx three index =>
    (addressFromTable (WrittenUnit.default sections u) (readIndex u.format.endian three index)).getD 0 =
      (addressFromTable (WrittenUnit.own sections u) index).getD 0

theorem means_read_iff {sections : Sections} {u : WrittenUnit} {w : Written} (found : ∃ v, u.means sections w v)
    (known : u.format.addressSize = 4 ∨ u.format.addressSize = 8) (strings : sections.strOffsets.length < 2 ^ 64)
    (addresses : sections.addr.length < 2 ^ 64) :
    u.means sections w (Written.read (WrittenUnit.default sections u) w) ↔ Agrees sections u w := by
  obtain ⟨v, means⟩ := found
  cases means with
  | value => exact ⟨fun _ => trivial, fun _ => .value v⟩
  | @strx three index s found =>
    have own := @indexedString_eq _ _ (WrittenUnit.own sections u) rfl rfl rfl _ _ found strings
    constructor
    · intro means
      generalize value : Written.read (WrittenUnit.default sections u) (.strx three index) = r at means
      cases means with
      | @strx _ _ s' found' =>
        have same := @indexedString_eq _ _ (WrittenUnit.own sections u) rfl rfl rfl _ _ found' strings
        have read : indexedString (WrittenUnit.default sections u) (readIndex u.format.endian three index) = fromUtf8Lossy s' :=
          Value.string.inj value
        exact read.trans same.symm
    · intro agrees
      have read : Written.read (WrittenUnit.default sections u) (.strx three index) = .string (fromUtf8Lossy s) :=
        congrArg Value.string (agrees.trans own)
      rw [read]
      exact .strx found
  | @addrx three index a found =>
    have own := @addressFromTable_eq _ _ (WrittenUnit.own sections u) rfl rfl rfl _ _ found known addresses
    constructor
    · intro means
      generalize value : Written.read (WrittenUnit.default sections u) (.addrx three index) = r at means
      cases means with
      | @addrx _ _ a' found' =>
        have same := @addressFromTable_eq _ _ (WrittenUnit.own sections u) rfl rfl rfl _ _ found' known addresses
        have read : (addressFromTable (WrittenUnit.default sections u) (readIndex u.format.endian three index)).getD 0 = a' :=
          Value.address.inj value
        refine read.trans ?_
        rw [same]
        rfl
    · intro agrees
      have read : Written.read (WrittenUnit.default sections u) (.addrx three index) = .address a := by
        refine congrArg Value.address (agrees.trans ?_)
        rw [own]
        rfl
      rw [read]
      exact .addrx found

end E5r.DwarfReads
