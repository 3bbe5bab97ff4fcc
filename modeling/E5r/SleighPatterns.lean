import E5r.SleighFields

/-!
What a pattern says about a stream of bytes and a context image, and how the
masks that `reduce` gives for it relate to that: they let through everything
that the pattern admits, and an exact reduction lets nothing else through.
-/
namespace E5r.SleighPatterns
open BitTests SleighModel SleighReduce SleighMasks SleighFields

/-! ### A pattern as written -/

/-- Bytes and a context image that a pattern is held against, with the widths that
    its subtables match and the values of whatever is not a field. -/
structure Scene (ctx : Context) where
  stream : List Byte
  image : List Byte
  width : SymbolRef → Nat
  value : SymbolRef → Nat → Option Int64
  right : DisasmExpr → Nat → Option Int64
  imageFits : image.length ≤ ctx.contextBytes
  declared : ∀ sym id, ctx.resolve sym = .subtable id →
    ctx.tableMin[id]?.getD 0 ≤ width sym ∧ (ctx.tableFixed[id]?.getD false = true → width sym = ctx.tableMin[id]?.getD 0)

/-- A constraint and the byte its left side starts at. -/
structure Condition where
  lhs : SymbolRef
  op : ConstraintOp
  rhs : DisasmExpr
  place : Nat
deriving DecidableEq

section
variable {ctx : Context}

/-- How many bytes a symbol covers. -/
def Scene.widthOf (s : Scene ctx) (sym : SymbolRef) : Nat :=
  match ctx.resolve sym with
  | .field id => (ctx.token id).size
  | .subtable _ => s.width sym
  | .context _ | .nothing => 0

def Scene.leftValue (s : Scene ctx) (sym : SymbolRef) (place : Nat) : Option Int64 :=
  match ctx.resolve sym with
  | .field id => ((ctx.field id).extract (ctx.token id) (s.stream.drop place)).map (ctx.field id).integer
  | .context id => ((ctx.contextField id).extract s.image).map (ctx.contextField id).integer
  | .subtable _ | .nothing => s.value sym place

def Scene.rightValue (s : Scene ctx) (e : DisasmExpr) (place : Nat) : Option Int64 :=
  match e with
  | .num v => some v
  | e => s.right e place

/-- Both sides have a value, and they compare as the constraint says. -/
def Condition.Met (s : Scene ctx) (c : Condition) : Prop :=
  ∃ left right, s.leftValue c.lhs c.place = some left ∧ s.rightValue c.rhs c.place = some right ∧
    c.op.compare left right = true

/-- The conditions that one way to read a pattern from byte `start` to byte `stop`
    collects. -/
inductive Reads (s : Scene ctx) : PatternExpr → Nat → List Condition → Nat → Prop where
  | epsilon (start : Nat) : Reads s .epsilon start [] start
  | symbol (sym : SymbolRef) (start : Nat) : Reads s (.symbol sym) start [] (start + s.widthOf sym)
  | constraint (lhs : SymbolRef) (op : ConstraintOp) (rhs : DisasmExpr) (start : Nat) :
      Reads s (.constraint lhs op rhs) start [⟨lhs, op, rhs, start⟩] (start + s.widthOf lhs)
  | and {a b : PatternExpr} {start : Nat} {conds conds' : List Condition} {stop stop' : Nat}
      (left : Reads s a start conds stop) (right : Reads s b start conds' stop') :
      Reads s (.and a b) start (conds ++ conds') (max stop stop')
  | orLeft {a b : PatternExpr} {start : Nat} {conds : List Condition} {stop : Nat} (left : Reads s a start conds stop) :
      Reads s (.or a b) start conds stop
  | orRight {a b : PatternExpr} {start : Nat} {conds : List Condition} {stop : Nat}
      (right : Reads s b start conds stop) : Reads s (.or a b) start conds stop
  | cat {a b : PatternExpr} {start : Nat} {conds conds' : List Condition} {stop stop' : Nat}
      (left : Reads s a start conds stop) (right : Reads s b stop conds' stop') :
      Reads s (.cat a b) start (conds ++ conds') stop'
  | ellipsisRight {a : PatternExpr} {start : Nat} {conds : List Condition} {stop : Nat}
      (inner : Reads s a start conds stop) : Reads s (.ellipsisRight a) start conds stop
  | ellipsisLeft {a : PatternExpr} {start begin : Nat} {conds : List Condition} {stop : Nat} (later : start ≤ begin)
      (inner : Reads s a begin conds stop) : Reads s (.ellipsisLeft a) start conds stop

/-- Some reading of the pattern has all its conditions met. -/
def Holds (s : Scene ctx) (e : PatternExpr) : Prop :=
  ∃ conds stop, Reads s e 0 conds stop ∧ ∀ c ∈ conds, c.Met s

end

/-! ### What the masks are good for -/

/-- Every constraint of a pattern has a property. -/
def Everywhere (P : SymbolRef → ConstraintOp → DisasmExpr → Prop) : PatternExpr → Prop
  | .and a b | .or a b | .cat a b => Everywhere P a ∧ Everywhere P b
  | .ellipsisRight a | .ellipsisLeft a => Everywhere P a
  | .constraint lhs op rhs => P lhs op rhs
  | .symbol _ | .epsilon => True

/-- A field compared with a constant has at most 64 bits. -/
def Narrow (ctx : Context) (lhs : SymbolRef) (op : ConstraintOp) (rhs : DisasmExpr) : Prop :=
  match ctx.resolve lhs, op, rhs with
  | .field id, .equal, .num _ => (ctx.field id).bits ≤ 64
  | .context id, .equal, .num _ => (ctx.contextField id).bits ≤ 64
  | _, _, _ => True

/-- An unsigned field of fewer than 64 bits is not compared with a negative
    constant. -/
def Plain (ctx : Context) (lhs : SymbolRef) (op : ConstraintOp) (rhs : DisasmExpr) : Prop :=
  match ctx.resolve lhs, op, rhs with
  | .field id, .equal, .num v => (ctx.field id).signed = true ∨ 0 ≤ v ∨ (ctx.field id).bits = 64
  | .context id, .equal, .num v => (ctx.contextField id).signed = true ∨ 0 ≤ v ∨ (ctx.contextField id).bits = 64
  | _, _, _ => True

/-- The furthest byte that a token of the pattern reaches, subtables as short as
    they get. -/
def reach (ctx : Context) : PatternExpr → Nat
  | .and a b | .or a b => max (reach ctx a) (reach ctx b)
  | .cat a b => reach ctx a + reach ctx b
  | .ellipsisRight a | .ellipsisLeft a => reach ctx a
  | .constraint lhs _ _ => (bare ctx lhs).length
  | .symbol sym => (bare ctx sym).length
  | .epsilon => 0

def masked (ctx : Context) (c : Condition) : Bool :=
  match ctx.resolve c.lhs, c.op, c.rhs with
  | .field id, .equal, .num v => fits v (ctx.field id).bits (ctx.field id).signed
  | .context id, .equal, .num v => fits v (ctx.contextField id).bits (ctx.contextField id).signed
  | _, _, _ => false

/-! ### Fields -/

theorem field_inBytes (token : TokenDef) : InBytes (Field.bitPosition token) := by
  intro bit byte offset found
  unfold Field.bitPosition at found
  split at found
  · contradiction
  · cases endian : token.endian with
    | big =>
      rw [endian] at found
      simp only [Option.some.injEq, Prod.mk.injEq] at found
      omega
    | little =>
      rw [endian] at found
      simp only [Option.some.injEq, Prod.mk.injEq] at found
      omega

theorem range_length (f : Field) : f.range.length = f.bits := by
  have := f.ordered
  simp only [Field.range, Field.bits, List.length_range']
  omega

theorem contextRange_length (f : ContextField) : f.range.length = f.bits := by
  have := f.ordered
  simp only [ContextField.range, ContextField.bits, List.length_reverse, List.length_range']
  omega

variable {bits : List Nat} {n : Nat}

theorem encoded_high (v : Int64) (length : bits.length = n) :
    ∀ j ≥ bits.length, (v.toBitVec &&& maskOf n).getLsbD j = false := by
  intro j above
  rw [BitVec.getLsbD_and, maskOf_getLsbD]
  simp [show ¬ j < n by omega]

theorem reads_constant {position : Nat → Option (Nat × Nat)} {stream : List Byte} {signed : Bool}
    {v : Int64} {raw : BitVec 64} (length : bits.length = n) (positive : 0 < n) (room : n ≤ 64)
    (read : readBits position stream bits = some raw)
    (holds : (if signed then signExtend raw n else Int64.ofBitVec raw) = v) :
    readBits position stream bits = some (v.toBitVec &&& maskOf n) := by
  subst length
  have high := ((readBits_iff room).mp read).2
  rw [read, raw_of_integer positive room high holds]

theorem nothing_matches (stream : List Byte) : (MaskValue.mk []).matchesBytes stream = true := rfl

theorem placed_some {position : Nat → Option (Nat × Nat)} (inBytes : InBytes position) {value : BitVec 64}
    {made : MaskValue} (room : bits.length ≤ 64)
    (high : ∀ j ≥ bits.length, value.getLsbD j = false)
    (run : ((bitTests position bits value).bind fun tests => constrainAll ⟨[]⟩ tests) = some made)
    (stream : List Byte) : made.matchesBytes stream = true ↔ readBits position stream bits = some value := by
  obtain ⟨tests, found, placed⟩ := Option.bind_eq_some_iff.mp run
  rw [constrainAll_some tests placed stream, bitTests_iff inBytes room high found]
  exact and_iff_right (nothing_matches stream)

theorem placed_none {position : Nat → Option (Nat × Nat)} (inBytes : InBytes position) {value : BitVec 64}
    (room : bits.length ≤ 64) (high : ∀ j ≥ bits.length, value.getLsbD j = false)
    (run : ((bitTests position bits value).bind fun tests => constrainAll ⟨[]⟩ tests) = none)
    (stream : List Byte) : readBits position stream bits ≠ some value := by
  intro read
  cases found : bitTests position bits value with
  | none =>
    rw [readBits_none room found] at read
    contradiction
  | some tests =>
    rw [found] at run
    exact constrainAll_none tests run (nothing_matches stream) ((bitTests_iff inBytes room high found).mpr read)

theorem readBits_guarded {bytes : Nat} {image : List Byte} (fits : image.length ≤ bytes)
    {value : BitVec 64} (room : bits.length ≤ 64) :
    readBits (fun bit => if bytes ≠ 0 ∧ (ContextField.bitPosition bit).1 ≥ bytes then none
      else some (ContextField.bitPosition bit)) image bits = some value ↔
    readBits (fun bit => some (ContextField.bitPosition bit)) image bits = some value := by
  rw [readBits_iff room, readBits_iff room]
  refine and_congr_left fun _ => forall_congr' fun p => forall_congr' fun _ => ?_
  constructor
  · rintro ⟨byte, offset, b, found, there, same⟩
    dsimp only at found
    split at found
    · contradiction
    · exact ⟨byte, offset, b, found, there, same⟩
  · rintro ⟨byte, offset, b, found, there, same⟩
    obtain ⟨rfl, rfl⟩ := by simpa [Prod.ext_iff] using found
    have inside := (List.getElem?_eq_some_iff.mp there).1
    refine ⟨_, _, b, if_neg ?_, there, same⟩
    omega

section
variable {ctx : Context}

theorem context_inBytes (bytes : Nat) : InBytes fun bit =>
    if bytes ≠ 0 ∧ (ContextField.bitPosition bit).1 ≥ bytes then none else some (ContextField.bitPosition bit) := by
  intro bit byte offset found
  dsimp only at found
  split at found
  · contradiction
  · simp only [ContextField.bitPosition, Option.some.injEq, Prod.mk.injEq] at found
    omega

variable {v : Int64}

theorem field_met {f : Field} {token : TokenDef} {bytes : List Byte} (narrow : f.bits ≤ 64)
    (met : (f.extract token bytes).map f.integer = some v) :
    readBits (Field.bitPosition token) bytes f.range = some (v.toBitVec &&& maskOf f.bits) := by
  obtain ⟨raw, read, same⟩ := Option.map_eq_some_iff.mp met
  unfold Field.extract at read
  split at read
  · contradiction
  · exact reads_constant (range_length f) (by simp [Field.bits]) narrow read same

theorem field_reads {f : Field} {token : TokenDef} {bytes : List Byte} (narrow : f.bits ≤ 64)
    (fit : fits v f.bits f.signed = true) (plain : f.signed = true ∨ 0 ≤ v ∨ f.bits = 64)
    (long : token.size ≤ bytes.length)
    (read : readBits (Field.bitPosition token) bytes f.range = some (v.toBitVec &&& maskOf f.bits)) :
    (f.extract token bytes).map f.integer = some v := by
  have positive : 0 < f.bits := by simp [Field.bits]
  unfold Field.extract
  rw [if_neg (by omega), read, Option.map_some]
  exact congrArg some (integer_of_encoded positive narrow fit plain)

theorem context_met {f : ContextField} {image : List Byte} (narrow : f.bits ≤ 64)
    (met : (f.extract image).map f.integer = some v) :
    readBits (fun bit => some (ContextField.bitPosition bit)) image f.range = some (v.toBitVec &&& maskOf f.bits) := by
  obtain ⟨raw, read, same⟩ := Option.map_eq_some_iff.mp met
  exact reads_constant (contextRange_length f) (by simp [ContextField.bits]) narrow read same

theorem context_reads {f : ContextField} {image : List Byte} (narrow : f.bits ≤ 64)
    (fit : fits v f.bits f.signed = true) (plain : f.signed = true ∨ 0 ≤ v ∨ f.bits = 64)
    (read : readBits (fun bit => some (ContextField.bitPosition bit)) image f.range =
      some (v.toBitVec &&& maskOf f.bits)) : (f.extract image).map f.integer = some v := by
  have positive : 0 < f.bits := by simp [ContextField.bits]
  unfold ContextField.extract
  rw [read, Option.map_some]
  exact congrArg some (integer_of_encoded positive narrow fit plain)

/-! ### Leaves -/

/-- The masks of an alternative hold from byte `start` on, and where its end is
    known here, the pattern stops there. -/
structure Covers (s : Scene ctx) (alt : Alt) (start stop : Nat) : Prop where
  instr : alt.instr.matchesBytes (s.stream.drop start) = true
  context : alt.context.matchesBytes s.image = true
  ends : alt.exact = true → alt.stop.base = none ∧ stop = start + alt.stop.delta

theorem bare_instr (sym : SymbolRef) : (bare ctx sym).instr = ⟨[]⟩ := by
  unfold bare
  cases ctx.resolve sym <;> rfl

theorem bare_context (sym : SymbolRef) : (bare ctx sym).context = ⟨[]⟩ := by
  unfold bare
  cases ctx.resolve sym <;> rfl

theorem bare_residual (sym : SymbolRef) : (bare ctx sym).residual = [] := by
  unfold bare
  cases ctx.resolve sym <;> rfl

theorem bare_length {sym : SymbolRef} {id : Nat} (bound : ctx.resolve sym = .field id) :
    (bare ctx sym).length = (ctx.token id).size := by
  unfold bare
  rw [bound]

theorem bare_ends (s : Scene ctx) (sym : SymbolRef) (exact_ : (bare ctx sym).exact = true) :
    (bare ctx sym).stop = .absolute (bare ctx sym).length ∧ s.widthOf sym = (bare ctx sym).length := by
  unfold bare at exact_ ⊢
  unfold Scene.widthOf
  cases bound : ctx.resolve sym with
  | field id => exact ⟨rfl, rfl⟩
  | context id => exact ⟨rfl, rfl⟩
  | nothing => exact ⟨rfl, rfl⟩
  | subtable id =>
    rw [bound] at exact_
    dsimp only at exact_ ⊢
    rw [exact_]
    exact ⟨rfl, (s.declared sym id bound).2 exact_⟩

variable {alt : Alt}

theorem covers_bare (s : Scene ctx) (sym : SymbolRef) (start : Nat) (instr : alt.instr = (bare ctx sym).instr)
    (context : alt.context = (bare ctx sym).context) (exact_ : alt.exact = (bare ctx sym).exact)
    (stop : alt.stop = (bare ctx sym).stop) : Covers s alt start (start + s.widthOf sym) where
  instr := by rw [instr, bare_instr]; rfl
  context := by rw [context, bare_context]; rfl
  ends := by
    intro exact'
    rw [exact_] at exact'
    obtain ⟨ends, width⟩ := bare_ends s sym exact'
    rw [stop, ends, width]
    exact ⟨rfl, rfl⟩

variable {s : Scene ctx} {lhs : SymbolRef}

theorem met_constant {place : Nat} : Condition.Met s ⟨lhs, .equal, .num v, place⟩ ↔ s.leftValue lhs place = some v := by
  unfold Condition.Met Scene.rightValue
  simp only [ConstraintOp.compare, beq_iff_eq, Option.some.injEq]
  constructor
  · rintro ⟨left, right, there, rfl, rfl⟩
    exact there
  · intro there
    exact ⟨v, v, there, rfl, rfl⟩

variable {rhs : DisasmExpr}

theorem constraint_covers (s : Scene ctx) {op : ConstraintOp} {start : Nat} (narrow : Narrow ctx lhs op rhs)
    (met : Condition.Met s ⟨lhs, op, rhs, start⟩) :
    ∃ alt ∈ (constraint ctx lhs op rhs).1, Covers s alt start (start + s.widthOf lhs) := by
  have unplaced : ∀ {alt : Alt}, alt.instr = (bare ctx lhs).instr → alt.context = (bare ctx lhs).context →
      alt.exact = (bare ctx lhs).exact → alt.stop = (bare ctx lhs).stop →
      ∃ other ∈ [alt], Covers s other start (start + s.widthOf lhs) := by
    intro alt instr context exact_ stop
    exact ⟨alt, by simp, covers_bare s lhs start instr context exact_ stop⟩
  unfold constraint
  unfold Narrow at narrow
  cases bound : ctx.resolve lhs with
  | subtable id => exact unplaced rfl rfl rfl rfl
  | nothing => exact unplaced rfl rfl rfl rfl
  | field id =>
    dsimp only
    split
    · exact unplaced rfl rfl rfl rfl
    · split
      · next v =>
        rw [bound] at narrow
        rw [met_constant, Scene.leftValue, bound] at met
        have room : (ctx.field id).range.length ≤ 64 := by rwa [range_length]
        have high := encoded_high v (range_length (ctx.field id))
        have read := field_met narrow met
        unfold encode
        split
        · next bits encoded =>
          split at encoded
          · obtain rfl := Option.some.inj encoded
            split
            · next instr placed =>
              rw [bare_instr] at placed
              refine ⟨_, List.mem_singleton_self _, ?_⟩
              have plain : Covers s (bare ctx lhs) start (start + s.widthOf lhs) := covers_bare s lhs start rfl rfl rfl rfl
              exact ⟨(placed_some (field_inBytes _) room high placed _).mpr read, plain.context, plain.ends⟩
            · next refused =>
              rw [bare_instr] at refused
              exact absurd read (placed_none (field_inBytes _) room high refused _)
          · contradiction
        · exact unplaced rfl rfl rfl rfl
      · exact unplaced rfl rfl rfl rfl
  | context id =>
    dsimp only
    split
    · next v =>
      rw [bound] at narrow
      rw [met_constant, Scene.leftValue, bound] at met
      have room : (ctx.contextField id).range.length ≤ 64 := by rwa [contextRange_length]
      have high := encoded_high v (contextRange_length (ctx.contextField id))
      rw [BitVec.and_comm] at high
      have read := context_met narrow met
      rw [BitVec.and_comm, ← readBits_guarded s.imageFits room] at read
      split
      · split
        · next context placed =>
          rw [bare_context] at placed
          refine ⟨_, List.mem_singleton_self _, ?_⟩
          have plain : Covers s (bare ctx lhs) start (start + s.widthOf lhs) := covers_bare s lhs start rfl rfl rfl rfl
          exact ⟨plain.instr, (placed_some (context_inBytes _) room high placed _).mpr read, plain.ends⟩
        · next refused =>
          rw [bare_context] at refused
          exact absurd read (placed_none (context_inBytes _) room high refused _)
      · exact unplaced rfl rfl rfl rfl
    · exact unplaced rfl rfl rfl rfl

/-! ### Everything that a pattern admits passes the masks -/

variable {a b : Alt} {start stop stop' : Nat}

theorem conjoin_ends (left : a.exact = true → a.stop.base = none ∧ stop = start + a.stop.delta)
    (right : b.exact = true → b.stop.base = none ∧ stop' = start + b.stop.delta) (length : Nat)
    (both : (a.exact && b.exact) = true) :
    (laterOf a b length).base = none ∧ max stop stop' = start + (laterOf a b length).delta := by
  rw [Bool.and_eq_true] at both
  obtain ⟨baseA, endsA⟩ := left both.1
  obtain ⟨baseB, endsB⟩ := right both.2
  unfold laterOf
  rw [if_pos (by rw [baseA, baseB]), endsA, endsB]
  exact ⟨baseA, by dsimp only; omega⟩

theorem mem_pairs {α β γ : Type} {make : α → β → Option γ} {xs : List α} {ys : List β} {z : γ} :
    z ∈ xs.flatMap (fun x => ys.filterMap (make x)) ↔ ∃ x ∈ xs, ∃ y ∈ ys, make x y = some z := by
  simp only [List.mem_flatMap, List.mem_filterMap]

theorem conjoinOne_covers (left : Covers s a start stop) (right : Covers s b start stop') :
    ∃ alt, conjoinOne a b = some alt ∧ Covers s alt start (max stop stop') := by
  unfold conjoinOne
  cases instr : a.instr.merge b.instr with
  | none => exact absurd right.instr (merge_none instr left.instr)
  | some instr' =>
    cases context : a.context.merge b.context with
    | none => exact absurd right.context (merge_none context left.context)
    | some context' =>
      refine ⟨_, rfl, (merge_some instr _).mpr ⟨left.instr, right.instr⟩,
        (merge_some context _).mpr ⟨left.context, right.context⟩, conjoin_ends left.ends right.ends _⟩

theorem placeable_iff (a : Alt) : a.placeable = true ↔ a.stop.base = none ∧ a.exact = true := by
  simp [Alt.placeable, Offset.isAbsolute]

variable {cap : Nat}

theorem concatOne_covers (left : Covers s a start stop) (right : Covers s b stop stop') :
    ∃ alt, concatOne cap a b = some alt ∧ Covers s alt start stop' := by
  have ends : ∀ alt : Alt, alt.exact = true → alt.stop = rebase a.stop b.stop → (alt.exact = true → a.exact = true ∧ b.exact = true) →
      alt.stop.base = none ∧ stop' = start + alt.stop.delta := by
    intro alt exact_ same parts
    obtain ⟨exactA, exactB⟩ := parts exact_
    obtain ⟨baseA, endsA⟩ := left.ends exactA
    obtain ⟨baseB, endsB⟩ := right.ends exactB
    rw [same, rebase, baseB]
    exact ⟨baseA, by dsimp only; omega⟩
  unfold concatOne
  cases context : a.context.merge b.context with
  | none => exact absurd right.context (merge_none context left.context)
  | some context' =>
    have inContext := (merge_some context _).mpr ⟨left.context, right.context⟩
    by_cases isPlaced : placed cap a = true
    · have known := isPlaced
      rw [placed, Bool.and_eq_true, placeable_iff] at known
      obtain ⟨-, endsA⟩ := left.ends known.1.2
      have later : (b.instr.shifted a.stop.delta).matchesBytes (s.stream.drop start) = true := by
        rw [shifted_matches, List.drop_drop, ← endsA]
        exact right.instr
      unfold concatInstr
      rw [if_pos isPlaced]
      cases instr : a.instr.merge (b.instr.shifted a.stop.delta) with
      | none => exact absurd later (merge_none instr left.instr)
      | some instr' =>
        refine ⟨_, rfl, (merge_some instr _).mpr ⟨left.instr, later⟩, inContext, ?_⟩
        intro exact_
        refine ends _ exact_ rfl fun exact_ => ?_
        simp only [Bool.and_eq_true] at exact_
        exact exact_.2
    · unfold concatInstr
      rw [if_neg isPlaced]
      refine ⟨_, rfl, left.instr, inContext, ?_⟩
      intro exact_
      refine ends _ exact_ rfl fun exact_ => ?_
      simp only [Bool.and_eq_true] at exact_
      exact exact_.2

/-- Collapsing keeps what one of the alternatives lets through. -/
theorem mergeAlts_covers (rest : List Alt) : ∀ merged : Alt, merged.exact = false →
    Covers s merged start stop ∨ (∃ alt ∈ rest, Covers s alt start stop) →
    Covers s (rest.foldl (fun merged alt =>
      let length := min merged.length alt.length
      { merged with
        instr := merged.instr.intersect alt.instr
        context := merged.context.intersect alt.context
        length
        max := Max.max merged.max alt.max
        stop := if merged.stop ≠ alt.stop then .absolute length else merged.stop }) merged) start stop := by
  induction rest with
  | nil =>
    intro merged _ covers
    simpa using covers
  | cons alt rest ih =>
    intro merged inexact covers
    rw [List.foldl_cons]
    apply ih
    · exact inexact
    · rcases covers with here | ⟨other, member, covers⟩
      · refine .inl ⟨intersect_left here.instr, intersect_left here.context, ?_⟩
        intro exact_
        exact absurd exact_ (by simp [inexact])
      · rcases List.mem_cons.mp member with rfl | later
        · refine .inl ⟨intersect_right covers.instr, intersect_right covers.context, ?_⟩
          intro exact_
          exact absurd exact_ (by simp [inexact])
        · exact .inr ⟨other, later, covers⟩

theorem budget_covers {alts : List Alt} (member : alt ∈ alts) (covers : Covers s alt start stop) :
    ∃ kept ∈ (budget ctx alts).1, Covers s kept start stop := by
  unfold budget
  split
  · exact ⟨alt, member, covers⟩
  · cases alts with
    | nil => simp at member
    | cons first rest =>
      refine ⟨mergeAlts first rest, List.mem_singleton_self _, ?_⟩
      apply mergeAlts_covers
      · rfl
      · rcases List.mem_cons.mp member with rfl | later
        · refine .inl ⟨covers.instr, covers.context, ?_⟩
          intro exact_
          contradiction
        · exact .inr ⟨alt, later, covers⟩

variable {conds : List Condition}

/-- A reading whose conditions are met has an alternative whose masks hold. -/
theorem walk_covers (s : Scene ctx) {e : PatternExpr} (reads : Reads s e start conds stop) :
    Everywhere (Narrow ctx) e → (∀ c ∈ conds, c.Met s) →
    ∃ alt ∈ (walk ctx e).1, Covers s alt start stop := by
  induction reads with
  | epsilon start =>
    intro _ _
    exact ⟨.empty, List.mem_singleton_self _, rfl, rfl, fun _ => ⟨rfl, rfl⟩⟩
  | symbol sym start =>
    intro _ _
    have same : (symbol ctx sym).instr = (bare ctx sym).instr ∧ (symbol ctx sym).context = (bare ctx sym).context ∧
        (symbol ctx sym).exact = (bare ctx sym).exact ∧ (symbol ctx sym).stop = (bare ctx sym).stop := by
      unfold symbol
      dsimp only
      split <;> exact ⟨rfl, rfl, rfl, rfl⟩
    exact ⟨symbol ctx sym, List.mem_singleton_self _, covers_bare s sym start same.1 same.2.1 same.2.2.1 same.2.2.2⟩
  | constraint lhs op rhs start =>
    intro narrow met
    exact constraint_covers s narrow (met _ (List.mem_singleton_self _))
  | and _ _ ihA ihB =>
    intro narrow met
    obtain ⟨a, inA, coversA⟩ := ihA narrow.1 fun c member => met c (List.mem_append_left _ member)
    obtain ⟨b, inB, coversB⟩ := ihB narrow.2 fun c member => met c (List.mem_append_right _ member)
    obtain ⟨alt, made, covers⟩ := conjoinOne_covers coversA coversB
    exact budget_covers (mem_pairs.mpr ⟨a, inA, b, inB, made⟩) covers
  | orLeft _ ih =>
    intro narrow met
    obtain ⟨a, inA, covers⟩ := ih narrow.1 met
    exact budget_covers (List.mem_append_left _ inA) covers
  | orRight _ ih =>
    intro narrow met
    obtain ⟨b, inB, covers⟩ := ih narrow.2 met
    exact budget_covers (List.mem_append_right _ inB) covers
  | cat _ _ ihA ihB =>
    intro narrow met
    obtain ⟨a, inA, coversA⟩ := ihA narrow.1 fun c member => met c (List.mem_append_left _ member)
    obtain ⟨b, inB, coversB⟩ := ihB narrow.2 fun c member => met c (List.mem_append_right _ member)
    obtain ⟨alt, made, covers⟩ := concatOne_covers coversA coversB
    exact budget_covers (mem_pairs.mpr ⟨a, inA, b, inB, made⟩) covers
  | ellipsisRight _ ih => exact ih
  | ellipsisLeft later _ ih =>
    intro narrow met
    obtain ⟨a, inA, covers⟩ := ih narrow met
    refine ⟨_, List.mem_map_of_mem inA, rfl, covers.context, ?_⟩
    intro exact_
    contradiction

theorem reduce_sound (s : Scene ctx) {e : PatternExpr} (narrow : Everywhere (Narrow ctx) e) (holds : Holds s e) :
    ∃ alt ∈ (reduce e ctx).resolved.alternatives, alt.admits s.stream s.image = true := by
  obtain ⟨conds, stop, reads, met⟩ := holds
  obtain ⟨alt, member, covers⟩ := walk_covers s reads narrow met
  refine ⟨_, List.mem_map_of_mem member, ?_⟩
  rw [PatternAlt.admits, Bool.and_eq_true]
  exact ⟨covers.instr, covers.context⟩

/-! ### An exact reduction lets nothing else through -/

def Condition.expr (c : Condition) : PatternExpr := .constraint c.lhs c.op c.rhs

def isConstraint : PatternExpr → Bool
  | .constraint _ _ _ => true
  | _ => false

/-- An alternative is one reading of a pattern: its masks hold exactly where the
    conditions that go into masks are met, and its residual constraints are the
    other conditions. -/
structure Mirrors (s : Scene ctx) (alt : Alt) (start : Nat) (conds : List Condition) (stop : Nat) : Prop where
  residual : alt.residual.filter isConstraint = (conds.filter fun c => !masked ctx c).map Condition.expr
  ends : alt.exact = true → alt.stop.base = none ∧ stop = start + alt.stop.delta
  masks : (alt.instr.matchesBytes (s.stream.drop start) = true ∧ alt.context.matchesBytes s.image = true) ↔
    ∀ c ∈ conds, masked ctx c = true → c.Met s

/-- A constraint that is not a mask is the alternative's only residual. -/
theorem mirrors_kept (s : Scene ctx) {op : ConstraintOp} {start : Nat}
    (unmasked : masked ctx ⟨lhs, op, rhs, start⟩ = false) :
    Mirrors s { bare ctx lhs with residual := (bare ctx lhs).residual ++ [.constraint lhs op rhs] } start
      [⟨lhs, op, rhs, start⟩] (start + s.widthOf lhs) where
  residual := by simp [bare_residual, isConstraint, Condition.expr, unmasked]
  ends := (covers_bare s lhs start rfl rfl rfl rfl).ends
  masks := by
    refine ⟨fun _ c member isMasked => ?_, fun _ => ⟨?_, ?_⟩⟩
    · obtain rfl := List.mem_singleton.mp member
      rw [unmasked] at isMasked
      contradiction
    · rw [bare_instr]
      rfl
    · rw [bare_context]
      rfl

theorem constraint_mirrors (s : Scene ctx) {op : ConstraintOp} {start : Nat} (narrow : Narrow ctx lhs op rhs)
    (plain : Plain ctx lhs op rhs) (exact_ : (constraint ctx lhs op rhs).2 = none)
    (long : start + (bare ctx lhs).length ≤ s.stream.length) (member : alt ∈ (constraint ctx lhs op rhs).1) :
    Mirrors s alt start [⟨lhs, op, rhs, start⟩] (start + s.widthOf lhs) := by
  have kept : ∀ {alt : Alt}, masked ctx ⟨lhs, op, rhs, start⟩ = false →
      alt ∈ [{ bare ctx lhs with residual := (bare ctx lhs).residual ++ [.constraint lhs op rhs] }] →
      Mirrors s alt start [⟨lhs, op, rhs, start⟩] (start + s.widthOf lhs) := by
    intro alt unmasked member
    obtain rfl := List.mem_singleton.mp member
    exact mirrors_kept s unmasked
  have ends := (covers_bare s lhs start rfl rfl rfl rfl : Covers s (bare ctx lhs) start (start + s.widthOf lhs)).ends
  unfold constraint at exact_ member
  unfold Narrow at narrow
  unfold Plain at plain
  unfold masked at kept
  cases bound : ctx.resolve lhs with
  | subtable id =>
    rw [bound] at member
    exact kept (by rw [bound]) member
  | nothing =>
    rw [bound] at member
    exact kept (by rw [bound]) member
  | field id =>
    rw [bound] at member exact_
    dsimp only at member exact_
    rw [bare_length bound] at long
    split at member
    · next wide =>
      rw [if_pos wide] at exact_
      contradiction
    · split at member
      · next v =>
        rw [bound] at narrow plain
        unfold encode at member
        split at member
        · next bits encoded =>
          split at encoded
          · next fit =>
            obtain rfl := Option.some.inj encoded
            have room : (ctx.field id).range.length ≤ 64 := by rwa [range_length]
            have high := encoded_high v (range_length (ctx.field id))
            split at member
            · next instr placed =>
              obtain rfl := List.mem_singleton.mp member
              rw [bare_instr] at placed
              have isMasked : masked ctx ⟨lhs, .equal, .num v, start⟩ = true := by
                unfold masked
                rw [bound]
                exact fit
              refine ⟨?_, ends, ?_⟩
              · simp [bare_residual, isMasked]
              · rw [placed_some (field_inBytes _) room high placed]
                simp only [List.forall_mem_singleton, isMasked, forall_const, met_constant]
                rw [Scene.leftValue, bound]
                constructor
                · rintro ⟨read, -⟩
                  exact field_reads narrow fit plain (by rw [List.length_drop]; omega) read
                · intro met
                  refine ⟨field_met narrow met, ?_⟩
                  rw [bare_context]
                  rfl
            · simp at member
          · contradiction
        · next refused =>
          have unfit : fits v (ctx.field id).bits (ctx.field id).signed = false := by
            rw [Bool.eq_false_iff]
            intro fit
            rw [if_pos fit] at refused
            contradiction
          exact kept (by rw [bound]; exact unfit) member
      · next other =>
        refine kept ?_ member
        rw [bound]
        dsimp only
        split
        · next v _ => exact absurd rfl (other v rfl)
        · contradiction
        · rfl
  | context id =>
    rw [bound] at member
    dsimp only at member
    split at member
    · next v =>
      rw [bound] at narrow plain
      split at member
      · next fit =>
        have room : (ctx.contextField id).range.length ≤ 64 := by rwa [contextRange_length]
        have high := encoded_high v (contextRange_length (ctx.contextField id))
        rw [BitVec.and_comm] at high
        split at member
        · next context placed =>
          obtain rfl := List.mem_singleton.mp member
          rw [bare_context] at placed
          have isMasked : masked ctx ⟨lhs, .equal, .num v, start⟩ = true := by
            unfold masked
            rw [bound]
            exact fit
          refine ⟨?_, ends, ?_⟩
          · simp [bare_residual, isMasked]
          · rw [placed_some (context_inBytes _) room high placed]
            simp only [List.forall_mem_singleton, isMasked, forall_const, met_constant]
            rw [Scene.leftValue, bound, readBits_guarded s.imageFits room, BitVec.and_comm]
            constructor
            · rintro ⟨-, read⟩
              exact context_reads narrow fit plain read
            · intro met
              refine ⟨?_, context_met narrow met⟩
              rw [bare_instr]
              rfl
        · simp at member
      · next unfit =>
        refine kept ?_ member
        rw [bound]
        simpa using unfit
    · next other =>
      refine kept ?_ member
      rw [bound]
      dsimp only
      split
      · contradiction
      · next v _ => exact absurd rfl (other v rfl)
      · rfl

theorem conjoin_mirrors {conds' : List Condition} (left : Mirrors s a start conds stop)
    (right : Mirrors s b start conds' stop') (made : conjoinOne a b = some alt) :
    Mirrors s alt start (conds ++ conds') (max stop stop') := by
  unfold conjoinOne at made
  obtain ⟨instr, mergedInstr, made⟩ := Option.bind_eq_some_iff.mp made
  obtain ⟨context, mergedContext, made⟩ := Option.bind_eq_some_iff.mp made
  obtain rfl := Option.some.inj made
  refine ⟨?_, conjoin_ends left.ends right.ends _, ?_⟩
  · simp [left.residual, right.residual]
  · rw [merge_some mergedInstr, merge_some mergedContext, List.forall_mem_append, ← left.masks, ← right.masks]
    exact and_and_and_comm

theorem concat_mirrors {conds' : List Condition} (left : Mirrors s a start conds stop)
    (right : Mirrors s b stop conds' stop') (placeable : a.placeable = true) (within : a.stop.delta ≤ cap)
    (made : concatOne cap a b = some alt) : Mirrors s alt start (conds ++ conds') stop' := by
  have isPlaced : placed cap a = true := by simp [placed, placeable, within]
  obtain ⟨baseA, endsA⟩ := left.ends ((placeable_iff a).mp placeable).2
  unfold concatOne at made
  obtain ⟨instr, mergedInstr, made⟩ := Option.bind_eq_some_iff.mp made
  rw [concatInstr, if_pos isPlaced] at mergedInstr
  obtain ⟨context, mergedContext, made⟩ := Option.bind_eq_some_iff.mp made
  obtain rfl := Option.some.inj made
  refine ⟨?_, ?_, ?_⟩
  · simp [left.residual, right.residual]
  · intro both
    simp only [Bool.and_eq_true] at both
    obtain ⟨baseB, endsB⟩ := right.ends both.2.2
    show (rebase a.stop b.stop).base = none ∧ stop' = start + (rebase a.stop b.stop).delta
    rw [rebase, baseB]
    exact ⟨baseA, by dsimp only; omega⟩
  · rw [merge_some mergedInstr, merge_some mergedContext, shifted_matches, List.drop_drop, ← endsA,
      List.forall_mem_append, ← left.masks, ← right.masks]
    exact and_and_and_comm

theorem budget_exact {alts : List Alt} (exact_ : (budget ctx alts).2 = none) : (budget ctx alts).1 = alts := by
  unfold budget at exact_ ⊢
  split
  · rfl
  · next over_ =>
    rw [if_neg over_] at exact_
    cases alts <;> contradiction

theorem orElse_none {α : Type} {a b : Option α} (none : (a <|> b) = none) : a = Option.none ∧ b = Option.none := by
  cases a with
  | none => exact ⟨rfl, none⟩
  | some x => contradiction

theorem conjoinOne_within {n m : Nat} (left : a.exact = true → a.stop.base = none ∧ a.stop.delta ≤ n)
    (right : b.exact = true → b.stop.base = none ∧ b.stop.delta ≤ m) (made : conjoinOne a b = some alt) :
    alt.exact = true → alt.stop.base = none ∧ alt.stop.delta ≤ max n m := by
  unfold conjoinOne at made
  obtain ⟨instr, -, made⟩ := Option.bind_eq_some_iff.mp made
  obtain ⟨context, -, made⟩ := Option.bind_eq_some_iff.mp made
  obtain rfl := Option.some.inj made
  intro both
  rw [Bool.and_eq_true] at both
  obtain ⟨baseA, withinA⟩ := left both.1
  obtain ⟨baseB, withinB⟩ := right both.2
  show (laterOf a b _).base = none ∧ (laterOf a b _).delta ≤ max n m
  unfold laterOf
  rw [if_pos (by rw [baseA, baseB])]
  exact ⟨baseA, by dsimp only; omega⟩

theorem concatOne_within {n m : Nat} (left : a.exact = true → a.stop.base = none ∧ a.stop.delta ≤ n)
    (right : b.exact = true → b.stop.base = none ∧ b.stop.delta ≤ m) (made : concatOne cap a b = some alt) :
    alt.exact = true → alt.stop.base = none ∧ alt.stop.delta ≤ n + m := by
  unfold concatOne at made
  obtain ⟨instr, -, made⟩ := Option.bind_eq_some_iff.mp made
  obtain ⟨context, -, made⟩ := Option.bind_eq_some_iff.mp made
  obtain rfl := Option.some.inj made
  intro both
  simp only [Bool.and_eq_true] at both
  obtain ⟨baseA, withinA⟩ := left both.2.1
  obtain ⟨baseB, withinB⟩ := right both.2.2
  show (rebase a.stop b.stop).base = none ∧ (rebase a.stop b.stop).delta ≤ n + m
  rw [rebase, baseB]
  exact ⟨baseA, by dsimp only; omega⟩

theorem symbol_mirrors (s : Scene ctx) (sym : SymbolRef) (start : Nat) :
    Mirrors s (symbol ctx sym) start [] (start + s.widthOf sym) := by
  have bare_ : Mirrors s (bare ctx sym) start [] (start + s.widthOf sym) := by
    refine ⟨by rw [bare_residual]; rfl, (covers_bare s sym start rfl rfl rfl rfl).ends, ?_⟩
    rw [bare_instr, bare_context]
    exact ⟨fun _ => by simp, fun _ => ⟨rfl, rfl⟩⟩
  unfold symbol
  dsimp only
  split
  · exact bare_
  · refine ⟨?_, bare_.ends, bare_.masks⟩
    rw [bare_residual]
    rfl
  · exact bare_

theorem walk_within (e : PatternExpr) : (walk ctx e).2 = none →
    ∀ alt ∈ (walk ctx e).1, alt.exact = true → alt.stop.base = none ∧ alt.stop.delta ≤ reach ctx e := by
  have leaf : ∀ sym, (bare ctx sym).exact = true →
      (bare ctx sym).stop.base = none ∧ (bare ctx sym).stop.delta ≤ (bare ctx sym).length := by
    intro sym exact_
    unfold bare at exact_ ⊢
    cases bound : ctx.resolve sym with
    | field id => exact ⟨rfl, Nat.le_refl _⟩
    | context id => exact ⟨rfl, Nat.le_refl _⟩
    | nothing => exact ⟨rfl, Nat.le_refl _⟩
    | subtable id =>
      rw [bound] at exact_
      dsimp only at exact_ ⊢
      rw [exact_]
      exact ⟨rfl, Nat.le_refl _⟩
  induction e with
  | epsilon =>
    intro _ alt member _
    obtain rfl := List.mem_singleton.mp member
    exact ⟨rfl, Nat.le_refl _⟩
  | symbol sym =>
    intro _ alt member exact_
    obtain rfl := List.mem_singleton.mp member
    have same : (symbol ctx sym).exact = (bare ctx sym).exact ∧ (symbol ctx sym).stop = (bare ctx sym).stop := by
      unfold symbol
      dsimp only
      split <;> exact ⟨rfl, rfl⟩
    rw [same.2]
    exact leaf sym (same.1 ▸ exact_)
  | constraint lhs op rhs =>
    intro _ alt member exact_
    have same : alt.exact = (bare ctx lhs).exact ∧ alt.stop = (bare ctx lhs).stop := by
      simp only [walk, constraint] at member
      revert member
      repeat' split
      all_goals
        intro member
        first
          | exact absurd member List.not_mem_nil
          | (obtain rfl := List.mem_singleton.mp member; exact ⟨rfl, rfl⟩)
    rw [same.2]
    exact leaf lhs (same.1 ▸ exact_)
  | and a b ihA ihB =>
    intro exact_ alt member
    obtain ⟨noneA, rest⟩ := orElse_none exact_
    obtain ⟨noneB, rest⟩ := orElse_none rest
    simp only [walk] at member
    rw [budget_exact rest] at member
    obtain ⟨x, inA, y, inB, made⟩ := mem_pairs.mp member
    exact conjoinOne_within (ihA noneA x inA) (ihB noneB y inB) made
  | or a b ihA ihB =>
    intro exact_ alt member known
    obtain ⟨noneA, rest⟩ := orElse_none exact_
    obtain ⟨noneB, rest⟩ := orElse_none rest
    simp only [walk] at member
    rw [budget_exact rest] at member
    rcases List.mem_append.mp member with inA | inB
    · have := ihA noneA alt inA known
      exact ⟨this.1, Nat.le_trans this.2 (Nat.le_max_left _ _)⟩
    · have := ihB noneB alt inB known
      exact ⟨this.1, Nat.le_trans this.2 (Nat.le_max_right _ _)⟩
  | cat a b ihA ihB =>
    intro exact_ alt member
    obtain ⟨noneA, rest⟩ := orElse_none exact_
    obtain ⟨noneB, rest⟩ := orElse_none rest
    obtain ⟨-, rest⟩ := orElse_none rest
    simp only [walk] at member
    rw [budget_exact rest] at member
    obtain ⟨x, inA, y, inB, made⟩ := mem_pairs.mp member
    exact concatOne_within (ihA noneA x inA) (ihB noneB y inB) made
  | ellipsisRight a ih => exact ih
  | ellipsisLeft a ih =>
    intro exact_
    contradiction

/-- Every alternative of an exact reduction is one reading of the pattern. -/
theorem walk_mirrors (s : Scene ctx) (e : PatternExpr) : Everywhere (Narrow ctx) e → Everywhere (Plain ctx) e →
    reach ctx e ≤ ctx.limits.patternBytes → (walk ctx e).2 = none → ∀ start, start + reach ctx e ≤ s.stream.length →
    ∀ alt ∈ (walk ctx e).1, ∃ conds stop, Reads s e start conds stop ∧ Mirrors s alt start conds stop := by
  induction e with
  | epsilon =>
    intro _ _ _ _ start _ alt member
    obtain rfl := List.mem_singleton.mp member
    refine ⟨[], start, .epsilon start, rfl, fun _ => ⟨rfl, rfl⟩, ?_⟩
    exact ⟨fun _ => by simp, fun _ => ⟨rfl, rfl⟩⟩
  | symbol sym =>
    intro _ _ _ _ start _ alt member
    obtain rfl := List.mem_singleton.mp member
    exact ⟨[], _, .symbol sym start, symbol_mirrors s sym start⟩
  | constraint lhs op rhs =>
    intro narrow plain _ exact_ start long alt member
    exact ⟨_, _, .constraint lhs op rhs start, constraint_mirrors s narrow plain exact_ long member⟩
  | and a b ihA ihB =>
    intro narrow plain short exact_ start long alt member
    obtain ⟨noneA, rest⟩ := orElse_none exact_
    obtain ⟨noneB, rest⟩ := orElse_none rest
    simp only [walk] at member
    rw [budget_exact rest] at member
    obtain ⟨x, inA, y, inB, made⟩ := mem_pairs.mp member
    simp only [reach] at short long
    obtain ⟨conds, stop, readsA, mirrorsA⟩ := ihA narrow.1 plain.1 (by omega) noneA start (by omega) x inA
    obtain ⟨conds', stop', readsB, mirrorsB⟩ := ihB narrow.2 plain.2 (by omega) noneB start (by omega) y inB
    exact ⟨_, _, .and readsA readsB, conjoin_mirrors mirrorsA mirrorsB made⟩
  | or a b ihA ihB =>
    intro narrow plain short exact_ start long alt member
    obtain ⟨noneA, rest⟩ := orElse_none exact_
    obtain ⟨noneB, rest⟩ := orElse_none rest
    simp only [walk] at member
    rw [budget_exact rest] at member
    simp only [reach] at short long
    rcases List.mem_append.mp member with inA | inB
    · obtain ⟨conds, stop, reads, mirrors⟩ := ihA narrow.1 plain.1 (by omega) noneA start (by omega) alt inA
      exact ⟨conds, stop, .orLeft reads, mirrors⟩
    · obtain ⟨conds, stop, reads, mirrors⟩ := ihB narrow.2 plain.2 (by omega) noneB start (by omega) alt inB
      exact ⟨conds, stop, .orRight reads, mirrors⟩
  | cat a b ihA ihB =>
    intro narrow plain short exact_ start long alt member
    obtain ⟨noneA, rest⟩ := orElse_none exact_
    obtain ⟨noneB, rest⟩ := orElse_none rest
    obtain ⟨noneUnplaced, rest⟩ := orElse_none rest
    simp only [walk] at member
    rw [budget_exact rest] at member
    obtain ⟨x, inA, y, inB, made⟩ := mem_pairs.mp member
    simp only [reach] at short long
    have placeable : x.placeable = true := by
      by_contra other
      have any : ((walk ctx a).1.any fun alt => !alt.placeable) = true :=
        List.any_eq_true.mpr ⟨x, inA, by simpa using other⟩
      rw [if_pos any] at noneUnplaced
      contradiction
    have known := ((placeable_iff x).mp placeable).2
    have within := (walk_within a noneA x inA known).2
    obtain ⟨conds, stop, readsA, mirrorsA⟩ := ihA narrow.1 plain.1 (by omega) noneA start (by omega) x inA
    have ends := (mirrorsA.ends known).2
    obtain ⟨conds', stop', readsB, mirrorsB⟩ := ihB narrow.2 plain.2 (by omega) noneB stop (by omega) y inB
    exact ⟨_, _, .cat readsA readsB, concat_mirrors mirrorsA mirrorsB placeable (by omega) made⟩
  | ellipsisRight a ih =>
    intro narrow plain short exact_ start long alt member
    obtain ⟨conds, stop, reads, mirrors⟩ := ih narrow plain short exact_ start long alt member
    exact ⟨conds, stop, .ellipsisRight reads, mirrors⟩
  | ellipsisLeft a ih =>
    intro _ _ _ exact_
    contradiction

/-! ### The reduction of a pattern -/

/-- What the masks of a pattern are for. A pattern that holds passes some
    alternative. And where nothing was approximated, every alternative is one
    reading of the pattern: its masks stand for the conditions that fit into masks,
    its residual constraints are the others, and together they make it hold. -/
structure Faithful (e : PatternExpr) (s : Scene ctx) : Prop where
  sound : Holds s e → ∃ alt ∈ (reduce e ctx).resolved.alternatives, alt.admits s.stream s.image = true
  exact : (reduce e ctx).resolved.approximation = none → ∀ alt ∈ (reduce e ctx).resolved.alternatives,
    ∃ conds stop, Reads s e 0 conds stop ∧
      alt.residual.filter isConstraint = (conds.filter fun c => !masked ctx c).map Condition.expr ∧
      (alt.admits s.stream s.image = true ↔ ∀ c ∈ conds, masked ctx c = true → c.Met s) ∧
      (alt.admits s.stream s.image = true → (∀ c ∈ conds, masked ctx c = false → c.Met s) → Holds s e)

end

def oneField (size low high : Nat) (ordered : low ≤ high) : Context :=
  ⟨[⟨size, .little⟩], [⟨⟨0⟩, low, high, false, .none, ordered⟩], [], 0, [], [], [], [], ⟨512, 256⟩⟩

def onBytes (size low high : Nat) (ordered : low ≤ high) (stream : List Byte) : Scene (oneField size low high ordered) where
  stream
  image := []
  width _ := 0
  value _ _ := none
  right _ _ := none
  imageFits := Nat.zero_le _
  declared := by
    intro sym id _
    simp [oneField]

end E5r.SleighPatterns
