import E5r.CacheCodec

/-!
What the analysis cache reads back of what it wrote. Every field returns; the only counts
that are refused are of more than 2^32 parts, and of blocks that are smaller than the
least size the reader takes a block to have.
-/
namespace E5r.CacheRoundTrip
open SortedRecords MemoryModel BlockInterner ByteCodec WordMixing CacheCodec
open ProbeTable (enterAll walk Indexed Stops indexed_vacant enterAll_indexed walk_stops exists_vacant)
open CfgModel (Terminator Halt)
open DataRegions (dedup)

/-! ### Codes -/

theorem evidenceFrom_code (e : Evidence) : evidenceFrom (evidenceCode e) = some e := by cases e <;> rfl
theorem evidenceCode_lt (e : Evidence) : evidenceCode e < 256 := by cases e <;> decide
theorem terminatorFrom_byte (t : Terminator) : terminatorFrom (terminatorByte t) = some t := by cases t <;> rfl
theorem terminatorByte_lt (t : Terminator) : terminatorByte t < 256 := by cases t <;> decide
theorem haltFrom_code (h : Halt) : haltFrom (haltCode h) = some h := by cases h <;> rfl
theorem haltCode_lt (h : Halt) : haltCode h < 256 := by cases h <;> decide
theorem tableKindFrom_code (k : TableKind) : tableKindFrom (tableKindCode k) = some k := by cases k <;> rfl
theorem tableKindCode_lt (k : TableKind) : tableKindCode k < 256 := by cases k <;> decide
theorem xrefKindFrom_code (k : XrefKind) : xrefKindFrom (xrefKindCode k) = some k := by cases k <;> rfl
theorem xrefKindCode_lt (k : XrefKind) : xrefKindCode k < 256 := by cases k <;> decide
theorem encodingFrom_code (e : Encoding) : encodingFrom (encodingCode e) = some e := by cases e <;> rfl
theorem encodingCode_lt (e : Encoding) : encodingCode e < 256 := by cases e <;> decide

/-! ### Values of the fields' types -/

structure JumpTable.Typed (t : JumpTable) : Prop where
  at_ : t.at_ < 2 ^ 64
  table : t.table < 2 ^ 64
  entrySize : t.entrySize < 2 ^ 64
  base : t.base < 2 ^ 64
  shift : t.shift < 256
  targets : ∀ a ∈ t.targets, a < 2 ^ 64
  length : t.targets.length < 2 ^ 64

structure Block.Typed (b : Block) : Prop where
  successors : ∀ a ∈ b.successors, a < 2 ^ 64
  insns : b.insns < 2 ^ 32

structure Cfg.Typed (c : Cfg (List Entry)) : Prop where
  entry : c.entry < 2 ^ 64
  blocks : ∀ e ∈ c.blocks, Block.Typed e.block
  length : c.blocks.length < 2 ^ 64
  calls : ∀ a ∈ c.calls, a < 2 ^ 64
  tables : ∀ t ∈ c.tables, JumpTable.Typed t

structure Function.Typed (f : Function (List Entry)) : Prop where
  entry : f.entry < 2 ^ 64
  cfg : Cfg.Typed f.cfg

/-! ### Lengths that fit their fields -/

structure Cfg.Counted (c : Cfg (List Entry)) : Prop where
  blocks : ∀ e ∈ c.blocks, e.block.successors.length < 2 ^ 32
  calls : c.calls.length < 2 ^ 32
  tables : c.tables.length < 2 ^ 32

structure Function.Counted (f : Function (List Entry)) : Prop where
  name : ∀ s ∈ f.name, (bytesOf s).length < 2 ^ 32
  cfg : Cfg.Counted f.cfg

/-! ### Reading one part -/

theorem words_run {l : List ℕ} (small : ∀ a ∈ l, a < 2 ^ 64) (rest : List UInt8) :
    times u64 l.length (l.flatMap (leBytes 8) ++ rest) = some (l, rest) :=
  times_run (fun a member rest => u64_run (small a member) rest) rest

theorem length_words (l : List ℕ) : (l.flatMap (leBytes 8)).length = l.length * 8 := by
  induction l with
  | nil => rfl
  | cons a l ih =>
    rw [List.flatMap_cons, List.length_append, ih, length_leBytes, List.length_cons]
    omega

theorem atMost_words (l : List ℕ) (rest : List UInt8) :
    atMost l.length 8 (l.flatMap (leBytes 8) ++ rest) = some ((), l.flatMap (leBytes 8) ++ rest) :=
  atMost_run (by rw [List.length_append, length_words]; omega)

theorem count_words {l : List ℕ} (small : l.length < 2 ^ 64) (rest : List UInt8) :
    count 8 (leBytes 8 l.length ++ (l.flatMap (leBytes 8) ++ rest)) = some (l.length, l.flatMap (leBytes 8) ++ rest) :=
  count_run small (by rw [List.length_append, length_words]; exact Nat.le_add_right _ _)

theorem lift_run {α : Type} {v : Option α} {a : α} (here : v = some a) (rest : List UInt8) :
    lift v rest = some (a, rest) := by rw [lift, here]; rfl

theorem decodeEvidence_run (e : Evidence) (rest : List UInt8) :
    decodeEvidence (leBytes 1 (evidenceCode e) ++ rest) = some (e, rest) := by
  rw [decodeEvidence, bind_run, u8_run (evidenceCode_lt e), Option.bind_some]
  exact lift_run (evidenceFrom_code e) rest

theorem decodeProvenance_run {p : Provenance} (few : p.corroborating.length ≤ 255) (rest : List UInt8) :
    decodeProvenance (encodeProvenance p ++ rest) = some (p, rest) := by
  have enough : p.corroborating.length * 1 ≤ (p.corroborating.flatMap fun e => leBytes 1 (evidenceCode e)).length :=
    length_flatMap_ge fun e _ => (length_leBytes 1 (evidenceCode e)).ge
  rw [encodeProvenance, Nat.min_eq_left few, List.take_of_length_le few, List.append_assoc, List.append_assoc,
    decodeProvenance, bind_run, decodeEvidence_run, Option.bind_some, bind_run, u8_run (by omega), Option.bind_some,
    bind_run, remaining, Option.bind_some, bind_run, guard_,
    if_pos (decide_eq_true (by rw [List.length_append]; omega)), lift_run rfl, Option.bind_some, bind_run,
    times_run (fun e _ rest => decodeEvidence_run e rest), Option.bind_some]
  rfl

theorem decodeTable_run {t : JumpTable} (typed : JumpTable.Typed t) (rest : List UInt8) :
    decodeTable (encodeTable t ++ rest) = some (t, rest) := by
  simp only [encodeTable, List.append_assoc]
  rw [decodeTable, bind_run, u64_run typed.at_, Option.bind_some, bind_run, u64_run typed.table, Option.bind_some, bind_run,
    u64_run typed.entrySize, Option.bind_some, bind_run, u8_run (tableKindCode_lt t.kind), Option.bind_some, bind_run,
    lift_run (tableKindFrom_code t.kind), Option.bind_some, bind_run, u64_run typed.base, Option.bind_some, bind_run,
    u8_run typed.shift, Option.bind_some, bind_run, bool_run, Option.bind_some, bind_run, count_words typed.length,
    Option.bind_some, bind_run, words_run typed.targets, Option.bind_some]
  rfl

theorem rangeFrom_self (r : AddrRange) : rangeFrom r.start r.stop = some r := dif_pos ⟨r.ordered, r.fits⟩

theorem decodeRange_run (r : AddrRange) (rest : List UInt8) :
    decodeRange (leBytes 8 r.start ++ (leBytes 8 r.stop ++ rest)) = some (r, rest) := by
  have small := r.ordered.trans_lt r.fits
  rw [decodeRange, bind_run, u64_run small, Option.bind_some, bind_run, u64_run r.fits, Option.bind_some]
  exact lift_run (rangeFrom_self r) rest

theorem decodeBlock_run {e : Entry} (keyed : e.at_ = e.block.range.start) (typed : Block.Typed e.block)
    (counted : e.block.successors.length < 2 ^ 32) (rest : List UInt8) :
    decodeBlock (encodeBlock e.block ++ rest) = some (e, rest) := by
  simp only [encodeBlock, List.append_assoc]
  rw [decodeBlock, bind_run, decodeRange_run, Option.bind_some, bind_run, u32_run typed.insns, Option.bind_some, bind_run,
    u8_run (terminatorByte_lt e.block.terminator), Option.bind_some, bind_run,
    lift_run (terminatorFrom_byte e.block.terminator), Option.bind_some, bind_run, bool_run, Option.bind_some, bind_run,
    u32_run counted, Option.bind_some, bind_run, atMost_words, Option.bind_some, bind_run, words_run typed.successors,
    Option.bind_some, ← keyed]
  rfl

/-! ### Sizes -/

def blockSize (b : Block) : ℕ := 26 + 8 * b.successors.length
def tableSize (t : JumpTable) : ℕ := 43 + 8 * t.targets.length

/-- The bytes behind the blocks of a graph. -/
def tailSize (c : Cfg (List Entry)) : ℕ := 10 + 8 * c.calls.length + (c.tables.map tableSize).sum

def blocksSize (c : Cfg (List Entry)) : ℕ := (c.blocks.map fun e => blockSize e.block).sum

def nameSize : Option String → ℕ
  | none => 1
  | some s => 5 + (bytesOf s).length

def functionSize (f : Function (List Entry)) : ℕ :=
  42 + nameSize f.name + f.provenance.corroborating.length + blocksSize f.cfg + tailSize f.cfg

/-- The bytes behind the count of blocks could hold as many of the least size the reader
    takes a block to have. -/
def BlocksFit (c : Cfg (List Entry)) (behind : ℕ) : Prop :=
  Nat.min (c.blocks.length * minBlock) (2 ^ 64 - 1) ≤ blocksSize c + tailSize c + behind

/-- The same for functions one after another, with some bytes behind the last. -/
def FunctionsFit : List (Function (List Entry)) → ℕ → Prop
  | [], _ => True
  | f :: rest, behind => BlocksFit f.cfg ((rest.map functionSize).sum + behind) ∧ FunctionsFit rest behind

theorem length_encodeTable (t : JumpTable) : (encodeTable t).length = tableSize t := by
  simp only [encodeTable, bool_, List.length_append, length_leBytes, length_words, tableSize]
  omega

theorem length_encodeBlock (b : Block) : (encodeBlock b).length = blockSize b := by
  simp only [encodeBlock, bool_, List.length_append, length_leBytes, length_words, blockSize]
  omega

theorem length_bytes_words (l : List ℕ) (n : ℕ) : (leBytes n l.length ++ l.flatMap (leBytes 8)).length = n + l.length * 8 := by
  rw [List.length_append, length_leBytes, length_words]

def readCfg (c : Cfg Blocks) : Cfg (List Entry) := { c with blocks := c.blocks.iter }

theorem length_encodeCfgTail (c : Cfg Blocks) : (encodeCfgTail c).length = tailSize (readCfg c) := by
  have tables : (c.tables.flatMap encodeTable).length = (c.tables.map tableSize).sum := by
    rw [List.length_flatMap, List.map_congr_left fun t _ => length_encodeTable t]
  simp only [encodeCfgTail, bool_, List.length_append, length_leBytes, length_words, tables, tailSize, readCfg]
  omega

theorem length_encodeBlocks (c : Cfg Blocks) :
    (c.blocks.iter.flatMap fun e => encodeBlock e.block).length = blocksSize (readCfg c) := by
  simp only [List.length_flatMap, length_encodeBlock, blocksSize, readCfg]

/-! ### Reading a graph -/

/-- A function whose blocks read, each under its start address, with no more agreeing
    facts than a byte counts. -/
structure Whole (f : Function Blocks) : Prop where
  keyed : ∀ e ∈ f.cfg.blocks.iter, e.at_ = e.block.range.start
  named : f.cfg.blocks.iter.length = f.cfg.blocks.ids.length
  typed : Function.Typed f.read
  corroborating : f.provenance.corroborating.length ≤ 255

theorem decodeBlocks_run {blocks : List Entry} (keyed : ∀ e ∈ blocks, e.at_ = e.block.range.start)
    (typed : ∀ e ∈ blocks, Block.Typed e.block) (counted : ∀ e ∈ blocks, e.block.successors.length < 2 ^ 32)
    (rest : List UInt8) :
    times decodeBlock blocks.length (blocks.flatMap (fun e => encodeBlock e.block) ++ rest) = some (blocks, rest) :=
  times_run (fun e member rest => decodeBlock_run (keyed e member) (typed e member) (counted e member) rest) rest

theorem decodeTables_run {tables : List JumpTable} (typed : ∀ t ∈ tables, JumpTable.Typed t) (rest : List UInt8) :
    times decodeTable tables.length (tables.flatMap encodeTable ++ rest) = some (tables, rest) :=
  times_run (fun t member rest => decodeTable_run (typed t member) rest) rest

theorem atMost_tables (tables : List JumpTable) (rest : List UInt8) :
    atMost tables.length minTable (tables.flatMap encodeTable ++ rest) =
      some ((), tables.flatMap encodeTable ++ rest) := by
  have enough : tables.length * minTable ≤ (tables.flatMap encodeTable).length :=
    length_flatMap_ge fun t _ => by
      rw [length_encodeTable, tableSize, minTable]
      omega
  exact atMost_run (by rw [List.length_append]; omega)

theorem length_behind (c : Cfg Blocks) (rest : List UInt8) :
    (c.blocks.iter.flatMap (fun e => encodeBlock e.block) ++ (encodeCfgTail c ++ rest)).length =
      blocksSize (readCfg c) + tailSize (readCfg c) + rest.length := by
  rw [List.length_append, List.length_append, length_encodeBlocks, length_encodeCfgTail, Nat.add_assoc]

theorem encodeCfg_append (c : Cfg Blocks) (rest : List UInt8) :
    encodeCfg c ++ rest = leBytes 8 c.entry ++ (leBytes 8 c.blocks.ids.length ++
      (c.blocks.iter.flatMap (fun e => encodeBlock e.block) ++ (encodeCfgTail c ++ rest))) := by
  simp only [encodeCfg, List.append_assoc]

theorem decodeCfg_run {c : Cfg Blocks} (keyed : ∀ e ∈ c.blocks.iter, e.at_ = e.block.range.start)
    (named : c.blocks.iter.length = c.blocks.ids.length) (typed : Cfg.Typed (readCfg c))
    (counted : Cfg.Counted (readCfg c)) {rest : List UInt8} (fits : BlocksFit (readCfg c) rest.length) :
    decodeCfg (encodeCfg c ++ rest) = some (readCfg c, rest) := by
  have entry : c.entry < 2 ^ 64 := typed.entry
  have length : c.blocks.iter.length < 2 ^ 64 := typed.length
  have calls : c.calls.length < 2 ^ 32 := counted.calls
  have ntables : c.tables.length < 2 ^ 32 := counted.tables
  have smallCalls : ∀ a ∈ c.calls, a < 2 ^ 64 := typed.calls
  have tables : ∀ t ∈ c.tables, JumpTable.Typed t := typed.tables
  have counts : count minBlock (leBytes 8 c.blocks.iter.length ++
      (c.blocks.iter.flatMap (fun e => encodeBlock e.block) ++ (encodeCfgTail c ++ rest))) =
      some (c.blocks.iter.length, c.blocks.iter.flatMap (fun e => encodeBlock e.block) ++ (encodeCfgTail c ++ rest)) := by
    rw [count, bind_run, u64_run length, Option.bind_some, bind_run,
      atMost_fits (by rw [length_behind]; exact fits), Option.bind_some]
    rfl
  rw [encodeCfg_append, ← named, decodeCfg, bind_run, u64_run entry, Option.bind_some, bind_run, counts,
    Option.bind_some, bind_run, decodeBlocks_run keyed typed.blocks counted.blocks, Option.bind_some]
  simp only [encodeCfgTail, List.append_assoc]
  rw [bind_run, u32_run calls, Option.bind_some, bind_run, atMost_words, Option.bind_some, bind_run,
    words_run smallCalls, Option.bind_some, bind_run, bool_run, Option.bind_some, bind_run, u8_run (haltCode_lt c.halt),
    Option.bind_some, bind_run, lift_run (haltFrom_code c.halt), Option.bind_some, bind_run, u32_run ntables,
    Option.bind_some, bind_run, atMost_tables, Option.bind_some, bind_run, decodeTables_run tables, Option.bind_some]
  rfl

/-- A count of blocks that is too large for what follows is refused. -/
theorem decodeCfg_none {c : Cfg Blocks} (named : c.blocks.iter.length = c.blocks.ids.length)
    (typed : Cfg.Typed (readCfg c)) {rest : List UInt8} (large : ¬BlocksFit (readCfg c) rest.length) :
    decodeCfg (encodeCfg c ++ rest) = none := by
  have entry : c.entry < 2 ^ 64 := typed.entry
  have length : c.blocks.iter.length < 2 ^ 64 := typed.length
  rw [encodeCfg_append, ← named, decodeCfg, bind_run, u64_run entry, Option.bind_some, bind_run, count, bind_run,
    u64_run length, Option.bind_some, bind_run, atMost_none (by rw [length_behind]; exact large)]
  rfl

/-! ### Reading functions -/

theorem encodeFunction_append (f : Function Blocks) (rest : List UInt8) :
    encodeFunction f ++ rest = leBytes 8 f.entry ++ (optStr_ f.name ++ (leBytes 8 f.range.start ++
      (leBytes 8 f.range.stop ++ (encodeProvenance f.provenance ++ (encodeCfg f.cfg ++ rest))))) := by
  simp only [encodeFunction, List.append_assoc]

variable {f : Function Blocks}

theorem decodeFunction_eq (whole : Whole f) (name : ∀ s ∈ f.name, (bytesOf s).length < 2 ^ 32) (rest : List UInt8) :
    decodeFunction (encodeFunction f ++ rest) = (decodeCfg (encodeCfg f.cfg ++ rest)).map fun r =>
      (⟨f.entry, f.name, f.range, r.1, f.provenance⟩, r.2) := by
  have entry : f.entry < 2 ^ 64 := whole.typed.entry
  rw [encodeFunction_append, decodeFunction, bind_run, u64_run entry, Option.bind_some, bind_run,
    optStr_run name, Option.bind_some, bind_run, decodeRange_run, Option.bind_some, bind_run,
    decodeProvenance_run whole.corroborating, Option.bind_some, bind_run]
  cases decodeCfg (encodeCfg f.cfg ++ rest) with
  | none => rfl
  | some r => rfl

theorem decodeFunction_run (whole : Whole f) (counted : Function.Counted f.read) {rest : List UInt8}
    (fits : BlocksFit f.read.cfg rest.length) : decodeFunction (encodeFunction f ++ rest) = some (f.read, rest) := by
  rw [decodeFunction_eq whole counted.name, decodeCfg_run whole.keyed whole.named whole.typed.cfg counted.cfg fits]
  rfl

theorem decodeFunction_none (whole : Whole f) (counted : Function.Counted f.read) {rest : List UInt8}
    (large : ¬BlocksFit f.read.cfg rest.length) : decodeFunction (encodeFunction f ++ rest) = none := by
  rw [decodeFunction_eq whole counted.name, decodeCfg_none whole.named whole.typed.cfg large]
  rfl

theorem length_optStr (s : Option String) : (optStr_ s).length = nameSize s := by
  cases s with
  | none => rfl
  | some s =>
    simp only [optStr_, str_, List.length_append, length_leBytes, nameSize]
    omega

theorem length_encodeFunction (whole : Whole f) : (encodeFunction f).length = functionSize f.read := by
  have provenance : (encodeProvenance f.provenance).length = 2 + f.provenance.corroborating.length := by
    have codes : ∀ l : List Evidence, (l.flatMap fun e => leBytes 1 (evidenceCode e)).length = l.length := by
      intro l
      induction l with
      | nil => rfl
      | cons e l ih => rw [List.flatMap_cons, List.length_append, ih, length_leBytes, List.length_cons, Nat.add_comm]
    rw [encodeProvenance, List.take_of_length_le whole.corroborating, List.length_append, List.length_append, codes,
      length_leBytes, length_leBytes]
  have cfg : (encodeCfg f.cfg).length = 16 + blocksSize f.read.cfg + tailSize f.read.cfg := by
    have parts := length_behind f.cfg []
    rw [List.append_nil, List.length_nil] at parts
    rw [encodeCfg, List.length_append, List.length_append, length_leBytes, length_leBytes, parts]
    show 8 + (8 + (blocksSize f.read.cfg + tailSize f.read.cfg + 0)) = _
    omega
  simp only [encodeFunction, List.length_append, length_leBytes, length_optStr, provenance, cfg, functionSize]
  show 8 + (nameSize f.name + (8 + (8 + (2 + f.provenance.corroborating.length +
    (16 + blocksSize f.read.cfg + tailSize f.read.cfg))))) =
    42 + nameSize f.name + f.provenance.corroborating.length + blocksSize f.read.cfg + tailSize f.read.cfg
  omega

theorem length_encodeAll {functions : List (Function Blocks)} (whole : ∀ f ∈ functions, Whole f) :
    (functions.flatMap encodeFunction).length = ((functions.map Function.read).map functionSize).sum := by
  rw [List.length_flatMap, List.map_map]
  exact congrArg List.sum (List.map_congr_left fun f member => length_encodeFunction (whole f member))

/-- Functions whose parts are counted read back exactly when their blocks fit. -/
theorem decodeAll_iff {functions : List (Function Blocks)} (whole : ∀ f ∈ functions, Whole f)
    (counted : ∀ f ∈ functions, Function.Counted f.read) (rest : List UInt8) :
    (FunctionsFit (functions.map Function.read) rest.length ∧
      times decodeFunction functions.length (functions.flatMap encodeFunction ++ rest) =
        some (functions.map Function.read, rest)) ∨
    (¬FunctionsFit (functions.map Function.read) rest.length ∧
      times decodeFunction functions.length (functions.flatMap encodeFunction ++ rest) = none) := by
  induction functions with
  | nil => exact .inl ⟨trivial, rfl⟩
  | cons f functions ih =>
    have wholeF := whole f List.mem_cons_self
    have countedF := counted f List.mem_cons_self
    have length : (functions.flatMap encodeFunction ++ rest).length =
        ((functions.map Function.read).map functionSize).sum + rest.length := by
      rw [List.length_append, length_encodeAll fun g member => whole g (List.mem_cons_of_mem _ member)]
    rw [List.length_cons, times, List.flatMap_cons, List.append_assoc, bind_run, List.map_cons, FunctionsFit, ← length]
    by_cases fits : BlocksFit f.read.cfg (functions.flatMap encodeFunction ++ rest).length
    · rw [decodeFunction_run wholeF countedF fits, Option.bind_some, bind_run]
      rcases ih (fun g member => whole g (List.mem_cons_of_mem _ member))
        (fun g member => counted g (List.mem_cons_of_mem _ member)) with ⟨later, reads⟩ | ⟨later, fails⟩
      · exact .inl ⟨⟨fits, later⟩, by rw [reads]; rfl⟩
      · exact .inr ⟨fun both => later both.2, by rw [fails]; rfl⟩
    · rw [decodeFunction_none wholeF countedF fits]
      exact .inr ⟨fun both => fits both.1, rfl⟩

/-! ### What decoders give -/

theorem gives_block : Gives decodeBlock fun e => e.block.successors.length < 2 ^ 32 := by
  refine (Gives.any _).bind fun range _ => (Gives.any _).bind fun insns _ => (Gives.any _).bind fun code _ =>
    (Gives.any _).bind fun terminator _ => (Gives.any _).bind fun unresolved _ => gives_u32.bind fun n small =>
    (Gives.any _).bind fun _ _ => (gives_times (Gives.any u64) n).bind fun successors length => .pure ?_
  show successors.length < 2 ^ 32
  rw [length.1]
  exact small

theorem gives_cfg : Gives decodeCfg Cfg.Counted := by
  refine (Gives.any _).bind fun entry _ => (Gives.any _).bind fun n _ => (gives_times gives_block n).bind fun blocks short =>
    gives_u32.bind fun ncalls smallCalls => (Gives.any _).bind fun _ _ => (gives_times (Gives.any u64) ncalls).bind
    fun calls lengthCalls => (Gives.any _).bind fun hasIndirect _ => (Gives.any _).bind fun code _ =>
    (Gives.any _).bind fun halt _ => gives_u32.bind fun ntables smallTables => (Gives.any _).bind fun _ _ =>
    (gives_times (Gives.any decodeTable) ntables).bind fun tables lengthTables => .pure ⟨short.2, ?_, ?_⟩
  · show calls.length < 2 ^ 32
    rw [lengthCalls.1]
    exact smallCalls
  · show tables.length < 2 ^ 32
    rw [lengthTables.1]
    exact smallTables

theorem gives_function : Gives decodeFunction Function.Counted :=
  (Gives.any _).bind fun _ _ => gives_optStr.bind fun _ short => (Gives.any _).bind fun _ _ => (Gives.any _).bind fun _ _ =>
    gives_cfg.bind fun _ counted => .pure ⟨short, counted⟩

theorem gives_parts : Gives decodeParts fun r => ∀ f ∈ r.2.1, Function.Counted f :=
  (Gives.any _).bind fun _ _ => (Gives.any _).bind fun n _ => (gives_times gives_function n).bind fun _ counted =>
    (Gives.any _).bind fun _ _ => (Gives.any _).bind fun _ _ => (Gives.any _).bind fun _ _ => .pure counted.2

/-! ### Interning whatever was read -/

/-- The index has a vacant slot, and the entries are of one kind. -/
structure Room (kind : Entry → Prop) (s : Interner) : Prop where
  size : ∃ k, s.slots.length = 2 ^ k
  occupied : (s.slots.filter fun id => decide (id ≠ noId)).length ≤ s.filled
  load : s.filled * 4 < s.slots.length * 3
  entries : ∀ e ∈ s.entries, kind e

variable {kind : Entry → Prop} {s : Interner}

theorem room_default : Room kind .default := by
  have slots : Interner.default.slots.length = 1024 := List.length_replicate
  have empty : Indexed noId (fun _ => 0) (List.replicate 1024 noId) [] := indexed_vacant 1024
  have vacant := empty.held.length_eq
  refine ⟨⟨10, slots.trans (by decide)⟩, vacant.le, ?_, fun e member => by cases member⟩
  rw [slots]
  decide

theorem occupied_set (slots : List ℕ) (i id : ℕ) :
    ((slots.set i id).filter fun id => decide (id ≠ noId)).length ≤
      (slots.filter fun id => decide (id ≠ noId)).length + 1 := by
  induction slots generalizing i with
  | nil => exact Nat.zero_le _
  | cons first rest ih =>
    cases i with
    | zero =>
      rw [List.set_cons_zero, List.filter_cons, List.filter_cons]
      split <;> split
      all_goals try simp only [List.length_cons]
      all_goals omega
    | succ i =>
      rw [List.set_cons_succ, List.filter_cons, List.filter_cons]
      have later := ih i
      split
      · rw [List.length_cons, List.length_cons]
        omega
      · exact later

theorem Room.grow (room : Room kind s) :
    ∃ slots, s.grow = some { s with slots } ∧ slots.length = s.slots.length * 2 ∧ Room kind { s with slots } := by
  obtain ⟨k, size⟩ := room.size
  have occupied := room.occupied
  have load := room.load
  generalize entered : (s.slots.filter fun id => decide (id ≠ noId) && (s.entry id).isSome) = ids
  have few : ids.length ≤ (s.slots.filter fun id => decide (id ≠ noId)).length := by
    rw [← entered, ← List.countP_eq_length_filter, ← List.countP_eq_length_filter]
    refine List.countP_mono_left fun id _ both => ?_
    rw [Bool.and_eq_true] at both
    exact both.1
  have length : (List.replicate (s.slots.length * 2) noId).length = 2 ^ (k + 1) := by
    rw [List.length_replicate, size, Nat.pow_succ]
  have fresh : noId ∉ ids := by
    intro member
    rw [← entered] at member
    simpa using (List.mem_filter.mp member).2
  have fits : ([] : List ℕ).length + ids.length ≤ (List.replicate (s.slots.length * 2) noId).length := by
    rw [List.length_replicate, List.length_nil]
    omega
  have empty : Indexed noId s.hashId (List.replicate (s.slots.length * 2) noId) [] := indexed_vacant _
  obtain ⟨slots, ends, length', indexed⟩ := enterAll_indexed length empty fits List.not_mem_nil fresh
  rw [List.length_replicate] at length'
  have held := indexed.held.length_eq
  rw [List.append_nil, List.length_reverse] at held
  refine ⟨slots, ?_, length', ⟨k + 1, ?_⟩, ?_, ?_, room.entries⟩
  · rw [Interner.grow, entered, ends]
    rfl
  · show slots.length = 2 ^ (k + 1)
    rw [length', size, Nat.pow_succ]
  · show (slots.filter fun id => decide (id ≠ noId)).length ≤ s.filled
    omega
  · show s.filled * 4 < slots.length * 3
    omega

theorem Room.intern (room : Room kind s) {e : Entry} (holds : kind e) :
    ∃ id s', s.intern e = some (id, s') ∧ Room kind s' := by
  obtain ⟨t, grown, roomT, loadT⟩ : ∃ t : Interner,
      (if s.slots.length * 3 ≤ (s.filled + 1) * 4 then s.grow else some s) = some t ∧ Room kind t ∧
        (t.filled + 1) * 4 < t.slots.length * 3 := by
    have load := room.load
    by_cases full : s.slots.length * 3 ≤ (s.filled + 1) * 4
    · obtain ⟨slots, grows, length, room'⟩ := room.grow
      refine ⟨{ s with slots }, by rw [if_pos full, grows], room', ?_⟩
      show (s.filled + 1) * 4 < slots.length * 3
      rcases Nat.lt_or_ge s.slots.length 2 with few | many
      · have none_ : s.filled = 0 := by omega
        omega
      · omega
    · exact ⟨s, if_neg full, room, Nat.not_le.mp full⟩
  obtain ⟨k, size⟩ := roomT.size
  have occupied := roomT.occupied
  have vacant := exists_vacant (List.Perm.refl (t.slots.filter fun id => decide (id ≠ noId))) (by omega)
  obtain ⟨d, p, stops, -⟩ := walk_stops size vacant (fun id => decide (t.entry id = some e)) (hashBlock e).toNat
  refine ⟨(t.settle e p).1, (t.settle e p).2, ?_, ?_⟩
  · rw [Interner.intern, grown]
    simp only [Option.bind_eq_bind, Option.bind_some, stops]
  · cases p with
    | found id => exact roomT
    | vacant i =>
      refine ⟨⟨k, ?_⟩, ?_, ?_, ?_⟩
      · show (t.slots.set i _).length = _
        rw [List.length_set, size]
      · exact (occupied_set t.slots i _).trans (Nat.succ_le_succ occupied)
      · show (t.filled + 1) * 4 < (t.slots.set i _).length * 3
        rw [List.length_set]
        exact loadT
      · intro x member
        rw [show Interner.entries _ = t.entries ++ [e] from (List.append_assoc _ _ _).symm] at member
        rcases List.mem_append.mp member with old | new
        · exact roomT.entries x old
        · rw [List.mem_singleton.mp new]
          exact holds

theorem Room.internAll {blocks : List Entry} (room : Room kind s) (holds : ∀ e ∈ blocks, kind e) :
    ∃ ids s', s.internAll blocks = some (ids, s') ∧ Room kind s' := by
  induction blocks generalizing s with
  | nil => exact ⟨[], s, rfl, room⟩
  | cons e rest ih =>
    obtain ⟨id, t, first, roomT⟩ := room.intern (holds e List.mem_cons_self)
    obtain ⟨ids, s', later, room'⟩ := ih roomT fun x member => holds x (List.mem_cons_of_mem _ member)
    refine ⟨id :: ids, s', ?_, room'⟩
    rw [Interner.internAll, first]
    simp only [Option.bind_eq_bind, Option.bind_some, later]

theorem Room.installAll {functions : List (Function (List Entry))} (room : Room kind s)
    (holds : ∀ f ∈ functions, ∀ e ∈ f.cfg.blocks, kind e) :
    ∃ out s', installAll s functions = some (out, s') ∧ Room kind s' ∧
      ∀ g ∈ out, ∃ f ∈ functions, ∃ blocks : Blocks, g = f.map blocks := by
  induction functions generalizing s with
  | nil => exact ⟨[], s, rfl, room, fun g member => by cases member⟩
  | cons f rest ih =>
    obtain ⟨ids, t, first, roomT⟩ := room.internAll (holds f List.mem_cons_self)
    obtain ⟨out, s', later, room', shape⟩ := ih roomT fun g member => holds g (List.mem_cons_of_mem _ member)
    refine ⟨f.map ⟨.empty, ids⟩ :: out, s', ?_, room', ?_⟩
    · rw [CacheCodec.installAll, Interner.install, first]
      simp only [Option.bind_eq_bind, Option.bind_some, later]
    · intro g member
      rcases List.mem_cons.mp member with rfl | old
      · exact ⟨f, List.mem_cons_self, _, rfl⟩
      · obtain ⟨f', inside, blocks, same⟩ := shape g old
        exact ⟨f', List.mem_cons_of_mem _ inside, blocks, same⟩

theorem mem_of_chunkEntry {chunks : List (List Entry)} {starts : List ℕ} {id : ℕ} {e : Entry}
    (here : chunkEntry chunks starts id = some e) : e ∈ chunks.flatten := by
  rw [chunkEntry] at here
  split at here
  · cases here
  · obtain ⟨chunk, inside, place⟩ := Option.bind_eq_some_iff.mp here
    exact List.mem_flatten.mpr ⟨chunk, List.mem_of_getElem? inside, List.mem_of_getElem? place⟩

theorem Room.sealed (room : Room kind s) : ∀ e ∈ s.seal_.1.chunks.flatten, kind e := by
  intro e member
  refine room.entries e ?_
  rw [Interner.seal_] at member
  split at member
  · exact List.mem_append_left _ member
  · rwa [List.flatten_append, List.flatten_singleton] at member

theorem mem_insertKey {α : Type} {key : α → ℕ} {a b : α} {l : List α} (member : b ∈ insertKey key a l) :
    b = a ∨ b ∈ l := by
  induction l with
  | nil => exact .inl (List.mem_singleton.mp member)
  | cons first rest ih =>
    rw [insertKey] at member
    split at member
    · exact List.mem_cons.mp member
    · split at member
      · exact (List.mem_cons.mp member).imp_right (List.mem_cons_of_mem _)
      · rcases List.mem_cons.mp member with rfl | later
        · exact .inr List.mem_cons_self
        · exact (ih later).imp_right (List.mem_cons_of_mem _)

theorem mem_foldl_insertKey {α : Type} {key : α → ℕ} {b : α} {l acc : List α}
    (member : b ∈ l.foldl (fun m a => insertKey key a m) acc) : b ∈ l ∨ b ∈ acc := by
  induction l generalizing acc with
  | nil => exact .inr member
  | cons first rest ih =>
    rcases ih member with later | now
    · exact .inl (List.mem_cons_of_mem _ later)
    · rcases mem_insertKey now with rfl | old
      · exact .inl List.mem_cons_self
      · exact .inr old

/-- Whatever functions are put over one table, this ends, and counted parts stay counted. -/
theorem assemble_returns {functions : List (Function (List Entry))} (counted : ∀ f ∈ functions, Function.Counted f) :
    ∃ out, assemble functions = some out ∧ ∀ g ∈ out, Function.Counted g.read := by
  have start : Room (fun e => e.block.successors.length < 2 ^ 32) .default := room_default
  obtain ⟨installed, s, ends, room, shape⟩ := start.installAll fun f member => (counted f member).cfg.blocks
  rw [assemble, ends]
  refine ⟨_, rfl, fun g member => ?_⟩
  obtain ⟨g', kept, rfl⟩ := List.mem_map.mp member
  have old := (mem_foldl_insertKey kept).resolve_right List.not_mem_nil
  obtain ⟨f, inside, blocks, rfl⟩ := shape g' old
  have countedF := counted f inside
  refine ⟨countedF.name, fun e read => ?_, countedF.cfg.calls, countedF.cfg.tables⟩
  obtain ⟨id, -, named⟩ := List.mem_filterMap.mp read
  exact room.sealed e (mem_of_chunkEntry named)

/-! ### Functions in one table -/

theorem insertKey_last {α : Type} {key : α → ℕ} {a : α} {l : List α} (above : ∀ b ∈ l, key b < key a) :
    insertKey key a l = l ++ [a] := by
  induction l with
  | nil => rfl
  | cons b rest ih =>
    have less := above b List.mem_cons_self
    rw [insertKey, if_neg (Nat.lt_asymm less), if_neg (Nat.ne_of_gt less),
      ih fun c member => above c (List.mem_cons_of_mem _ member)]
    rfl

/-- What is in order already is kept as it is. -/
theorem foldl_insertKey {α : Type} {key : α → ℕ} {l acc : List α} (ordered : (acc ++ l).Pairwise fun a b => key a < key b) :
    l.foldl (fun m a => insertKey key a m) acc = acc ++ l := by
  induction l generalizing acc with
  | nil => rw [List.foldl_nil, List.append_nil]
  | cons a rest ih =>
    have above : ∀ b ∈ acc, key b < key a := fun b member =>
      (List.pairwise_append.mp ordered).2.2 b member a List.mem_cons_self
    have joined : acc ++ a :: rest = acc ++ [a] ++ rest := by rw [List.append_assoc, List.singleton_append]
    rw [List.foldl_cons, insertKey_last above, ih (by rwa [← joined]), joined]

/-- A function that was installed: ids in place of its blocks, which name them. -/
def Installed (entries : List Entry) (g : Function Blocks) (f : Function (List Entry)) : Prop :=
  ∃ ids, g = f.map ⟨.empty, ids⟩ ∧ Names entries ids f.cfg.blocks

theorem installAll_names {all : Finset Entry} (few : all.card < 2 ^ 32) {functions : List (Function (List Entry))}
    (sound : Sound s) (within : ∀ e ∈ s.entries, e ∈ all) (inside : ∀ f ∈ functions, ∀ e ∈ f.cfg.blocks, e ∈ all) :
    ∃ out s', installAll s functions = some (out, s') ∧ Sound s' ∧ s.entries <+: s'.entries ∧
      List.Forall₂ (Installed s'.entries) out functions := by
  induction functions generalizing s with
  | nil => exact ⟨[], s, rfl, sound, List.prefix_rfl, .nil⟩
  | cons f rest ih =>
    obtain ⟨ids, t, first, soundT, front, withinT, names⟩ :=
      sound.internAll few f.cfg.blocks within (inside f List.mem_cons_self)
    obtain ⟨out, s', later, sound', front', installed⟩ := ih soundT withinT
      fun g member => inside g (List.mem_cons_of_mem _ member)
    refine ⟨f.map ⟨.empty, ids⟩ :: out, s', ?_, sound', front.trans front', .cons ⟨ids, rfl, names.mono front'⟩ installed⟩
    rw [CacheCodec.installAll, Interner.install, first]
    simp only [Option.bind_eq_bind, Option.bind_some, later]

theorem assemble_reads {functions : List (Function (List Entry))}
    (few : (functions.flatMap fun f => f.cfg.blocks).toFinset.card < 2 ^ 32)
    (ordered : functions.Pairwise fun f g => f.entry < g.entry) :
    ∃ out, assemble functions = some out ∧ out.map Function.read = functions := by
  obtain ⟨installed, s, ends, sound, -, names⟩ := installAll_names few sound_default
    (fun e member => by cases member)
    (fun f member e inside => List.mem_toFinset.mpr (List.mem_flatMap.mpr ⟨f, member, inside⟩))
  obtain ⟨-, -, starts, flat⟩ := sound.seal_
  have entries : installed.map Function.entry = functions.map Function.entry := by
    clear ends ordered few
    induction names with
    | nil => rfl
    | cons here _ ih =>
      obtain ⟨ids, rfl, -⟩ := here
      rw [List.map_cons, ih]
      rfl
  have kept : installed.foldl (fun m f => insertKey Function.entry f m) [] = installed := by
    refine foldl_insertKey ?_
    rw [List.nil_append]
    have order : (functions.map Function.entry).Pairwise (· < ·) := List.pairwise_map.mpr ordered
    rw [← entries] at order
    exact List.pairwise_map.mp order
  rw [assemble, ends]
  refine ⟨_, rfl, ?_⟩
  show ((installed.foldl (fun m f => insertKey Function.entry f m) []).map _).map Function.read = functions
  rw [kept]
  clear kept entries ends ordered few
  induction names with
  | nil => rfl
  | cons here _ ih =>
    obtain ⟨ids, rfl, names⟩ := here
    rw [List.map_cons, List.map_cons, ih]
    refine congrArg (· :: _) ?_
    rename_i f _ _ _
    have blocks : Blocks.iter ⟨s.seal_.1, ids⟩ = f.cfg.blocks := iter_eq starts (by rw [flat]; exact names)
    show Function.map _ (Blocks.iter ⟨s.seal_.1, ids⟩) = f
    rw [blocks]
    rfl

/-! ### Cross references and strings -/

theorem dedup_distinct {α : Type} [DecidableEq α] (l : List α) : (dedup l).IsChain (· ≠ ·) := by
  induction l with
  | nil => exact .nil
  | cons a rest ih =>
    cases rest with
    | nil => exact .singleton a
    | cons b rest =>
      rw [dedup]
      split
      · exact ih
      · next different =>
        refine List.isChain_cons.mpr ⟨fun c first => ?_, ih⟩
        -- What is kept of a list begins as the list does.
        have front : ∀ (b : α) (l : List α), (dedup (b :: l)).head? = some b := by
          intro b l
          induction l generalizing b with
          | nil => rfl
          | cons d l ih =>
            rw [dedup]
            split
            · next same => rw [same, ih]
            · rfl
        rw [front] at first
        rw [← Option.some.inj first]
        exact different

theorem dedup_of_distinct {α : Type} [DecidableEq α] {l : List α} (distinct : l.IsChain (· ≠ ·)) : dedup l = l := by
  induction l with
  | nil => rfl
  | cons a rest ih =>
    cases rest with
    | nil => rfl
    | cons b rest =>
      obtain ⟨different, chain⟩ := List.isChain_cons_cons.mp distinct
      rw [dedup, if_neg different, ih chain]

theorem sortByKey_of_sorted {α κ : Type} [LinearOrder κ] {key : α → κ} {l : List α} (sorted : Sorted key l) :
    sortByKey key l = l :=
  List.mergeSort_of_pairwise (sorted.imp fun below => decide_eq_true below)

/-- An index is the one of its references in order. -/
theorem build_byFrom (refs : List Xref) : XrefIndex.build (XrefIndex.build refs).byFrom = XrefIndex.build refs := by
  have sorted : Sorted Xref.fromKey (dedup (sortByKey Xref.fromKey refs)) :=
    List.Pairwise.sublist (DataRegions.dedup_sublist _) (sortByKey_sorted Xref.fromKey refs)
  have again : dedup (sortByKey Xref.fromKey (dedup (sortByKey Xref.fromKey refs))) =
      dedup (sortByKey Xref.fromKey refs) := by
    rw [sortByKey_of_sorted sorted, dedup_of_distinct (dedup_distinct _)]
  simp only [XrefIndex.build, again]

def Xref.Typed (x : Xref) : Prop := x.source < 2 ^ 64 ∧ x.target < 2 ^ 64

theorem decodeXref_run {x : Xref} (typed : Xref.Typed x) (rest : List UInt8) :
    decodeXref (encodeXref x ++ rest) = some (x, rest) := by
  simp only [encodeXref, List.append_assoc]
  rw [decodeXref, bind_run, u64_run typed.1, Option.bind_some, bind_run, u64_run typed.2, Option.bind_some, bind_run,
    u8_run (xrefKindCode_lt x.kind), Option.bind_some, bind_run, lift_run (xrefKindFrom_code x.kind), Option.bind_some]
  rfl

/-- Every index reads back. -/
theorem xrefs_round_trip {refs : List Xref} (typed : ∀ x ∈ (XrefIndex.build refs).byFrom, Xref.Typed x)
    (length : (XrefIndex.build refs).byFrom.length < 2 ^ 64) :
    decodeXrefs (encodeXrefs (XrefIndex.build refs)) = some (XrefIndex.build refs) := by
  have same := build_byFrom refs
  have byFrom := congrArg XrefIndex.byFrom same
  generalize (XrefIndex.build refs).byFrom = sorted at typed length same byFrom
  have enough : sorted.length * Nat.max minXref 1 ≤ (sorted.flatMap encodeXref).length :=
    length_flatMap_ge fun x _ => by
      simp only [encodeXref, List.length_append, length_leBytes]
      decide
  have reads := times_run (fun x member rest => decodeXref_run (typed x member) rest) []
  rw [List.append_nil] at reads
  rw [← same, encodeXrefs, byFrom, decodeXrefs, decodeXrefList, bind_run, count_run length enough, Option.bind_some, bind_run, reads,
    Option.bind_some]
  rfl

structure Found.Typed (f : Found) : Prop where
  addr : f.addr < 2 ^ 64
  len : f.len < 2 ^ 64

theorem decodeFound_run {f : Found} (typed : Found.Typed f) (short : (bytesOf f.text).length < 2 ^ 32)
    (rest : List UInt8) : decodeFound (encodeFound f ++ rest) = some (f, rest) := by
  simp only [encodeFound, List.append_assoc]
  rw [decodeFound, bind_run, u64_run typed.addr, Option.bind_some, bind_run, u64_run typed.len, Option.bind_some, bind_run,
    u8_run (encodingCode_lt f.encoding), Option.bind_some, bind_run, lift_run (encodingFrom_code f.encoding),
    Option.bind_some, bind_run, str_run short, Option.bind_some]
  rfl

theorem gives_foundList : Gives decodeFoundList fun l => ∀ f ∈ l, (bytesOf f.text).length < 2 ^ 32 := by
  have one : Gives decodeFound fun f => (bytesOf f.text).length < 2 ^ 32 :=
    (Gives.any _).bind fun _ _ => (Gives.any _).bind fun _ _ => (Gives.any _).bind fun _ _ => (Gives.any _).bind fun _ _ =>
      gives_str.bind fun _ short => .pure short
  exact (Gives.any _).bind fun n _ => (gives_times one n).bind fun _ short => (Gives.any _).bind fun _ _ => .pure short.2

theorem strings_iff {found : List Found} (typed : ∀ f ∈ found, Found.Typed f) (length : found.length < 2 ^ 64) :
    decodeStrings (encodeStrings found) = some found ↔ ∀ f ∈ found, (bytesOf f.text).length < 2 ^ 32 := by
  constructor
  · intro reads
    obtain ⟨⟨list, rest⟩, here, rfl⟩ := Option.map_eq_some_iff.mp reads
    exact gives_foundList _ _ _ here
  · intro short
    have enough : found.length * Nat.max minString 1 ≤ (found.flatMap encodeFound).length :=
      length_flatMap_ge fun f _ => by
        simp only [encodeFound, str_, List.length_append, length_leBytes]
        have value : Nat.max minString 1 = 21 := by decide
        omega
    have reads := times_run (fun f member rest => decodeFound_run (typed f member) (short f member) rest) []
    rw [List.append_nil] at reads
    rw [encodeStrings, decodeStrings, decodeFoundList, bind_run, count_run length enough, Option.bind_some, bind_run, reads,
      Option.bind_some]
    rfl

/-! ### The whole cache -/

/-- What an analysis leaves to be cached: functions in the order of their entries over one
    table of blocks, a set of addresses in order, and a count. -/
structure Analysed (functions : List (Function Blocks)) (noreturn : List ℕ) (rounds : ℕ) : Prop where
  whole : ∀ f ∈ functions, Whole f
  ordered : functions.Pairwise fun f g => f.entry < g.entry
  count : functions.length < 2 ^ 64
  table : (functions.flatMap fun f => f.cfg.blocks.iter).toFinset.card < 2 ^ 32
  sorted : noreturn.Pairwise (· < ·)
  addresses : ∀ a ∈ noreturn, a < 2 ^ 64
  size : noreturn.length < 2 ^ 64
  rounds : rounds < 2 ^ 64

/-- The names, successors, calls and tables of every function have lengths of 32 bits, and
    behind every count of blocks stands as much as the least size allows for. -/
def Fits (functions : List (Function Blocks)) (noreturn : List ℕ) : Prop :=
  (∀ f ∈ functions, Function.Counted f.read) ∧
    FunctionsFit (functions.map Function.read) (8 + 8 * noreturn.length)

/-- The same functions, set and count come back. -/
def RoundTrips (functions : List (Function Blocks)) (noreturn : List ℕ) (rounds : ℕ) : Prop :=
  ∃ functions', decodeFunctions (encodeFunctions functions noreturn rounds) = some (some (functions', noreturn, rounds)) ∧
    functions'.map Function.read = functions.map Function.read

theorem decodeFunctions_returns (bytes : List UInt8) : decodeFunctions bytes ≠ none := by
  rw [decodeFunctions]
  split
  · exact fun impossible => by cases impossible
  · next rounds functions noreturn rest parts =>
    obtain ⟨out, ends, -⟩ := assemble_returns (gives_parts bytes _ rest parts)
    rw [ends]
    exact fun impossible => by cases impossible

theorem functions_iff {functions : List (Function Blocks)} {noreturn : List ℕ} {rounds : ℕ}
    (analysed : Analysed functions noreturn rounds) :
    RoundTrips functions noreturn rounds ↔ Fits functions noreturn := by
  have behind : (leBytes 8 noreturn.length ++ noreturn.flatMap (leBytes 8)).length = 8 + 8 * noreturn.length := by
    rw [length_bytes_words, Nat.mul_comm]
  -- The count of functions is never refused.
  have counts : count minFunction (leBytes 8 functions.length ++ (functions.flatMap encodeFunction ++
      (leBytes 8 noreturn.length ++ noreturn.flatMap (leBytes 8)))) = some (functions.length,
        functions.flatMap encodeFunction ++ (leBytes 8 noreturn.length ++ noreturn.flatMap (leBytes 8))) := by
    refine count_run analysed.count ?_
    have enough : functions.length * Nat.max minFunction 1 ≤ (functions.flatMap encodeFunction).length :=
      length_flatMap_ge fun f member => by
        have value : Nat.max minFunction 1 = 52 := by decide
        have named : 1 ≤ nameSize f.read.name := by
          cases f.read.name with
          | none => exact le_rfl
          | some s => exact Nat.le_add_right_of_le (by decide)
        rw [value, length_encodeFunction (analysed.whole f member), functionSize, tailSize]
        omega
    rw [List.length_append]
    omega
  have parts : decodeParts (encodeFunctions functions noreturn rounds) = (times decodeFunction functions.length
      (functions.flatMap encodeFunction ++ (leBytes 8 noreturn.length ++ noreturn.flatMap (leBytes 8)))).bind fun r =>
        (do
          let n ← count 8
          let noreturn ← times u64 n
          ended
          pure (rounds, r.1, noreturn) : Dec _) r.2 := by
    rw [encodeFunctions, decodeParts, bind_run, u64_run analysed.rounds, Option.bind_some, bind_run, counts,
      Option.bind_some, bind_run]
  have last := count_words analysed.size []
  have words := words_run analysed.addresses []
  rw [List.append_nil] at last words
  constructor
  · rintro ⟨functions', reads, same⟩
    rw [decodeFunctions] at reads
    split at reads
    · cases reads
    · next rounds' raw noreturn' rest here =>
      obtain ⟨out, ends, countedOut⟩ := assemble_returns (gives_parts _ _ rest here)
      rw [ends] at reads
      obtain ⟨rfl, -⟩ := Prod.mk.inj (Option.some.inj (Option.some.inj reads))
      have counted : ∀ f ∈ functions, Function.Counted f.read := by
        intro f member
        have inside : f.read ∈ out.map Function.read := by
          rw [same]
          exact List.mem_map_of_mem member
        obtain ⟨g, old, equal⟩ := List.mem_map.mp inside
        exact equal ▸ countedOut g old
      refine ⟨counted, ?_⟩
      rcases decodeAll_iff analysed.whole counted (leBytes 8 noreturn.length ++ noreturn.flatMap (leBytes 8)) with
        ⟨fits, -⟩ | ⟨-, fails⟩
      · rwa [behind] at fits
      · rw [parts, fails] at here
        cases here
  · rintro ⟨counted, fits⟩
    rw [← behind] at fits
    rcases decodeAll_iff analysed.whole counted (leBytes 8 noreturn.length ++ noreturn.flatMap (leBytes 8)) with
      ⟨-, reads⟩ | ⟨large, -⟩
    · have whole : decodeParts (encodeFunctions functions noreturn rounds) =
          some ((rounds, functions.map Function.read, noreturn), []) := by
        rw [parts, reads, Option.bind_some, bind_run, last, Option.bind_some, bind_run, words, Option.bind_some]
        rfl
      have few : ((functions.map Function.read).flatMap fun f => f.cfg.blocks).toFinset.card < 2 ^ 32 := by
        rw [List.flatMap_map]
        exact analysed.table
      have ordered : (functions.map Function.read).Pairwise fun f g => f.entry < g.entry :=
        List.pairwise_map.mpr analysed.ordered
      obtain ⟨out, ends, same⟩ := assemble_reads few ordered
      refine ⟨out, ?_, same⟩
      have kept : noreturn.foldl (fun m a => insertKey id a m) [] = noreturn := foldl_insertKey analysed.sorted
      rw [decodeFunctions, whole]
      show (assemble (functions.map Function.read)).map _ = _
      rw [ends, Option.map_some, kept]
    · exact absurd fits large

/-- What an analysis left reads back exactly when it fits, every index does, strings do
    when their lengths fit, and no byte string keeps a decoder from returning. -/
theorem cache_iff (functions : List (Function Blocks)) (noreturn : List ℕ) (rounds : ℕ) (refs : List Xref)
    (found : List Found) (bytes : List UInt8) :
    (Analysed functions noreturn rounds → (RoundTrips functions noreturn rounds ↔ Fits functions noreturn)) ∧
    ((∀ x ∈ (XrefIndex.build refs).byFrom, Xref.Typed x) → (XrefIndex.build refs).byFrom.length < 2 ^ 64 →
      decodeXrefs (encodeXrefs (XrefIndex.build refs)) = some (XrefIndex.build refs)) ∧
    ((∀ f ∈ found, Found.Typed f) → found.length < 2 ^ 64 →
      (decodeStrings (encodeStrings found) = some found ↔ ∀ f ∈ found, (bytesOf f.text).length < 2 ^ 32)) ∧
    decodeFunctions bytes ≠ none :=
  ⟨functions_iff, xrefs_round_trip, strings_iff, decodeFunctions_returns bytes⟩

def returnAt (start stop : ℕ) (ordered : start ≤ stop) (fits : stop < 2 ^ 64) : Entry :=
  ⟨start, ⟨⟨start, stop, ordered, fits⟩, [], 1, false, .ret⟩⟩

def returns : List Entry :=
  [returnAt 4096 4097 (by decide) (by decide), returnAt 4100 4101 (by decide) (by decide),
    returnAt 4104 4105 (by decide) (by decide), returnAt 4108 4109 (by decide) (by decide),
    returnAt 4112 4113 (by decide) (by decide)]

def functionOf (blocks : List Entry) : Function Blocks :=
  ⟨4096, none, ⟨4096, 4113, by decide, by decide⟩,
    ⟨4096, ⟨⟨[blocks], [0]⟩, List.range blocks.length⟩, [], false, [], .complete⟩, ⟨.entryPoint, []⟩⟩

theorem functionOf_analysed {blocks : List Entry} (front : blocks <+: returns) : Analysed [functionOf blocks] [] 1 := by
  have few : blocks.length ≤ 5 := front.length_le
  have names : Names [blocks].flatten (List.range blocks.length) blocks := by
    rw [List.flatten_singleton]
    refine List.forall₂_iff_get.mpr ⟨List.length_range, fun k inside inside' => ?_⟩
    rw [List.get_eq_getElem, List.getElem_range, List.get_eq_getElem, List.getElem?_eq_getElem]
  have reads : (functionOf blocks).cfg.blocks.iter = blocks := iter_eq rfl names
  have kinds : ∀ e ∈ blocks, e.at_ = e.block.range.start ∧ e.block.successors = [] ∧ e.block.insns = 1 := by
    intro e member
    have all : ∀ e ∈ returns, e.at_ = e.block.range.start ∧ e.block.successors = [] ∧ e.block.insns = 1 := by decide
    exact all e (front.subset member)
  have whole : Whole (functionOf blocks) := by
    have small : (4096 : ℕ) < 2 ^ 64 := by decide
    refine ⟨fun e member => ?_, ?_, ⟨small, small, fun e member => ?_, ?_, fun a member => (by cases member),
      fun t member => (by cases member)⟩, Nat.zero_le _⟩
    · rw [reads] at member
      exact (kinds e member).1
    · rw [reads]
      exact List.length_range.symm
    · rw [show (functionOf blocks).read.cfg.blocks = blocks from reads] at member
      obtain ⟨-, none_, one⟩ := kinds e member
      refine ⟨fun a inside => ?_, by rw [one]; decide⟩
      rw [none_] at inside
      cases inside
    · rw [show (functionOf blocks).read.cfg.blocks = blocks from reads]
      omega
  refine ⟨fun f member => ?_, List.pairwise_singleton _ _, (by decide : 1 < 2 ^ 64), ?_, .nil,
    fun a member => (by cases member), (by decide : 0 < 2 ^ 64), by decide⟩
  · rw [List.mem_singleton.mp member]
    exact whole
  · refine (List.toFinset_card_le _).trans_lt ?_
    rw [List.flatMap_singleton, reads]
    omega

/-- Five blocks of one return each are written in fewer bytes than the reader asks for. -/
theorem five_returns_refused :
    ¬∀ functions noreturn rounds, Analysed functions noreturn rounds → RoundTrips functions noreturn rounds := by
  intro all
  have analysed := functionOf_analysed (List.prefix_refl returns)
  have fits := ((functions_iff analysed).mp (all _ _ _ analysed)).2.1
  revert fits
  unfold BlocksFit
  decide

/-- One such block reads back. -/
theorem cache_iff_one : RoundTrips [functionOf (returns.take 1)] [] 1 := by
  have analysed := functionOf_analysed (List.take_prefix 1 returns)
  refine ((cache_iff _ _ _ [] [] []).1 analysed).mpr ⟨fun f member => ?_, ?_, trivial⟩
  · rw [List.mem_singleton.mp member]
    exact ⟨fun s impossible => (by cases impossible), by decide, by decide, by decide⟩
  · unfold BlocksFit
    decide

end E5r.CacheRoundTrip
