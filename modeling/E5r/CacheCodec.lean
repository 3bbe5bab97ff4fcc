import E5r.BlockInterner
import E5r.ByteCodec
import E5r.DataRegions

/-!
The payloads of the analysis cache: functions with their graphs, the cross reference
index and the strings, in fixed-width little-endian fields. A count is refused when it
is larger than the bytes left could encode.
-/
namespace E5r.CacheCodec
open SortedRecords MemoryModel BlockInterner ByteCodec WordMixing
open CfgModel (Terminator Halt)
open DataRegions (dedup)

/-- Where a fact about an address comes from. -/
inductive Evidence where
  | symbolTable | debugInfo | codeSymbol | dynamicSymbol | entryPoint | initArray | ehFrame | peUnwind
  | guardTable | machFunctionStarts | goPclntab | objcMetadata | swiftMetadata | rustPanic | pdb | «export»
  | importThunk | callTarget | branchTarget | jumpTable | prologuePattern | linearSweep | dataPointer | annotation
deriving DecidableEq

/-- Best evidence for a fact, and everything else that agreed. -/
structure Provenance where
  best : Evidence
  corroborating : List Evidence
deriving DecidableEq

/-- How a table entry becomes a target address. -/
inductive TableKind where
  | absolute | relativeToBase | relativeToEntry
deriving DecidableEq

structure JumpTable where
  at_ : ℕ
  table : ℕ
  entrySize : ℕ
  kind : TableKind
  base : ℕ
  shift : ℕ
  targets : List ℕ
  boundedByScan : Bool
deriving DecidableEq

/-- The control flow graph of one function, over some representation of its blocks. -/
structure Cfg (β : Type) where
  entry : ℕ
  blocks : β
  calls : List ℕ
  hasIndirect : Bool
  tables : List JumpTable
  halt : Halt
deriving DecidableEq

structure Function (β : Type) where
  entry : ℕ
  name : Option String
  range : AddrRange
  cfg : Cfg β
  provenance : Provenance
deriving DecidableEq

/-- The same function over another representation of the blocks. -/
def Function.map {β γ : Type} (f : Function β) (blocks : γ) : Function γ :=
  { f with cfg := { f.cfg with blocks } }

def Function.read (f : Function Blocks) : Function (List Entry) := f.map f.cfg.blocks.iter

inductive XrefKind where
  | call | branch | data | read | write
deriving DecidableEq

structure Xref where
  source : ℕ
  target : ℕ
  kind : XrefKind
deriving DecidableEq

structure XrefIndex where
  byFrom : List Xref
  byTo : List Xref
deriving DecidableEq

inductive Encoding where
  | ascii | utf8 | utf16
deriving DecidableEq

structure Found where
  addr : ℕ
  len : ℕ
  encoding : Encoding
  text : String
deriving DecidableEq

def evidenceCode : Evidence → ℕ
  | .symbolTable => 1 | .debugInfo => 2 | .codeSymbol => 3 | .dynamicSymbol => 4 | .entryPoint => 5
  | .initArray => 6 | .ehFrame => 7 | .peUnwind => 8 | .guardTable => 9 | .machFunctionStarts => 10
  | .goPclntab => 11 | .objcMetadata => 12 | .swiftMetadata => 13 | .rustPanic => 14 | .pdb => 15
  | .export => 16 | .importThunk => 17 | .callTarget => 18 | .branchTarget => 19 | .jumpTable => 20
  | .prologuePattern => 21 | .linearSweep => 22 | .dataPointer => 23 | Evidence.annotation => 24

def evidenceFrom : ℕ → Option Evidence
  | 1 => some .symbolTable | 2 => some .debugInfo | 3 => some .codeSymbol | 4 => some .dynamicSymbol
  | 5 => some .entryPoint | 6 => some .initArray | 7 => some .ehFrame | 8 => some .peUnwind
  | 9 => some .guardTable | 10 => some .machFunctionStarts | 11 => some .goPclntab | 12 => some .objcMetadata
  | 13 => some .swiftMetadata | 14 => some .rustPanic | 15 => some .pdb | 16 => some .export
  | 17 => some .importThunk | 18 => some .callTarget | 19 => some .branchTarget | 20 => some .jumpTable
  | 21 => some .prologuePattern | 22 => some .linearSweep | 23 => some .dataPointer | 24 => some Evidence.annotation
  | _ => none

def terminatorByte : Terminator → ℕ
  | .flow => 1 | .ret => 2 | .tailCall => 3 | .noReturnCall => 4 | .trap => 5 | .unresolved => 6

def terminatorFrom : ℕ → Option Terminator
  | 1 => some .flow | 2 => some .ret | 3 => some .tailCall | 4 => some .noReturnCall | 5 => some .trap
  | 6 => some .unresolved | _ => none

def haltCode : Halt → ℕ
  | .complete => 1 | .instructionCap => 2 | .blockCap => 3 | .undecodable => 4

def haltFrom : ℕ → Option Halt
  | 1 => some .complete | 2 => some .instructionCap | 3 => some .blockCap | 4 => some .undecodable | _ => none

def tableKindCode : TableKind → ℕ
  | .absolute => 1 | .relativeToBase => 2 | .relativeToEntry => 3

def tableKindFrom : ℕ → Option TableKind
  | 1 => some .absolute | 2 => some .relativeToBase | 3 => some .relativeToEntry | _ => none

def xrefKindCode : XrefKind → ℕ
  | .call => 1 | .branch => 2 | .data => 3 | .read => 4 | .write => 5

def xrefKindFrom : ℕ → Option XrefKind
  | 1 => some .call | 2 => some .branch | 3 => some .data | 4 => some .read | 5 => some .write | _ => none

def encodingCode : Encoding → ℕ
  | .ascii => 1 | .utf8 => 2 | .utf16 => 3

def encodingFrom : ℕ → Option Encoding
  | 1 => some .ascii | 2 => some .utf8 | 3 => some .utf16 | _ => none

def minFunction : ℕ := 8 + 1 + 16 + 2 + 8 + 8 + 4 + 1 + 4
def minBlock : ℕ := 8 + 8 + 4 + 1 + 1 + 8
def minXref : ℕ := 8 + 8 + 1
def minString : ℕ := 8 + 8 + 1 + 4
def minTable : ℕ := 8 + 8 + 8 + 1 + 8 + 1 + 8 + 1

def encodeProvenance (p : Provenance) : List UInt8 :=
  leBytes 1 (evidenceCode p.best) ++ leBytes 1 (min p.corroborating.length 255) ++
    (p.corroborating.take 255).flatMap fun e => leBytes 1 (evidenceCode e)

def decodeEvidence : Dec Evidence := do
  let code ← u8
  lift (evidenceFrom code)

def decodeProvenance : Dec Provenance := do
  let best ← decodeEvidence
  let n ← u8
  let left ← remaining
  guard_ (decide (n ≤ left))
  let corroborating ← times decodeEvidence n
  pure ⟨best, corroborating⟩

def encodeTable (t : JumpTable) : List UInt8 :=
  leBytes 8 t.at_ ++ (leBytes 8 t.table ++ (leBytes 8 t.entrySize ++ (leBytes 1 (tableKindCode t.kind) ++
    (leBytes 8 t.base ++ (leBytes 1 t.shift ++ (bool_ t.boundedByScan ++ (leBytes 8 t.targets.length ++
      t.targets.flatMap (leBytes 8))))))))

def decodeTable : Dec JumpTable := do
  let at_ ← u64
  let table ← u64
  let entrySize ← u64
  let code ← u8
  let kind ← lift (tableKindFrom code)
  let base ← u64
  let shift ← u8
  let boundedByScan ← bool
  let n ← count 8
  let targets ← times u64 n
  pure ⟨at_, table, entrySize, kind, base, shift, targets, boundedByScan⟩

def encodeBlock (b : Block) : List UInt8 :=
  leBytes 8 b.range.start ++ (leBytes 8 b.range.stop ++ (leBytes 4 b.insns ++ (leBytes 1 (terminatorByte b.terminator) ++
    (bool_ b.unresolved ++ (leBytes 4 b.successors.length ++ b.successors.flatMap (leBytes 8))))))

/-- `AddrRange::new`, over two numbers that were read. -/
def rangeFrom (start stop : ℕ) : Option AddrRange :=
  if h : start ≤ stop ∧ stop < 2 ^ 64 then some ⟨start, stop, h.1, h.2⟩ else none

def decodeRange : Dec AddrRange := do
  let start ← u64
  let stop ← u64
  lift (rangeFrom start stop)

def decodeBlock : Dec Entry := do
  let range ← decodeRange
  let insns ← u32
  let code ← u8
  let terminator ← lift (terminatorFrom code)
  let unresolved ← bool
  let n ← u32
  atMost n 8
  let successors ← times u64 n
  pure ⟨range.start, ⟨range, successors, insns, unresolved, terminator⟩⟩

/-- What stands behind the blocks of a graph. -/
def encodeCfgTail {β : Type} (c : Cfg β) : List UInt8 :=
  leBytes 4 c.calls.length ++ (c.calls.flatMap (leBytes 8) ++ (bool_ c.hasIndirect ++ (leBytes 1 (haltCode c.halt) ++
    (leBytes 4 c.tables.length ++ c.tables.flatMap encodeTable))))

def encodeCfg (c : Cfg Blocks) : List UInt8 :=
  leBytes 8 c.entry ++ (leBytes 8 c.blocks.ids.length ++
    (c.blocks.iter.flatMap (fun e => encodeBlock e.block) ++ encodeCfgTail c))

def decodeCfg : Dec (Cfg (List Entry)) := do
  let entry ← u64
  let n ← count minBlock
  let blocks ← times decodeBlock n
  let ncalls ← u32
  atMost ncalls 8
  let calls ← times u64 ncalls
  let hasIndirect ← bool
  let code ← u8
  let halt ← lift (haltFrom code)
  let ntables ← u32
  atMost ntables minTable
  let tables ← times decodeTable ntables
  pure ⟨entry, blocks, calls, hasIndirect, tables, halt⟩

def encodeFunction (f : Function Blocks) : List UInt8 :=
  leBytes 8 f.entry ++ (optStr_ f.name ++ (leBytes 8 f.range.start ++ (leBytes 8 f.range.stop ++
    (encodeProvenance f.provenance ++ encodeCfg f.cfg))))

def decodeFunction : Dec (Function (List Entry)) := do
  let entry ← u64
  let name ← optStr
  let range ← decodeRange
  let provenance ← decodeProvenance
  let cfg ← decodeCfg
  pure ⟨entry, name, range, cfg, provenance⟩

/-- Functions, their graphs, the no-return set and the round count. -/
def encodeFunctions (functions : List (Function Blocks)) (noreturn : List ℕ) (rounds : ℕ) : List UInt8 :=
  leBytes 8 rounds ++ (leBytes 8 functions.length ++ (functions.flatMap encodeFunction ++
    (leBytes 8 noreturn.length ++ noreturn.flatMap (leBytes 8))))

/-- No bytes may be left over. -/
def ended : Dec Unit := do
  let left ← remaining
  guard_ (decide (left = 0))

/-- The whole payload, up to its last byte. -/
def decodeParts : Dec (ℕ × List (Function (List Entry)) × List ℕ) := do
  let rounds ← u64
  let n ← count minFunction
  let functions ← times decodeFunction n
  let n ← count 8
  let noreturn ← times u64 n
  ended
  pure (rounds, functions, noreturn)

/-- Insert into a list sorted by key, replacing what stands under the key. -/
def insertKey {α : Type} (key : α → ℕ) (a : α) : List α → List α
  | [] => [a]
  | b :: rest =>
    if key a < key b then a :: b :: rest
    else if key a = key b then a :: rest
    else b :: insertKey key a rest

/-- Install each function's blocks, in the order they are read. None if a walk through the
    index does not end. -/
def installAll : Interner → List (Function (List Entry)) → Option (List (Function Blocks) × Interner)
  | s, [] => some ([], s)
  | s, f :: rest => do
    let (blocks, s) ← s.install f.cfg.blocks
    let (functions, s) ← installAll s rest
    some (f.map blocks :: functions, s)

/-- Functions over one table of blocks: all are installed, and those that the map keeps are
    published. -/
def assemble (functions : List (Function (List Entry))) : Option (List (Function Blocks)) := do
  let (installed, s) ← installAll .default functions
  let kept := installed.foldl (fun m f => insertKey Function.entry f m) []
  some (kept.map fun f => f.map { f.cfg.blocks with table := s.seal_.1 })

/-- The inverse of `encodeFunctions`: the inner none is damage, the outer one a decoder
    that does not end. The blocks do not matter to what is read, so they are installed
    when everything is. -/
def decodeFunctions (bytes : List UInt8) : Option (Option (List (Function Blocks) × List ℕ × ℕ)) :=
  match decodeParts bytes with
  | none => some none
  | some ((rounds, functions, noreturn), _) =>
    (assemble functions).map fun functions =>
      some (functions, noreturn.foldl (fun m a => insertKey id a m) [], rounds)

def XrefKind.rank : XrefKind → ℕ
  | .call => 0 | .branch => 1 | .data => 2 | .read => 3 | .write => 4

def Xref.fromKey (x : Xref) : ℕ ×ₗ ℕ ×ₗ ℕ := toLex (x.source, toLex (x.target, x.kind.rank))
def Xref.toKey (x : Xref) : ℕ ×ₗ ℕ ×ₗ ℕ := toLex (x.target, toLex (x.source, x.kind.rank))

def XrefIndex.build (refs : List Xref) : XrefIndex :=
  let refs := dedup (sortByKey Xref.fromKey refs)
  ⟨refs, sortByKey Xref.toKey refs⟩

def encodeXref (x : Xref) : List UInt8 :=
  leBytes 8 x.source ++ (leBytes 8 x.target ++ leBytes 1 (xrefKindCode x.kind))

def decodeXref : Dec Xref := do
  let source ← u64
  let target ← u64
  let code ← u8
  let kind ← lift (xrefKindFrom code)
  pure ⟨source, target, kind⟩

def encodeXrefs (index : XrefIndex) : List UInt8 :=
  leBytes 8 index.byFrom.length ++ index.byFrom.flatMap encodeXref

def decodeXrefList : Dec (List Xref) := do
  let n ← count minXref
  let refs ← times decodeXref n
  ended
  pure refs

def decodeXrefs (bytes : List UInt8) : Option XrefIndex :=
  (decodeXrefList bytes).map fun r => XrefIndex.build r.1

def encodeFound (f : Found) : List UInt8 :=
  leBytes 8 f.addr ++ (leBytes 8 f.len ++ (leBytes 1 (encodingCode f.encoding) ++ str_ f.text))

def decodeFound : Dec Found := do
  let addr ← u64
  let len ← u64
  let code ← u8
  let encoding ← lift (encodingFrom code)
  let text ← str
  pure ⟨addr, len, encoding, text⟩

def encodeStrings (found : List Found) : List UInt8 :=
  leBytes 8 found.length ++ found.flatMap encodeFound

def decodeFoundList : Dec (List Found) := do
  let n ← count minString
  let found ← times decodeFound n
  ended
  pure found

def decodeStrings (bytes : List UInt8) : Option (List Found) :=
  (decodeFoundList bytes).map fun r => r.1

end E5r.CacheCodec
