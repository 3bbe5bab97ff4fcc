import E5r.BitStream
import E5r.Fallible

/-!
The decompressor: blocks of a DEFLATE stream, stored or coded with fixed or
transmitted Huffman tables, and the zlib wrapper around them.
-/
namespace E5r.Inflate
open Fallible

inductive InflateError where
  | truncated
  | badZlibHeader
  | presetDictionary
  | reservedBlockType
  | storedLengthMismatch
  | badHuffmanTable
  | badHuffmanCode
  | distanceTooFar
  | limitExceeded
  | checksumMismatch
deriving DecidableEq

/-- `has` bits wait in `buf`, lowest first. -/
structure BitReader where
  data : List UInt8
  pos : ℕ
  buf : BitVec 32
  has : ℕ
deriving DecidableEq

namespace BitReader

def new (data : List UInt8) : BitReader := ⟨data, 0, 0, 0⟩

/-- Bytes are taken in until `n` bits wait. -/
def fill (br : BitReader) (n : ℕ) : Except InflateError BitReader :=
  if br.has < n then
    match br.data[br.pos]? with
    | none => .error .truncated
    | some b =>
      fill { br with pos := br.pos + 1, buf := br.buf ||| (b.toBitVec.setWidth 32 <<< br.has), has := br.has + 8 } n
  else .ok br
termination_by n - br.has

def bits (br : BitReader) (n : ℕ) : Except InflateError (BitVec 32 × BitReader) := do
  let br ← fill br n
  let v := if n = 32 then br.buf else br.buf &&& ((1#32 <<< n) - 1#32)
  return (v, { br with buf := br.buf >>> n, has := br.has - n })

def align (br : BitReader) : BitReader :=
  let drop := br.has % 8
  { br with buf := br.buf >>> drop, has := br.has - drop }

def byte (br : BitReader) : Except InflateError (UInt8 × BitReader) :=
  if br.has ≥ 8 then .ok (UInt8.ofNat (br.buf &&& 0xff#32).toNat, { br with buf := br.buf >>> 8, has := br.has - 8 })
  else
    match br.data[br.pos]? with
    | none => .error .truncated
    | some b => .ok (b, { br with pos := br.pos + 1 })

/-- Bytes not yet handed out, counting whole buffered bits. -/
def remaining (br : BitReader) : ℕ := br.data.length - br.pos + br.has / 8

/-- The bits not yet handed out. -/
def left (br : BitReader) : ℕ := 8 * (br.data.length - br.pos) + br.has

theorem fill_left {br br' : BitReader} {n : ℕ} (filled : br.fill n = .ok br') : br'.left = br.left ∧ n ≤ br'.has := by
  fun_induction fill br n with
  | case1 => contradiction
  | case2 br short b found ih =>
    obtain ⟨same, enough⟩ := ih filled
    have inside := (List.getElem?_eq_some_iff.mp found).1
    refine ⟨?_, enough⟩
    rw [same]
    simp only [left]
    omega
  | case3 br enough =>
    obtain rfl := Except.ok.inj filled
    exact ⟨rfl, by omega⟩

theorem bits_left {br br' : BitReader} {n : ℕ} {v : BitVec 32} (read : br.bits n = .ok (v, br')) :
    br'.left + n = br.left := by
  simp only [bits, bind_ok_iff, pure_ok_iff, Prod.mk.injEq] at read
  obtain ⟨filled, enough, -, rfl⟩ := read
  obtain ⟨same, less⟩ := fill_left enough
  rw [← same]
  simp only [left]
  omega

end BitReader

def MAX_BITS : ℕ := 15

/-- How many codes have each length, and the symbols in the order of their codes. -/
structure Huffman where
  counts : List ℕ
  symbols : List ℕ
deriving DecidableEq

/-- The codes of each length fit into what the shorter ones leave. -/
def subscribed (left : ℤ) : List ℕ → Bool
  | [] => true
  | count :: rest =>
    let left := left * 2 - count
    0 ≤ left && subscribed left rest

/-- The symbols from `sym` on enter the slots of their lengths. Counts, offsets and symbols
    are words of 16 bits. -/
def place (sym : ℕ) : List UInt8 → List ℕ → List ℕ → Except InflateError (List ℕ)
  | [], _, symbols => .ok symbols
  | l :: rest, offs, symbols =>
    if l ≠ 0 then
      let slot := offs.getD l.toNat 0
      if slot ≥ symbols.length then .error .badHuffmanTable
      else place (sym + 1) rest (offs.set l.toNat ((slot + 1) % 2 ^ 16)) (symbols.set slot (sym % 2 ^ 16))
    else place (sym + 1) rest offs symbols

namespace Huffman

def new (lengths : List UInt8) : Except InflateError Huffman := do
  if lengths.any (fun l => l.toNat > MAX_BITS) then throw .badHuffmanTable
  let counts := (List.range (MAX_BITS + 1)).map (fun n => lengths.count (UInt8.ofNat n) % 2 ^ 16)
  if !subscribed 1 counts.tail then throw .badHuffmanTable
  -- offs[n + 1] = offs[n] + counts[n] from offs[1] = 0 on
  let offs := 0 :: counts.tail.scanl (fun a b => (a + b) % 2 ^ 16) 0
  let symbols ← place 0 lengths offs (List.replicate lengths.length 0)
  return { counts, symbols }

/-- The code grows by one bit for each length. -/
def decodeFrom (symbols : List ℕ) (br : BitReader) (code first index : ℕ) :
    List ℕ → Except InflateError (ℕ × BitReader)
  | [] => .error .badHuffmanCode
  | count :: rest => do
    let (bit, br) ← br.bits 1
    let code := code ||| bit.toNat
    if (code : ℤ) - first < count then
      let slot : ℤ := index + (code - first)
      match (if slot < 0 then none else symbols[slot.toNat]?) with
      | some sym => return (sym, br)
      | none => throw .badHuffmanCode
    else decodeFrom symbols br (code <<< 1) ((first + count) <<< 1) (index + count) rest

def decode (h : Huffman) (br : BitReader) : Except InflateError (ℕ × BitReader) :=
  decodeFrom h.symbols br 0 0 0 h.counts.tail

end Huffman

variable {br br' : BitReader} {sym : ℕ}

theorem decodeFrom_left {symbols counts : List ℕ} {code first index : ℕ}
    (read : Huffman.decodeFrom symbols br code first index counts = .ok (sym, br')) : br'.left < br.left := by
  induction counts generalizing br code first index with
  | nil => contradiction
  | cons count rest ih =>
    rw [Huffman.decodeFrom] at read
    obtain ⟨⟨bit, next⟩, one, read⟩ := bind_ok_iff.mp read
    have taken := BitReader.bits_left one
    simp only at read
    split at read
    · split at read
      · obtain ⟨-, rfl⟩ := Prod.mk.inj (pure_ok_iff.mp read)
        omega
      · contradiction
    · have := ih read
      omega

theorem decode_left {h : Huffman} (read : h.decode br = .ok (sym, br')) : br'.left < br.left :=
  decodeFrom_left read

def LEN_BASE : List ℕ :=
  [3, 4, 5, 6, 7, 8, 9, 10, 11, 13, 15, 17, 19, 23, 27, 31, 35, 43, 51, 59, 67, 83, 99, 115, 131, 163, 195, 227, 258]
def LEN_EXTRA : List ℕ :=
  [0, 0, 0, 0, 0, 0, 0, 0, 1, 1, 1, 1, 2, 2, 2, 2, 3, 3, 3, 3, 4, 4, 4, 4, 5, 5, 5, 5, 0]
def DIST_BASE : List ℕ :=
  [1, 2, 3, 4, 5, 7, 9, 13, 17, 25, 33, 49, 65, 97, 129, 193, 257, 385, 513, 769, 1025, 1537, 2049, 3073, 4097, 6145,
    8193, 12289, 16385, 24577]
def DIST_EXTRA : List ℕ :=
  [0, 0, 0, 0, 1, 1, 2, 2, 3, 3, 4, 4, 5, 5, 6, 6, 7, 7, 8, 8, 9, 9, 10, 10, 11, 11, 12, 12, 13, 13]

def fixedLength (i : ℕ) : UInt8 := if i ≤ 143 then 8 else if i ≤ 255 then 9 else if i ≤ 279 then 7 else 8

def fixedTables : Except InflateError (Huffman × Huffman) := do
  return (← Huffman.new ((List.range 288).map fixedLength), ← Huffman.new (List.replicate 32 5))

def ORDER : List ℕ := [16, 17, 18, 0, 8, 7, 9, 6, 10, 5, 11, 4, 12, 3, 13, 2, 14, 1, 15]

def codeLengths (br : BitReader) (lengths : List UInt8) : List ℕ → Except InflateError (List UInt8 × BitReader)
  | [] => .ok (lengths, br)
  | slot :: rest => do
    let (v, br) ← br.bits 3
    codeLengths br (lengths.set slot (UInt8.ofNat v.toNat)) rest

/-- What one symbol of the code length code adds after the lengths so far. -/
def lengthRun (br : BitReader) (lengths : List UInt8) (sym : ℕ) : Except InflateError (List UInt8 × BitReader) :=
  if sym ≤ 15 then .ok ([UInt8.ofNat sym], br)
  else if sym = 16 then
    match lengths.getLast? with
    | none => .error .badHuffmanTable
    | some prev => do
      let (v, br) ← br.bits 2
      return (List.replicate (3 + v.toNat) prev, br)
  else if sym = 17 then do
    let (v, br) ← br.bits 3
    return (List.replicate (3 + v.toNat) 0, br)
  else if sym = 18 then do
    let (v, br) ← br.bits 7
    return (List.replicate (11 + v.toNat) 0, br)
  else .error .badHuffmanCode

variable {lengths : List UInt8}

theorem lengthRun_left {run : List UInt8} (read : lengthRun br lengths sym = .ok (run, br')) : br'.left ≤ br.left := by
  have repeated {n : ℕ} (f : BitVec 32 → List UInt8)
      (read : (do let (v, br) ← br.bits n; return (f v, br)) = .ok (run, br')) : br'.left ≤ br.left := by
    obtain ⟨⟨v, next⟩, taken, read⟩ := bind_ok_iff.mp read
    obtain ⟨-, rfl⟩ := Prod.mk.inj (pure_ok_iff.mp read)
    have := BitReader.bits_left taken
    omega
  unfold lengthRun at read
  split at read
  · obtain ⟨-, rfl⟩ := Prod.mk.inj (Except.ok.inj read)
    exact le_refl _
  · split at read
    · split at read
      · contradiction
      · next prev _ => exact repeated (fun v => List.replicate (3 + v.toNat) prev) read
    · split at read
      · exact repeated (fun v => List.replicate (3 + v.toNat) 0) read
      · split at read
        · exact repeated (fun v => List.replicate (11 + v.toNat) 0) read
        · contradiction

/-- The lengths up to `total`, as the code length code transmits them. -/
def readLengths (tree : Huffman) (total : ℕ) (br : BitReader) (lengths : List UInt8) :
    Except InflateError (List UInt8 × BitReader) :=
  if lengths.length < total then
    match _read : tree.decode br with
    | .error e => .error e
    | .ok (sym, br') =>
      match _ran : lengthRun br' lengths sym with
      | .error e => .error e
      | .ok (run, br'') =>
        if lengths.length + run.length > total then .error .badHuffmanTable
        else readLengths tree total br'' (lengths ++ run)
  else .ok (lengths, br)
termination_by br.left
decreasing_by
  have := decode_left _read
  have := lengthRun_left _ran
  omega

def dynamicTables (br : BitReader) : Except InflateError ((Huffman × Huffman) × BitReader) := do
  let (v, br) ← br.bits 5
  let hlit := v.toNat + 257
  let (v, br) ← br.bits 5
  let hdist := v.toNat + 1
  let (v, br) ← br.bits 4
  let hclen := v.toNat + 4
  if hlit > 286 ∨ hdist > 30 then throw .badHuffmanTable
  let (lengths, br) ← codeLengths br (List.replicate 19 0) (ORDER.take hclen)
  let tree ← Huffman.new lengths
  let (lengths, br) ← readLengths tree (hlit + hdist) br []
  if lengths.getD 256 0 = 0 then throw .badHuffmanTable
  let litlen ← Huffman.new (lengths.take hlit)
  let dist ← Huffman.new (lengths.drop hlit)
  return ((litlen, dist), br)

/-- The bytes that start `distance` before the end are appended one by one, so that
    a run may overlap itself. -/
def copyBack (out : List UInt8) (distance length : ℕ) : List UInt8 :=
  (List.range length).foldl (fun o i => o ++ [o.getD (out.length - distance + i) 0]) out

def reference (dist : Huffman) (br : BitReader) (sym : ℕ) : Except InflateError ((ℕ × ℕ) × BitReader) := do
  let li := sym - 257
  if li ≥ LEN_BASE.length then throw .badHuffmanCode
  let (extra, br) ← br.bits (LEN_EXTRA.getD li 0)
  let length := LEN_BASE.getD li 0 + extra.toNat
  let (ds, br) ← dist.decode br
  if ds ≥ DIST_BASE.length then throw .badHuffmanCode
  let (extra, br) ← br.bits (DIST_EXTRA.getD ds 0)
  return ((length, DIST_BASE.getD ds 0 + extra.toNat), br)

/-- One symbol of a block and what it appends; the end of the block appends
    nothing and returns `none`. -/
def symbol (litlen dist : Huffman) (limit : ℕ) (br : BitReader) (out : List UInt8) :
    Except InflateError (Option (List UInt8) × BitReader) := do
  let (sym, br) ← litlen.decode br
  if sym < 256 then
    if out.length ≥ limit then throw .limitExceeded
    return (some (out ++ [UInt8.ofNat sym]), br)
  else if sym = 256 then return (none, br)
  else
    let ((length, distance), br) ← reference dist br sym
    if distance > out.length then throw .distanceTooFar
    if out.length + length > limit then throw .limitExceeded
    return (some (copyBack out distance length), br)

variable {dist : Huffman}

theorem reference_left {pair : ℕ × ℕ} (read : reference dist br sym = .ok (pair, br')) : br'.left ≤ br.left := by
  simp only [reference] at read
  obtain ⟨-, read⟩ := unless_ok_iff.mp read
  obtain ⟨⟨extra, br1⟩, taken1, read⟩ := bind_ok_iff.mp read
  dsimp only at read
  obtain ⟨⟨ds, br2⟩, decoded, read⟩ := bind_ok_iff.mp read
  dsimp only at read
  obtain ⟨-, read⟩ := unless_ok_iff.mp read
  obtain ⟨⟨more, br3⟩, taken2, read⟩ := bind_ok_iff.mp read
  dsimp only at read
  obtain ⟨-, rfl⟩ := Prod.mk.inj (pure_ok_iff.mp read)
  have := BitReader.bits_left taken1
  have := decode_left decoded
  have := BitReader.bits_left taken2
  omega

variable {out : List UInt8}

theorem symbol_left {litlen : Huffman} {limit : ℕ} {next : Option (List UInt8)}
    (read : symbol litlen dist limit br out = .ok (next, br')) : br'.left < br.left := by
  obtain ⟨⟨sym, br1⟩, decoded, read⟩ := bind_ok_iff.mp read
  have less := decode_left decoded
  dsimp only at read
  split at read
  · obtain ⟨-, read⟩ := unless_ok_iff.mp read
    obtain ⟨-, rfl⟩ := Prod.mk.inj (pure_ok_iff.mp read)
    exact less
  · split at read
    · obtain ⟨-, rfl⟩ := Prod.mk.inj (pure_ok_iff.mp read)
      exact less
    · obtain ⟨⟨⟨length, distance⟩, br2⟩, pair, read⟩ := bind_ok_iff.mp read
      dsimp only at read
      obtain ⟨-, read⟩ := unless_ok_iff.mp read
      obtain ⟨-, read⟩ := unless_ok_iff.mp read
      obtain ⟨-, rfl⟩ := Prod.mk.inj (pure_ok_iff.mp read)
      have := reference_left pair
      omega

/-- The symbols of one block up to its end. -/
def codes (litlen dist : Huffman) (limit : ℕ) (br : BitReader) (out : List UInt8) :
    Except InflateError (List UInt8 × BitReader) :=
  match _read : symbol litlen dist limit br out with
  | .error e => .error e
  | .ok (none, br') => .ok (out, br')
  | .ok (some out', br') => codes litlen dist limit br' out'
termination_by br.left
decreasing_by exact symbol_left _read

def readBytes (br : BitReader) (out : List UInt8) : ℕ → Except InflateError (List UInt8 × BitReader)
  | 0 => .ok (out, br)
  | n + 1 => do
    let (b, br) ← br.byte
    readBytes br (out ++ [b]) n

def stored (limit : ℕ) (br : BitReader) (out : List UInt8) : Except InflateError (List UInt8 × BitReader) := do
  let br := br.align
  let (b0, br) ← br.byte
  let (b1, br) ← br.byte
  let len := b0.toNat ||| (b1.toNat <<< 8)
  let (b0, br) ← br.byte
  let (b1, br) ← br.byte
  let nlen := b0.toNat ||| (b1.toNat <<< 8)
  if len ^^^ 0xffff ≠ nlen then throw .storedLengthMismatch
  if len > br.remaining then throw .truncated
  if out.length + len > limit then throw .limitExceeded
  readBytes br out len

def block (limit : ℕ) (kind : ℕ) (br : BitReader) (out : List UInt8) : Except InflateError (List UInt8 × BitReader) :=
  if kind = 0 then stored limit br out
  else if kind = 1 then do
    let (litlen, dist) ← fixedTables
    codes litlen dist limit br out
  else if kind = 2 then do
    let ((litlen, dist), br) ← dynamicTables br
    codes litlen dist limit br out
  else .error .reservedBlockType

variable {out' : List UInt8}

theorem codes_left {litlen : Huffman} {limit : ℕ} (read : codes litlen dist limit br out = .ok (out', br')) :
    br'.left ≤ br.left := by
  fun_induction codes litlen dist limit br out with
  | case1 => contradiction
  | case2 br out next last =>
    obtain ⟨-, rfl⟩ := Prod.mk.inj (Except.ok.inj read)
    exact le_of_lt (symbol_left last)
  | case3 br out out1 next more ih => exact (ih read).trans (le_of_lt (symbol_left more))

theorem codeLengths_left {slots : List ℕ} {lengths' : List UInt8}
    (read : codeLengths br lengths slots = .ok (lengths', br')) : br'.left ≤ br.left := by
  induction slots generalizing br lengths with
  | nil =>
    obtain ⟨-, rfl⟩ := Prod.mk.inj (Except.ok.inj read)
    exact le_refl _
  | cons slot rest ih =>
    rw [codeLengths] at read
    obtain ⟨⟨v, br1⟩, taken, read⟩ := bind_ok_iff.mp read
    have := BitReader.bits_left taken
    have := ih read
    omega

theorem readLengths_left {tree : Huffman} {total : ℕ} {lengths' : List UInt8}
    (read : readLengths tree total br lengths = .ok (lengths', br')) : br'.left ≤ br.left := by
  fun_induction readLengths tree total br lengths with
  | case1 => contradiction
  | case2 => contradiction
  | case3 => contradiction
  | case4 br lengths short sym br1 decoded run br2 ran fits ih =>
    have := ih read
    have := decode_left decoded
    have := lengthRun_left ran
    omega
  | case5 br lengths full =>
    obtain ⟨-, rfl⟩ := Prod.mk.inj (Except.ok.inj read)
    exact le_refl _

theorem dynamicTables_left {tables : Huffman × Huffman} (read : dynamicTables br = .ok (tables, br')) :
    br'.left ≤ br.left := by
  obtain ⟨⟨v1, br1⟩, taken1, read⟩ := bind_ok_iff.mp read
  dsimp only at read
  obtain ⟨⟨v2, br2⟩, taken2, read⟩ := bind_ok_iff.mp read
  dsimp only at read
  obtain ⟨⟨v3, br3⟩, taken3, read⟩ := bind_ok_iff.mp read
  dsimp only at read
  obtain ⟨-, read⟩ := unless_ok_iff.mp read
  obtain ⟨⟨lengths, br4⟩, slots, read⟩ := bind_ok_iff.mp read
  dsimp only at read
  obtain ⟨tree, -, read⟩ := bind_ok_iff.mp read
  obtain ⟨⟨all, br5⟩, runs, read⟩ := bind_ok_iff.mp read
  dsimp only at read
  obtain ⟨-, read⟩ := unless_ok_iff.mp read
  obtain ⟨litlen, -, read⟩ := bind_ok_iff.mp read
  obtain ⟨dist, -, read⟩ := bind_ok_iff.mp read
  obtain ⟨-, rfl⟩ := Prod.mk.inj (pure_ok_iff.mp read)
  have := BitReader.bits_left taken1
  have := BitReader.bits_left taken2
  have := BitReader.bits_left taken3
  have := codeLengths_left slots
  have := readLengths_left runs
  omega

theorem align_left (br : BitReader) : br.align.left ≤ br.left := by
  simp only [BitReader.align, BitReader.left]
  omega

theorem byte_left {b : UInt8} (read : br.byte = .ok (b, br')) : br'.left ≤ br.left := by
  unfold BitReader.byte at read
  split at read
  · obtain ⟨-, rfl⟩ := Prod.mk.inj (Except.ok.inj read)
    simp only [BitReader.left]
    omega
  · split at read
    · contradiction
    · obtain ⟨-, rfl⟩ := Prod.mk.inj (Except.ok.inj read)
      simp only [BitReader.left]
      omega

theorem readBytes_left {n : ℕ} (read : readBytes br out n = .ok (out', br')) : br'.left ≤ br.left := by
  induction n generalizing br out with
  | zero =>
    obtain ⟨-, rfl⟩ := Prod.mk.inj (Except.ok.inj read)
    exact le_refl _
  | succ n ih =>
    rw [readBytes] at read
    obtain ⟨⟨b, br1⟩, taken, read⟩ := bind_ok_iff.mp read
    exact (ih read).trans (byte_left taken)

theorem stored_left {limit : ℕ} (read : stored limit br out = .ok (out', br')) : br'.left ≤ br.left := by
  obtain ⟨⟨b0, br1⟩, taken1, read⟩ := bind_ok_iff.mp read
  dsimp only at read
  obtain ⟨⟨b1, br2⟩, taken2, read⟩ := bind_ok_iff.mp read
  dsimp only at read
  obtain ⟨⟨b2, br3⟩, taken3, read⟩ := bind_ok_iff.mp read
  dsimp only at read
  obtain ⟨⟨b3, br4⟩, taken4, read⟩ := bind_ok_iff.mp read
  dsimp only at read
  obtain ⟨-, read⟩ := unless_ok_iff.mp read
  obtain ⟨-, read⟩ := unless_ok_iff.mp read
  obtain ⟨-, read⟩ := unless_ok_iff.mp read
  have := align_left br
  have := byte_left taken1
  have := byte_left taken2
  have := byte_left taken3
  have := byte_left taken4
  have := readBytes_left read
  omega

theorem block_left {limit kind : ℕ} (read : block limit kind br out = .ok (out', br')) : br'.left ≤ br.left := by
  unfold block at read
  split at read
  · exact stored_left read
  · split at read
    · obtain ⟨tables, -, read⟩ := bind_ok_iff.mp read
      exact codes_left read
    · split at read
      · obtain ⟨⟨tables, br1⟩, transmitted, read⟩ := bind_ok_iff.mp read
        exact (codes_left read).trans (dynamicTables_left transmitted)
      · contradiction

def anyBlock (limit : ℕ) (br : BitReader) (out : List UInt8) :
    Except InflateError ((Bool × List UInt8) × BitReader) := do
  let (last, br) ← br.bits 1
  let (kind, br) ← br.bits 2
  let (out, br) ← block limit kind.toNat br out
  return ((last ≠ 0, out), br)

theorem anyBlock_left {limit : ℕ} {last : Bool} (read : anyBlock limit br out = .ok ((last, out'), br')) :
    br'.left < br.left := by
  obtain ⟨⟨v, br1⟩, one, read⟩ := bind_ok_iff.mp read
  obtain ⟨⟨kind, br2⟩, two, read⟩ := bind_ok_iff.mp read
  obtain ⟨⟨next, br3⟩, body, read⟩ := bind_ok_iff.mp read
  obtain ⟨-, rfl⟩ := Prod.mk.inj (pure_ok_iff.mp read)
  have := BitReader.bits_left one
  have := BitReader.bits_left two
  have := block_left body
  omega

def blocks (limit : ℕ) (br : BitReader) (out : List UInt8) : Except InflateError (List UInt8) :=
  match _read : anyBlock limit br out with
  | .error e => .error e
  | .ok ((last, out'), br') => if last then .ok out' else blocks limit br' out'
termination_by br.left
decreasing_by exact anyBlock_left _read

/-- A raw stream, whose output `limit` caps. -/
def inflate (data : List UInt8) (limit : ℕ) : Except InflateError (List UInt8) := blocks limit (.new data) []

def adlerChunk (a b : BitVec 32) (chunk : List UInt8) : BitVec 32 × BitVec 32 :=
  let (a, b) := chunk.foldl (fun (a, b) byte =>
    let a := a + byte.toBitVec.setWidth 32
    (a, b + a)) (a, b)
  (a.umod 65521, b.umod 65521)

def adlerFrom (a b : BitVec 32) (data : List UInt8) : BitVec 32 × BitVec 32 :=
  if _short : data = [] then (a, b)
  else
    let (a, b) := adlerChunk a b (data.take 5552)
    adlerFrom a b (data.drop 5552)
termination_by data.length
decreasing_by
  have := List.length_pos_iff.mpr _short
  rw [List.length_drop]
  omega

def adler32 (data : List UInt8) : BitVec 32 :=
  let (a, b) := adlerFrom 1 0 data
  (b <<< 16) ||| a

def fromBeBytes (b0 b1 b2 b3 : UInt8) : BitVec 32 :=
  (b0.toBitVec.setWidth 32 <<< 24) ||| (b1.toBitVec.setWidth 32 <<< 16) ||| (b2.toBitVec.setWidth 32 <<< 8) |||
    b3.toBitVec.setWidth 32

def inflateZlib (data : List UInt8) (limit : ℕ) : Except InflateError (List UInt8) := do
  if data.length < 6 then throw .truncated
  let cmf := data.getD 0 0
  let flg := data.getD 1 0
  if cmf &&& 0x0f ≠ 8 ∨ cmf >>> 4 > 7 then throw .badZlibHeader
  if (cmf.toNat * 256 + flg.toNat) % 31 ≠ 0 then throw .badZlibHeader
  if flg &&& 0x20 ≠ 0 then throw .presetDictionary
  let body := (data.take (data.length - 4)).drop 2
  let out ← inflate body limit
  let tail := data.drop (data.length - 4)
  if adler32 out ≠ fromBeBytes (tail.getD 0 0) (tail.getD 1 0) (tail.getD 2 0) (tail.getD 3 0) then
    throw .checksumMismatch
  return out

end E5r.Inflate
