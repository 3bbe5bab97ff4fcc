import E5r.Inflate
import E5r.Outcomes

/-!
# The decompressor with its words, indices and slices

The functions of the decompressor with every step that can stop the program: an index or a slice
out of range, a sum or a difference that leaves its word, a shift by too much, a loop that does
not end. A vector that would pass what the machine can hold ends the run without an error of the
decompressor.
-/

namespace E5r.InflateWords

open Outcomes Outcomes.Outcome Inflate

abbrev Runs := Outcome (Option InflateError)

/-- A vector with more bytes at its end, which cannot have `2 ^ 63` of them. -/
def grow (out bs : List UInt8) : Runs (List UInt8) :=
  if out.length + bs.length < 2 ^ 63 then .ok (out ++ bs) else .err none

def fill (n : ℕ) : ℕ → BitReader → Runs BitReader
  | 0, br => if br.has < n then .crash else .ok br
  | more + 1, br =>
    if br.has < n then do
      let b ← orErr (some .truncated) br.data[br.pos]?
      let pos ← fits 64 (br.pos + 1)
      let up ← amount 32 br.has
      let has ← fits 32 (br.has + 8)
      fill n more { br with pos := pos, buf := br.buf ||| (b.toBitVec.setWidth 32 <<< up), has := has }
    else .ok br

def lowest (buf : BitVec 32) (n : ℕ) : Runs (BitVec 32) :=
  if n = 32 then .ok buf
  else do
    let n ← amount 32 n
    let top ← minus (1#32 <<< n).toNat 1
    return buf &&& BitVec.ofNat 32 top

def bits (br : BitReader) (n : ℕ) : Runs (BitVec 32 × BitReader) := do
  let br ← fill n n br
  let v ← lowest br.buf n
  let down ← amount 32 n
  let has ← minus br.has n
  return (v, { br with buf := br.buf >>> down, has := has })

def align (br : BitReader) : Runs BitReader := do
  let drop ← amount 32 (br.has % 8)
  let has ← minus br.has drop
  return { br with buf := br.buf >>> drop, has := has }

def byte (br : BitReader) : Runs (UInt8 × BitReader) :=
  if br.has ≥ 8 then do
    let has ← minus br.has 8
    return (UInt8.ofNat (br.buf &&& 0xff#32).toNat, { br with buf := br.buf >>> 8, has := has })
  else do
    let b ← orErr (some .truncated) br.data[br.pos]?
    let pos ← fits 64 (br.pos + 1)
    return (b, { br with pos := pos })

def remaining (br : BitReader) : Runs ℕ := do
  let behind ← minus br.data.length br.pos
  fits 64 (behind + br.has / 8)

/-- How many codes have each length. -/
def tally (counts : List ℕ) : List UInt8 → Runs (List ℕ)
  | [] => .ok counts
  | l :: rest =>
    if l.toNat > MAX_BITS then .err (some .badHuffmanTable)
    else do
      let count ← at_ counts l.toNat
      let count ← fits 16 (count + 1)
      let counts ← put counts l.toNat count
      tally counts rest

/-- A product of `i32` that stays at the end of its range. -/
def saturating (n : ℤ) : ℤ := max (-2 ^ 31) (min n (2 ^ 31 - 1))

def subscribe (left : ℤ) : List ℕ → Runs Unit
  | [] => .ok ()
  | count :: rest => do
    let left ← fits32 (saturating (left * 2) - count)
    if left < 0 then .err (some .badHuffmanTable) else subscribe left rest

/-- `offs[n + 1] = offs[n] + counts[n]`. -/
def offsets (a : ℕ) : List ℕ → Runs (List ℕ)
  | [] => .ok [a]
  | count :: rest => do
    let next ← fits 16 (a + count)
    let later ← offsets next rest
    return a :: later

def place (sym : ℕ) : List UInt8 → List ℕ → List ℕ → Runs (List ℕ)
  | [], _, symbols => .ok symbols
  | l :: rest, offs, symbols =>
    if l ≠ 0 then do
      let slot ← at_ offs l.toNat
      if slot ≥ symbols.length then .err (some .badHuffmanTable)
      else do
        let symbols ← put symbols slot (sym % 2 ^ 16)
        let next ← fits 16 (slot + 1)
        let offs ← put offs l.toNat next
        place (sym + 1) rest offs symbols
    else place (sym + 1) rest offs symbols

def new (lengths : List UInt8) : Runs Huffman := do
  let counts ← tally (List.replicate (MAX_BITS + 1) 0) lengths
  subscribe 1 counts.tail
  let offs ← offsets 0 counts.tail
  let symbols ← place 0 lengths (0 :: offs) (List.replicate lengths.length 0)
  return { counts, symbols }

/-- A number of `i32` shifted up by one, without the bits that leave the word. -/
def doubled (n : ℤ) : ℤ := (n * 2).bmod (2 ^ 32)

def decodeFrom (symbols : List ℕ) (br : BitReader) (code first index : ℤ) : List ℕ → Runs (ℕ × BitReader)
  | [] => .err (some .badHuffmanCode)
  | count :: rest => do
    let (bit, br) ← bits br 1
    let code : ℤ := (code.toNat ||| bit.toNat : ℕ)
    let above ← fits32 (code - first)
    if above < count then do
      let slot ← fits32 (index + above)
      let sym ← orErr (some .badHuffmanCode) (if slot < 0 then none else symbols[slot.toNat]?)
      return (sym, br)
    else do
      let index ← fits32 (index + count)
      let next ← fits32 (first + count)
      decodeFrom symbols br (doubled code) (doubled next) index rest

def decode (h : Huffman) (br : BitReader) : Runs (ℕ × BitReader) :=
  decodeFrom h.symbols br 0 0 0 h.counts.tail

def fixedTables : Runs (Huffman × Huffman) := do
  let lit ← new ((List.range 288).map fixedLength)
  let dist ← new (List.replicate 32 5)
  return (lit, dist)

def codeLengths (br : BitReader) (lengths : List UInt8) : List ℕ → Runs (List UInt8 × BitReader)
  | [] => .ok (lengths, br)
  | slot :: rest => do
    let (v, br) ← bits br 3
    let lengths ← put lengths slot (UInt8.ofNat v.toNat)
    codeLengths br lengths rest

/-- The same length from `i` on, as often as the next bits say. -/
def repeated (total : ℕ) (br : BitReader) (lengths : List UInt8) (i least n : ℕ) (l : UInt8) :
    Runs (List UInt8 × ℕ × BitReader) := do
  let (v, br) ← bits br n
  let rep ← fits 64 (least + v.toNat)
  let last ← fits 64 (i + rep)
  if last > total then .err (some .badHuffmanTable)
  else do
    let lengths ← putAll lengths i last l
    return (lengths, last, br)

/-- What one symbol of the code length code writes at `i`. -/
def lengthRun (total : ℕ) (br : BitReader) (lengths : List UInt8) (i sym : ℕ) :
    Runs (List UInt8 × ℕ × BitReader) :=
  if sym ≤ 15 then do
    let lengths ← put lengths i (UInt8.ofNat sym)
    let next ← fits 64 (i + 1)
    return (lengths, next, br)
  else if sym = 16 then
    if i = 0 then .err (some .badHuffmanTable)
    else do
      let j ← minus i 1
      let prev ← at_ lengths j
      repeated total br lengths i 3 2 prev
  else if sym = 17 then repeated total br lengths i 3 3 0
  else if sym = 18 then repeated total br lengths i 11 7 0
  else .err (some .badHuffmanCode)

def readLengths (tree : Huffman) (total : ℕ) : ℕ → BitReader → List UInt8 → ℕ → Runs (List UInt8 × BitReader)
  | 0, _, _, _ => .crash
  | more + 1, br, lengths, i =>
    if i < total then do
      let (sym, br) ← decode tree br
      let (lengths, i, br) ← lengthRun total br lengths i sym
      readLengths tree total more br lengths i
    else .ok (lengths, br)

def tables (lengths : List UInt8) (hlit : ℕ) : Runs (Huffman × Huffman) := do
  let stop ← at_ lengths 256
  if stop = 0 then .err (some .badHuffmanTable)
  else do
    let lits ← slice lengths 0 hlit
    let litlen ← new lits
    let dists ← slice lengths hlit lengths.length
    let dist ← new dists
    return (litlen, dist)

def dynamicTables (br : BitReader) : Runs ((Huffman × Huffman) × BitReader) := do
  let (v, br) ← bits br 5
  let hlit ← fits 64 (v.toNat + 257)
  let (v, br) ← bits br 5
  let hdist ← fits 64 (v.toNat + 1)
  let (v, br) ← bits br 4
  let hclen ← fits 64 (v.toNat + 4)
  if hlit > 286 ∨ hdist > 30 then .err (some .badHuffmanTable)
  else do
    let (lengths, br) ← codeLengths br (List.replicate 19 0) (ORDER.take hclen)
    let tree ← new lengths
    let total ← fits 64 (hlit + hdist)
    let (lengths, br) ← readLengths tree total (br.left + 1) br (List.replicate total 0) 0
    let pair ← tables lengths hlit
    return (pair, br)

/-- Bytes from `src` on, each appended before the next one is taken. -/
def copyFrom : ℕ → ℕ → List UInt8 → Runs (List UInt8)
  | 0, _, out => .ok out
  | n + 1, src, out => do
    let b ← at_ out src
    let next ← fits 64 (src + 1)
    let out ← grow out [b]
    copyFrom n next out

/-- An entry of a table of bases and what the next bits add to it. -/
def based (bases extras : List ℕ) (i : ℕ) (br : BitReader) : Runs (ℕ × BitReader) := do
  let base ← at_ bases i
  let extra ← at_ extras i
  let (more, br) ← bits br extra
  let sum ← fits 64 (base + more.toNat)
  return (sum, br)

def reference (dist : Huffman) (br : BitReader) (sym : ℕ) : Runs ((ℕ × ℕ) × BitReader) := do
  let li ← minus sym 257
  if li ≥ LEN_BASE.length then .err (some .badHuffmanCode)
  else do
    let (length, br) ← based LEN_BASE LEN_EXTRA li br
    let (ds, br) ← decode dist br
    if ds ≥ DIST_BASE.length then .err (some .badHuffmanCode)
    else do
      let (distance, br) ← based DIST_BASE DIST_EXTRA ds br
      return ((length, distance), br)

def symbol (litlen dist : Huffman) (limit : ℕ) (br : BitReader) (out : List UInt8) :
    Runs (Option (List UInt8) × BitReader) := do
  let (sym, br) ← decode litlen br
  if sym < 256 then
    if out.length ≥ limit then .err (some .limitExceeded)
    else do
      let out ← grow out [UInt8.ofNat sym]
      return (some out, br)
  else if sym = 256 then .ok (none, br)
  else do
    let ((length, distance), br) ← reference dist br sym
    if distance > out.length then .err (some .distanceTooFar)
    else do
      let sum ← fits 64 (out.length + length)
      if sum > limit then .err (some .limitExceeded)
      else do
        let src ← minus out.length distance
        let out ← copyFrom length src out
        return (some out, br)

def codes (litlen dist : Huffman) (limit : ℕ) : ℕ → BitReader → List UInt8 → Runs (List UInt8 × BitReader)
  | 0, _, _ => .crash
  | more + 1, br, out => do
    let (next, br) ← symbol litlen dist limit br out
    match next with
    | none => .ok (out, br)
    | some out => codes litlen dist limit more br out

def readBytes (br : BitReader) (out : List UInt8) : ℕ → Runs (List UInt8 × BitReader)
  | 0 => .ok (out, br)
  | n + 1 => do
    let (b, br) ← byte br
    let out ← grow out [b]
    readBytes br out n

def stored (limit : ℕ) (br : BitReader) (out : List UInt8) : Runs (List UInt8 × BitReader) := do
  let br ← align br
  let (b0, br) ← byte br
  let (b1, br) ← byte br
  let len := b0.toNat ||| (b1.toNat <<< 8)
  let (b0, br) ← byte br
  let (b1, br) ← byte br
  let nlen := b0.toNat ||| (b1.toNat <<< 8)
  if len ^^^ 0xffff ≠ nlen then .err (some .storedLengthMismatch)
  else do
    let behind ← remaining br
    if len > behind then .err (some .truncated)
    else do
      let sum ← fits 64 (out.length + len)
      if sum > limit then .err (some .limitExceeded) else readBytes br out len

def block (limit : ℕ) (kind : ℕ) (br : BitReader) (out : List UInt8) : Runs (List UInt8 × BitReader) :=
  if kind = 0 then stored limit br out
  else if kind = 1 then do
    let (litlen, dist) ← fixedTables
    codes litlen dist limit (br.left + 1) br out
  else if kind = 2 then do
    let ((litlen, dist), br) ← dynamicTables br
    codes litlen dist limit (br.left + 1) br out
  else .err (some .reservedBlockType)

def anyBlock (limit : ℕ) (br : BitReader) (out : List UInt8) : Runs ((Bool × List UInt8) × BitReader) := do
  let (last, br) ← bits br 1
  let (kind, br) ← bits br 2
  let (out, br) ← block limit kind.toNat br out
  return ((last ≠ 0, out), br)

def blocks (limit : ℕ) : ℕ → BitReader → List UInt8 → Runs (List UInt8)
  | 0, _, _ => .crash
  | more + 1, br, out => do
    let ((last, out), br) ← anyBlock limit br out
    if last then .ok out else blocks limit more br out

def inflate (data : List UInt8) (limit : ℕ) : Runs (List UInt8) :=
  blocks limit ((BitReader.new data).left + 1) (.new data) []

def adlerSums (a b : ℕ) : List UInt8 → Runs (ℕ × ℕ)
  | [] => .ok (a, b)
  | byte :: rest => do
    let a ← fits 32 (a + byte.toNat)
    let b ← fits 32 (b + a)
    adlerSums a b rest

/-- The sums, reduced after every 5552 bytes. -/
def adlerFrom (a b : ℕ) (data : List UInt8) : Runs (ℕ × ℕ) :=
  if _some : data = [] then .ok (a, b)
  else do
    let sums ← adlerSums a b (data.take 5552)
    adlerFrom (sums.1 % 65521) (sums.2 % 65521) (data.drop 5552)
termination_by data.length
decreasing_by
  have := List.length_pos_iff.mpr _some
  rw [List.length_drop]
  omega

def adler32 (data : List UInt8) : Runs (BitVec 32) := do
  let (a, b) ← adlerFrom 1 0 data
  return (BitVec.ofNat 32 b <<< 16) ||| BitVec.ofNat 32 a

def checkTail (data out : List UInt8) : Runs (List UInt8) := do
  let start ← minus data.length 4
  let tail ← slice data start data.length
  let b0 ← at_ tail 0
  let b1 ← at_ tail 1
  let b2 ← at_ tail 2
  let b3 ← at_ tail 3
  let sum ← adler32 out
  if sum ≠ fromBeBytes b0 b1 b2 b3 then .err (some .checksumMismatch) else .ok out

def inflateZlib (data : List UInt8) (limit : ℕ) : Runs (List UInt8) :=
  if data.length < 6 then .err (some .truncated)
  else do
    let cmf ← at_ data 0
    let flg ← at_ data 1
    if cmf &&& 0x0f ≠ 8 ∨ cmf >>> 4 > 7 then .err (some .badZlibHeader)
    else do
      let high ← fits 16 (cmf.toNat * 256)
      let header ← fits 16 (high + flg.toNat)
      if header % 31 ≠ 0 then .err (some .badZlibHeader)
      else if flg &&& 0x20 ≠ 0 then .err (some .presetDictionary)
      else do
        let stop ← minus data.length 4
        let body ← slice data 2 stop
        let out ← inflate body limit
        checkTail data out

end E5r.InflateWords
