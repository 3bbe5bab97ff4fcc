import E5r.BitStream

/-!
The compressor: zlib streams of stored blocks, or of one block coded with the
fixed Huffman tables after a search for repeats along hash chains.
-/
namespace E5r.Deflate

inductive Level where
  /-- Type 0 blocks: no compression, no matching, no Huffman coding. -/
  | stored
  /-- Type 1 blocks: repeats, with the fixed Huffman tables. -/
  | fixed
deriving DecidableEq

/-- One chunk of the checksum: both sums run without reduction. -/
def adlerChunk (a b : BitVec 32) (chunk : List UInt8) : BitVec 32 × BitVec 32 :=
  let (a, b) := chunk.foldl (fun (a, b) byte =>
    let a := a + byte.toBitVec.setWidth 32
    (a, b + a)) (a, b)
  (a.umod 65521, b.umod 65521)

def adlerFrom (a b : BitVec 32) (data : List UInt8) : BitVec 32 × BitVec 32 :=
  if _short : data = [] then (a, b)
  else
    let (a, b) := adlerChunk a b (data.take 5552)
    adlerFrom a b (data.drop 5552)
termination_by data.length
decreasing_by
  have := List.length_pos_iff.mpr _short
  rw [List.length_drop]
  omega

def adler32 (data : List UInt8) : BitVec 32 :=
  let (a, b) := adlerFrom 1 0 data
  (b <<< 16) ||| a

def toBeBytes (v : BitVec 32) : List UInt8 :=
  [UInt8.ofNat (v >>> 24).toNat, UInt8.ofNat (v >>> 16).toNat, UInt8.ofNat (v >>> 8).toNat, UInt8.ofNat v.toNat]

def toLeBytes (v : BitVec 16) : List UInt8 := [UInt8.ofNat v.toNat, UInt8.ofNat (v >>> 8).toNat]

/-- A chunk behind its marker, its length and the complement of its length. -/
def storedBlock (chunk : List UInt8) (last : Bool) : List UInt8 :=
  let len := BitVec.ofNat 16 chunk.length
  UInt8.ofNat last.toNat :: toLeBytes len ++ toLeBytes (~~~len) ++ chunk

def storedChunks (data : List UInt8) : List UInt8 :=
  if _short : data = [] then []
  else
    storedBlock (data.take 0xffff) (data.drop 0xffff).isEmpty ++ storedChunks (data.drop 0xffff)
termination_by data.length
decreasing_by
  have := List.length_pos_iff.mpr _short
  rw [List.length_drop]
  omega

def storedBlocks (data : List UInt8) : List UInt8 :=
  if data.isEmpty then [1] ++ toLeBytes 0 ++ toLeBytes (~~~0) else storedChunks data

/-- Bits wait in `bits`, lowest first, until there are eight of them. -/
structure BitWriter where
  out : List UInt8
  bits : BitVec 32
  n : ℕ
deriving DecidableEq

/-- Whole bytes leave the waiting bits. -/
def drain (out : List UInt8) (bits : BitVec 32) (n : ℕ) : BitWriter :=
  if n ≥ 8 then drain (out ++ [UInt8.ofNat bits.toNat]) (bits >>> 8) (n - 8) else ⟨out, bits, n⟩

namespace BitWriter

/-- `n` bits of `v`, least significant first. -/
def put (w : BitWriter) (v : BitVec 32) (n : ℕ) : BitWriter :=
  drain w.out (w.bits ||| ((v &&& ((1#32 <<< n) - 1#32)) <<< w.n)) (w.n + n)

/-- `n` bits of a Huffman code, most significant first. -/
def putCode (w : BitWriter) (code : BitVec 32) (n : ℕ) : BitWriter :=
  w.put ((List.range n).foldl (fun rev i => rev ||| (((code >>> (n - 1 - i)) &&& 1#32) <<< i)) 0#32) n

def flush (w : BitWriter) : BitWriter :=
  if w.n > 0 then ⟨w.out ++ [UInt8.ofNat w.bits.toNat], 0, 0⟩ else w

end BitWriter

/-- The fixed literal and length code: the code and its length. -/
def fixedLit (sym : ℕ) : ℕ × ℕ :=
  if sym ≤ 143 then (0x30 + sym, 8)
  else if sym ≤ 255 then (0x190 + sym - 144, 9)
  else if sym ≤ 279 then (sym - 256, 7)
  else (0xc0 + sym - 280, 8)

def lengthBase : List ℕ :=
  [3, 4, 5, 6, 7, 8, 9, 10, 11, 13, 15, 17, 19, 23, 27, 31, 35, 43, 51, 59, 67, 83, 99, 115, 131, 163, 195, 227, 258]
def lengthExtra : List ℕ :=
  [0, 0, 0, 0, 0, 0, 0, 0, 1, 1, 1, 1, 2, 2, 2, 2, 3, 3, 3, 3, 4, 4, 4, 4, 5, 5, 5, 5, 0]
def distanceBase : List ℕ :=
  [1, 2, 3, 4, 5, 7, 9, 13, 17, 25, 33, 49, 65, 97, 129, 193, 257, 385, 513, 769, 1025, 1537, 2049, 3073, 4097, 6145,
    8193, 12289, 16385, 24577]
def distanceExtra : List ℕ :=
  [0, 0, 0, 0, 1, 1, 2, 2, 3, 3, 4, 4, 5, 5, 6, 6, 7, 7, 8, 8, 9, 9, 10, 10, 11, 11, 12, 12, 13, 13]

/-- The last entry at or below `i` that is not above `v`. -/
def lastBelow (base : List ℕ) (v : ℕ) : ℕ → ℕ
  | 0 => 0
  | i + 1 => if base.getD (i + 1) 0 > v then lastBelow base v i else i + 1

def lengthCode (len : ℕ) : ℕ × ℕ × ℕ :=
  let i := lastBelow lengthBase len 28
  (257 + i, lengthExtra.getD i 0, len - lengthBase.getD i 0)

def distanceCode (dist : ℕ) : ℕ × ℕ × ℕ :=
  let i := lastBelow distanceBase dist 29
  (i, distanceExtra.getD i 0, dist - distanceBase.getD i 0)

def WINDOW : ℕ := 32768
def MIN_MATCH : ℕ := 3
def MAX_MATCH : ℕ := 258
def HASH_BITS : ℕ := 15
def HASH_SIZE : ℕ := 2 ^ HASH_BITS
/-- How many candidates at one hash to try. -/
def MAX_CHAIN : ℕ := 128
/-- `u32::MAX`, the end of a chain. -/
def NONE : UInt32 := 0xffffffff

section
variable (data : List UInt8)

def byteAt (i : ℕ) : UInt8 := data.getD i 0

def hash3 (a b c : UInt8) : ℕ :=
  let v := (a.toUInt32 <<< 16) ||| (b.toUInt32 <<< 8) ||| c.toUInt32
  ((v * 0x9e3779b1) >>> (32 - HASH_BITS).toUInt32).toNat

/-- The positions seen so far by hash, each with the one before it. -/
structure Chains where
  head : Array UInt32
  prev : Array UInt32

/-- How far the bytes at two positions agree, counting from `n`. -/
def agree (c pos limit n : ℕ) : ℕ :=
  if n < limit ∧ byteAt data (c + n) = byteAt data (pos + n) then agree c pos limit (n + 1) else n
termination_by limit - n

/-- The chain is followed for as many candidates as are left to try. -/
def search (chains : Chains) (pos limit floor nice : ℕ) : ℕ → UInt32 → ℕ × ℕ → ℕ × ℕ
  | 0, _, best => best
  | tries + 1, cand, best =>
    let c := cand.toNat
    if cand = NONE then best
    else if c < floor ∨ c ≥ pos then best
    else if best.1 ≥ limit then best
    else
      let n := agree data c pos limit 0
      -- only the byte past the current best can extend it
      if (best.1 = 0 ∨ byteAt data (c + best.1) = byteAt data (pos + best.1)) ∧ n > best.1 then
        if n ≥ nice then (n, pos - c) else search chains pos limit floor nice tries (chains.prev.getD c NONE) (n, pos - c)
      else search chains pos limit floor nice tries (chains.prev.getD c NONE) best

/-- Longest match found for the text at `pos`: its length and the distance back. -/
def bestMatch (chains : Chains) (pos nice : ℕ) : Option (ℕ × ℕ) :=
  if pos + MIN_MATCH > data.length then none
  else
    let limit := min (data.length - pos) MAX_MATCH
    let h := hash3 (byteAt data pos) (byteAt data (pos + 1)) (byteAt data (pos + 2))
    let best := search data chains pos limit (pos - WINDOW) nice MAX_CHAIN (chains.head.getD h NONE) (0, 0)
    if best.1 ≥ MIN_MATCH then some best else none

/-- A position enters the chain of its hash. -/
def insert (chains : Chains) (pos : ℕ) : Chains :=
  if pos + MIN_MATCH ≤ data.length then
    let h := hash3 (byteAt data pos) (byteAt data (pos + 1)) (byteAt data (pos + 2))
    { head := chains.head.setIfInBounds h pos.toUInt32,
      prev := chains.prev.setIfInBounds pos (chains.head.getD h NONE) }
  else chains

/-- A match is passed over when the next position has a longer one. -/
def choose (chains : Chains) (pos : ℕ) : Option (ℕ × ℕ) :=
  match bestMatch data chains pos 32 with
  | some (len, dist) =>
    if len < MAX_MATCH then
      match bestMatch data chains (pos + 1) 32 with
      | some (len2, _) => if len2 > len then none else some (len, dist)
      | none => some (len, dist)
    else some (len, dist)
  | none => none

end

def putSymbol (w : BitWriter) (sym : ℕ) : BitWriter :=
  let (code, n) := fixedLit sym
  w.putCode (BitVec.ofNat 32 code) n

def putExtra (w : BitWriter) (v n : ℕ) : BitWriter := if n > 0 then w.put (BitVec.ofNat 32 v) n else w

/-- A repeat is written as a length and a distance. -/
def putMatch (w : BitWriter) (len dist : ℕ) : BitWriter :=
  let (lc, lextra, lval) := lengthCode len
  let w := putExtra (putSymbol w lc) lval lextra
  let (dc, dextra, dval) := distanceCode dist
  putExtra (w.putCode (BitVec.ofNat 32 dc) 5) dval dextra

theorem bestMatch_length {data : List UInt8} {chains : Chains} {pos nice len dist : ℕ}
    (found : bestMatch data chains pos nice = some (len, dist)) : MIN_MATCH ≤ len := by
  simp only [bestMatch] at found
  split at found
  · contradiction
  · split at found
    · next long =>
      rw [Option.some.inj found] at long
      exact long
    · contradiction

/-- What is chosen is the best match of its position. -/
theorem choose_some {data : List UInt8} {chains : Chains} {pos len dist : ℕ}
    (chosen : choose data chains pos = some (len, dist)) : bestMatch data chains pos 32 = some (len, dist) := by
  rw [choose] at chosen
  split at chosen
  · next l d found =>
    rw [found]
    split at chosen
    · split at chosen
      · split at chosen
        · contradiction
        · exact chosen
      · exact chosen
    · exact chosen
  · contradiction

/-- The text from `pos` on. -/
def fixedFrom (data : List UInt8) (w : BitWriter) (chains : Chains) (pos : ℕ) : BitWriter :=
  if pos < data.length then
    match _chosen : choose data chains pos with
    | some (len, dist) =>
      fixedFrom data (putMatch w len dist) ((List.range len).foldl (fun chains i => insert data chains (pos + i)) chains)
        (pos + len)
    | none => fixedFrom data (putSymbol w (byteAt data pos).toNat) (insert data chains pos) (pos + 1)
  else w
termination_by data.length - pos
decreasing_by
  · have := bestMatch_length (choose_some _chosen)
    unfold MIN_MATCH at this
    omega
  · omega

def fixedBlocks (data : List UInt8) : List UInt8 :=
  let w := ((⟨[], 0, 0⟩ : BitWriter).put 1 1).put 1 2
  let chains := ⟨Array.replicate HASH_SIZE NONE, Array.replicate data.length NONE⟩
  (putSymbol (fixedFrom data w chains 0) 256).flush.out

/-- Raw data with no wrapper. -/
def deflate (data : List UInt8) (level : Level) : List UInt8 :=
  match level with
  | .stored => storedBlocks data
  | .fixed => fixedBlocks data

/-- The two-byte header, the data, and the checksum of the input. -/
def deflateZlib (data : List UInt8) (level : Level) : List UInt8 :=
  [0x78, 0x9c] ++ deflate data level ++ toBeBytes (adler32 data)

end E5r.Deflate
