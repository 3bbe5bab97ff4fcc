import E5r.SecureHash

/-!
The digest that binds a result to its exact input.
-/
namespace E5r.Sha256Model
open SecureHash (Word Words)

def K : List Word :=
  [0x428a2f98, 0x71374491, 0xb5c0fbcf, 0xe9b5dba5, 0x3956c25b, 0x59f111f1, 0x923f82a4, 0xab1c5ed5,
    0xd807aa98, 0x12835b01, 0x243185be, 0x550c7dc3, 0x72be5d74, 0x80deb1fe, 0x9bdc06a7, 0xc19bf174,
    0xe49b69c1, 0xefbe4786, 0x0fc19dc6, 0x240ca1cc, 0x2de92c6f, 0x4a7484aa, 0x5cb0a9dc, 0x76f988da,
    0x983e5152, 0xa831c66d, 0xb00327c8, 0xbf597fc7, 0xc6e00bf3, 0xd5a79147, 0x06ca6351, 0x14292967,
    0x27b70a85, 0x2e1b2138, 0x4d2c6dfc, 0x53380d13, 0x650a7354, 0x766a0abb, 0x81c2c92e, 0x92722c85,
    0xa2bfe8a1, 0xa81a664b, 0xc24b8b70, 0xc76c51a3, 0xd192e819, 0xd6990624, 0xf40e3585, 0x106aa070,
    0x19a4c116, 0x1e376c08, 0x2748774c, 0x34b0bcb5, 0x391c0cb3, 0x4ed8aa4a, 0x5b9cca4f, 0x682e6ff3,
    0x748f82ee, 0x78a5636f, 0x84c87814, 0x8cc70208, 0x90befffa, 0xa4506ceb, 0xbef9a3f7, 0xc67178f2]

def h : Words :=
  ⟨0x6a09e667, 0xbb67ae85, 0x3c6ef372, 0xa54ff53a, 0x510e527f, 0x9b05688c, 0x1f83d9ab, 0x5be0cd19⟩

def chunksExact (n : ℕ) (bytes : List UInt8) : List (List UInt8) :=
  (List.range (bytes.length / n)).map fun i => (bytes.drop (n * i)).take n

/-- `u32::from_be_bytes` -/
def fromBeBytes (bytes : List UInt8) : Word := BitVec.ofNat 32 (bytes.foldl (fun n b => 256 * n + b.toNat) 0)

def toBeBytes : ℕ → ℕ → List UInt8
  | 0, _ => []
  | n + 1, v => UInt8.ofNat (v / 256 ^ n) :: toBeBytes n v

/-- The loop that appends zeros. -/
def fill (msg : List UInt8) : List UInt8 := if msg.length % 64 ≠ 56 then fill (msg ++ [0]) else msg
termination_by (120 - msg.length % 64) % 64
decreasing_by
  rw [List.length_append, List.length_singleton]
  omega

def padded (data : List UInt8) : List UInt8 :=
  fill (data ++ [0x80]) ++ toBeBytes 8 (data.length % 2 ^ 64 * 8 % 2 ^ 64)

/-- The words of a block, at the beginning of `w`. -/
def load (block : List UInt8) : List Word :=
  (chunksExact 4 block).zipIdx.foldl (fun w p => w.set p.2 (fromBeBytes p.1)) (List.replicate 64 0)

/-- One more word of `w`. -/
def extend (w : List Word) (i : ℕ) : List Word :=
  let word j := w.getD j 0
  let s0 := (word (i - 15)).rotateRight 7 ^^^ (word (i - 15)).rotateRight 18 ^^^ (word (i - 15) >>> 3)
  let s1 := (word (i - 2)).rotateRight 17 ^^^ (word (i - 2)).rotateRight 19 ^^^ (word (i - 2) >>> 10)
  w.set i (word (i - 16) + s0 + word (i - 7) + s1)

def expand (block : List UInt8) : List Word := (List.range' 16 48).foldl extend (load block)

/-- One round. -/
def turn (w : List Word) (v : Words) (i : ℕ) : Words :=
  let s1 := v.e.rotateRight 6 ^^^ v.e.rotateRight 11 ^^^ v.e.rotateRight 25
  let ch := (v.e &&& v.f) ^^^ (~~~v.e &&& v.g)
  let t1 := v.h + s1 + ch + K.getD i 0 + w.getD i 0
  let s0 := v.a.rotateRight 2 ^^^ v.a.rotateRight 13 ^^^ v.a.rotateRight 22
  let maj := (v.a &&& v.b) ^^^ (v.a &&& v.c) ^^^ (v.b &&& v.c)
  let t2 := s0 + maj
  ⟨t1 + t2, v.a, v.b, v.c, v.d + t1, v.e, v.f, v.g⟩

/-- What the loop over the blocks does with one. -/
def step (h : Words) (block : List UInt8) : Words :=
  let v := (List.range 64).foldl (turn (expand block)) h
  ⟨h.a + v.a, h.b + v.b, h.c + v.c, h.d + v.d, h.e + v.e, h.f + v.f, h.g + v.g, h.h + v.h⟩

def digest (data : List UInt8) : List UInt8 :=
  ((chunksExact 64 (padded data)).foldl step h).toList.flatMap fun x => toBeBytes 4 x.toNat

end E5r.Sha256Model
