import E5r.BitStream
import Mathlib.Data.Nat.Find
import Mathlib.Data.Nat.Prime.Defs

/-!
The secure hash of 256 bits, as its standard defines it: messages are strings of bits, the
numbers in them stand with their highest bit first, and the constants come from roots of
prime numbers.
-/
namespace E5r.SecureHash
open BitStream

abbrev Word := BitVec 32

def bits (n v : ℕ) : List Bool := (bitsOf n v).reverse

def word (s : List Bool) : Word := BitVec.ofNat 32 (value s.reverse)

/-- The bits of bytes. -/
def octets (bytes : List UInt8) : List Bool := bytes.flatMap fun b => bits 8 b.toNat

def ch (x y z : Word) : Word := (x &&& y) ^^^ (~~~x &&& z)

def maj (x y z : Word) : Word := (x &&& y) ^^^ (x &&& z) ^^^ (y &&& z)

def bigSigma0 (x : Word) : Word := x.rotateRight 2 ^^^ x.rotateRight 13 ^^^ x.rotateRight 22

def bigSigma1 (x : Word) : Word := x.rotateRight 6 ^^^ x.rotateRight 11 ^^^ x.rotateRight 25

def sigma0 (x : Word) : Word := x.rotateRight 7 ^^^ x.rotateRight 18 ^^^ (x >>> 3)

def sigma1 (x : Word) : Word := x.rotateRight 17 ^^^ x.rotateRight 19 ^^^ (x >>> 10)

/-- The first 64 prime numbers. -/
def primes : List ℕ := (List.range 312).filter Nat.Prime

def rootBits (degree n : ℕ) : Word :=
  BitVec.ofNat 32 (Nat.findGreatest (fun r => r ^ degree ≤ n * 2 ^ (32 * degree)) (n * 2 ^ (32 * degree)))

def roundConstant (t : ℕ) : Word := rootBits 3 (primes.getD t 0)

/-- Eight words: a hash value, or the working variables. -/
structure Words where
  (a b c d e f g h : Word)
  deriving DecidableEq

def Words.toList (v : Words) : List Word := [v.a, v.b, v.c, v.d, v.e, v.f, v.g, v.h]

def Words.add (v w : Words) : Words :=
  ⟨v.a + w.a, v.b + w.b, v.c + w.c, v.d + w.d, v.e + w.e, v.f + w.f, v.g + w.g, v.h + w.h⟩

/-- The first hash value, from the square roots of prime numbers. -/
def initial : Words :=
  let root t := rootBits 2 (primes.getD t 0)
  ⟨root 0, root 1, root 2, root 3, root 4, root 5, root 6, root 7⟩

def schedule (block : ℕ → Word) (t : ℕ) : Word :=
  if t < 16 then block t
  else sigma1 (schedule block (t - 2)) + schedule block (t - 7) + sigma0 (schedule block (t - 15)) +
    schedule block (t - 16)
termination_by t

def round (k w : Word) (v : Words) : Words :=
  let t1 := v.h + bigSigma1 v.e + ch v.e v.f v.g + k + w
  let t2 := bigSigma0 v.a + maj v.a v.b v.c
  ⟨t1 + t2, v.a, v.b, v.c, v.d + t1, v.e, v.f, v.g⟩

def rounds (w : ℕ → Word) (v : Words) : ℕ → Words
  | 0 => v
  | t + 1 => round (roundConstant t) (w t) (rounds w v t)

/-- The next hash value. -/
def compress (h : Words) (block : ℕ → Word) : Words := (rounds (schedule block) h 64).add h

theorem exists_zeros (length : ℕ) : ∃ k, (length + 1 + k) % 512 = 448 :=
  ⟨959 - length % 512, by omega⟩

/-- The least number of zeros that leaves room for the length at the end of a block. -/
def zeros (length : ℕ) : ℕ := Nat.find (exists_zeros length)

def pad (message : List Bool) : List Bool :=
  message ++ true :: (List.replicate (zeros message.length) false ++ bits 64 message.length)

def blockWord (padded : List Bool) (i t : ℕ) : Word := word ((padded.drop (512 * i + 32 * t)).take 32)

/-- The hash value after some blocks. -/
def chain (padded : List Bool) : ℕ → Words
  | 0 => initial
  | i + 1 => compress (chain padded i) (blockWord padded i)

/-- The digest of a message. -/
def sha256 (message : List Bool) : List Bool :=
  (chain (pad message) ((pad message).length / 512)).toList.flatMap fun w => bits 32 w.toNat

end E5r.SecureHash
