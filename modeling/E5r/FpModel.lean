import Mathlib.Data.Rat.Floor
import Mathlib.Data.Nat.Log
import E5r.PtxSyntax

/-!
The floating-point operations of the PTX model, on bit patterns as natural
numbers. An operation computes the exact rational result and rounds it once, as
IEEE 754 defines it: overflow is decided on the result rounded with unbounded
exponent range, and so is the tininess that `.ftz` flushes. A NaN result is
none.
-/
namespace E5r.FpModel
open PtxSyntax (RMode FCmp)

/-- A binary interchange format: fraction bits and exponent bits. -/
structure Fmt where
  fb : ℕ
  eb : ℕ
deriving DecidableEq

namespace Fmt
def f32 : Fmt := ⟨23, 8⟩
def f64 : Fmt := ⟨52, 11⟩

variable (F : Fmt)
def bias : ℕ := 2 ^ (F.eb - 1) - 1
def emin : ℤ := 1 - (F.bias : ℤ)
def emax : ℤ := F.bias
end Fmt

/-- A power of two with an integer exponent. -/
def pow2 (k : ℤ) : ℚ := if 0 ≤ k then ((2 ^ k.toNat : ℕ) : ℚ) else 1 / ((2 ^ (-k).toNat : ℕ) : ℚ)

/-- The binary logarithm of a positive number, rounded down. -/
def ilog2 (q : ℚ) : ℤ :=
  let k : ℤ := (Nat.log2 q.num.natAbs : ℤ) - (Nat.log2 q.den : ℤ)
  if q < pow2 k then k - 1 else k

def roundInt : RMode → ℚ → ℤ
  | .rn, x =>
    let k := x.floor
    let f := x - k
    if f < 1 / 2 then k else if 1 / 2 < f then k + 1 else k + k % 2
  | .rz, x => if x < 0 then x.ceil else x.floor
  | .rm, x => x.floor
  | .rp, x => x.ceil

/-- The exponent of the last place, with gradual underflow. -/
def qexp (F : Fmt) (q : ℚ) : ℤ := max F.emin (ilog2 |q|) - F.fb

/-- Rounded to the format, with gradual underflow and no upper exponent bound. -/
def roundQ (F : Fmt) (m : RMode) (q : ℚ) : ℚ :=
  if q = 0 then 0 else (roundInt m (q / pow2 (qexp F q)) : ℚ) * pow2 (qexp F q)

/-- Rounded to the precision of the format, with no exponent bound. -/
def precRoundQ (F : Fmt) (m : RMode) (q : ℚ) : ℚ :=
  if q = 0 then 0
  else
    let e := ilog2 |q| - F.fb
    (roundInt m (q / pow2 e) : ℚ) * pow2 e

def maxFinite (F : Fmt) : ℚ := ((2 ^ (F.fb + 1) - 1 : ℕ) : ℚ) * pow2 (F.emax - F.fb)
def minNormal (F : Fmt) : ℚ := pow2 F.emin

/-- Overflow: rounded with unbounded exponent range, the result exceeds the
    largest finite number. -/
def overflows (F : Fmt) (m : RMode) (q : ℚ) : Bool := decide (maxFinite F < |precRoundQ F m q|)

/-- Tininess after rounding. -/
def tiny (F : Fmt) (m : RMode) (q : ℚ) : Bool := q != 0 && decide (|precRoundQ F m q| < minNormal F)

def roundIntSqrt (m : RMode) (y : ℚ) : ℤ :=
  let k : ℕ := Nat.sqrt y.floor.toNat
  let h : ℚ := ((2 * k + 1 : ℕ) : ℚ) / 2
  match m with
  | .rn => if y < h * h then k else if h * h < y then k + 1 else k + k % 2
  | .rz | .rm => k
  | .rp => if y = ((k * k : ℕ) : ℚ) then k else k + 1

/-- Round the square root of a positive number to the format. -/
def roundSqrtQ (F : Fmt) (m : RMode) (q : ℚ) : ℚ :=
  let e := max F.emin (Int.fdiv (ilog2 q) 2) - F.fb
  (roundIntSqrt m (q / pow2 (2 * e)) : ℚ) * pow2 e

namespace Fmt
variable (F : Fmt)

def signBit : ℕ := 2 ^ (F.eb + F.fb)
def expMax : ℕ := 2 ^ F.eb - 1
def sgn (x : ℕ) : Bool := x / F.signBit % 2 == 1
def bexp (x : ℕ) : ℕ := x / 2 ^ F.fb % 2 ^ F.eb
def frac (x : ℕ) : ℕ := x % 2 ^ F.fb
def isNaN (x : ℕ) : Bool := F.bexp x == F.expMax && F.frac x != 0
def isInf (x : ℕ) : Bool := F.bexp x == F.expMax && F.frac x == 0
def isZero (x : ℕ) : Bool := F.bexp x == 0 && F.frac x == 0
def isSub (x : ℕ) : Bool := F.bexp x == 0 && F.frac x != 0
def zero (neg : Bool) : ℕ := if neg then F.signBit else 0
def inf (neg : Bool) : ℕ := F.zero neg + F.expMax * 2 ^ F.fb
def maxFin (neg : Bool) : ℕ := F.zero neg + (F.expMax - 1) * 2 ^ F.fb + (2 ^ F.fb - 1)
def one : ℕ := F.bias * 2 ^ F.fb
def qnan : ℕ := F.expMax * 2 ^ F.fb + 2 ^ (F.fb - 1)

/-- The value of a finite pattern. -/
def toQ (x : ℕ) : ℚ :=
  let mag : ℚ :=
    if F.bexp x = 0 then (F.frac x : ℚ) * pow2 (F.emin - F.fb)
    else ((F.frac x + 2 ^ F.fb : ℕ) : ℚ) * pow2 ((F.bexp x : ℤ) - F.bias - F.fb)
  if F.sgn x then -mag else mag

/-- The pattern of a nonzero finite number of the format. -/
def encode (r : ℚ) : ℕ :=
  let a := |r|
  let e := ilog2 a
  let s := F.zero (decide (r < 0))
  if e < F.emin then s + (a / pow2 (F.emin - F.fb)).floor.toNat
  else s + (e + F.bias).toNat * 2 ^ F.fb + ((a / pow2 (e - F.fb)).floor.toNat - 2 ^ F.fb)

/-- A subnormal input becomes the zero of its sign. -/
def flush (ftz : Bool) (x : ℕ) : ℕ := if ftz && F.isSub x then F.zero (F.sgn x) else x

/-- Round the exact result `q`, where an exact zero takes the sign `zneg`. -/
def round (m : RMode) (ftz : Bool) (q : ℚ) (zneg : Bool) : ℕ :=
  let neg := decide (q < 0)
  if q = 0 then F.zero zneg
  else if overflows F m q then
    if m = .rn || (m = .rm && neg) || (m = .rp && !neg) then F.inf neg else F.maxFin neg
  else if ftz && tiny F m q then F.zero neg
  else
    let r := roundQ F m q
    if r = 0 then F.zero neg else F.encode r

/-- Clamp to the unit interval, a NaN to zero. -/
def sat (on : Bool) : Option ℕ → Option ℕ
  | none => if on then some 0 else none
  | some x =>
    if !on then some x
    else if F.isNaN x || F.sgn x then some 0
    else if F.isInf x || 1 < F.toQ x then some F.one
    else some x
end Fmt

/-- `add`, and `sub` with the second operand negated, after flushing. -/
def addCore (F : Fmt) (m : RMode) (ftz : Bool) (a b : ℕ) : Option ℕ :=
  if F.isNaN a || F.isNaN b then none
  else if F.isInf a && F.isInf b then (if F.sgn a == F.sgn b then some (F.inf (F.sgn a)) else none)
  else if F.isInf a then some a
  else if F.isInf b then some b
  else
    let zneg := if F.isZero a && F.isZero b && F.sgn a == F.sgn b then F.sgn a else m == .rm
    some (F.round m ftz (F.toQ a + F.toQ b) zneg)

def negBits (F : Fmt) (x : ℕ) : ℕ := if F.sgn x then x - F.signBit else x + F.signBit

def fadd (F : Fmt) (m : RMode) (ftz sat : Bool) (a b : ℕ) : Option ℕ :=
  F.sat sat (addCore F m ftz (F.flush ftz a) (F.flush ftz b))

def fsub (F : Fmt) (m : RMode) (ftz sat : Bool) (a b : ℕ) : Option ℕ :=
  let b := F.flush ftz b
  F.sat sat (addCore F m ftz (F.flush ftz a) (if F.isNaN b then b else negBits F b))

def fmul (F : Fmt) (m : RMode) (ftz sat : Bool) (a b : ℕ) : Option ℕ :=
  let a := F.flush ftz a
  let b := F.flush ftz b
  let neg := F.sgn a != F.sgn b
  F.sat sat <|
    if F.isNaN a || F.isNaN b then none
    else if (F.isZero a && F.isInf b) || (F.isInf a && F.isZero b) then none
    else if F.isInf a || F.isInf b then some (F.inf neg)
    else some (F.round m ftz (F.toQ a * F.toQ b) neg)

/-- `a * b + c` rounded once. -/
def ffma (F : Fmt) (m : RMode) (ftz sat : Bool) (a b c : ℕ) : Option ℕ :=
  let a := F.flush ftz a
  let b := F.flush ftz b
  let c := F.flush ftz c
  let pneg := F.sgn a != F.sgn b
  F.sat sat <|
    if F.isNaN a || F.isNaN b || F.isNaN c then none
    else if (F.isZero a && F.isInf b) || (F.isInf a && F.isZero b) then none
    else if F.isInf a || F.isInf b then
      (if F.isInf c && F.sgn c != pneg then none else some (F.inf pneg))
    else if F.isInf c then some c
    else
      let zneg := if (F.isZero a || F.isZero b) && F.isZero c && pneg == F.sgn c then pneg else m == .rm
      some (F.round m ftz (F.toQ a * F.toQ b + F.toQ c) zneg)

def fdiv (F : Fmt) (m : RMode) (ftz : Bool) (a b : ℕ) : Option ℕ :=
  let a := F.flush ftz a
  let b := F.flush ftz b
  let neg := F.sgn a != F.sgn b
  if F.isNaN a || F.isNaN b then none
  else if (F.isInf a && F.isInf b) || (F.isZero a && F.isZero b) then none
  else if F.isInf a then some (F.inf neg)
  else if F.isInf b then some (F.zero neg)
  else if F.isZero b then some (F.inf neg)
  else some (F.round m ftz (F.toQ a / F.toQ b) neg)

def frcp (F : Fmt) (m : RMode) (ftz : Bool) (a : ℕ) : Option ℕ := fdiv F m ftz F.one a

def fsqrt (F : Fmt) (m : RMode) (ftz : Bool) (a : ℕ) : Option ℕ :=
  let a := F.flush ftz a
  if F.isNaN a then none
  else if F.isZero a then some a
  else if F.sgn a then none
  else if F.isInf a then some a
  else some (F.encode (roundSqrtQ F m (F.toQ a)))

def fneg (F : Fmt) (ftz : Bool) (a : ℕ) : Option ℕ :=
  let a := F.flush ftz a
  if F.isNaN a then none else some (negBits F a)

def fabs (F : Fmt) (ftz : Bool) (a : ℕ) : Option ℕ :=
  let a := F.flush ftz a
  if F.isNaN a then none else some (if F.sgn a then a - F.signBit else a)

/-- The order of two numbers, with a negative zero below a positive one. -/
def ltSigned (F : Fmt) (a b : ℕ) : Bool :=
  if F.isInf a then F.sgn a && !(F.isInf b && F.sgn b)
  else if F.isInf b then !F.sgn b
  else if F.isZero a && F.isZero b then F.sgn a && !F.sgn b
  else decide (F.toQ a < F.toQ b)

def fminmax (F : Fmt) (isMax ftz nanMod : Bool) (a b : ℕ) : Option ℕ :=
  let a := F.flush ftz a
  let b := F.flush ftz b
  if F.isNaN a && F.isNaN b then none
  else if nanMod && (F.isNaN a || F.isNaN b) then none
  else if F.isNaN a then some b
  else if F.isNaN b then some a
  else if isMax then some (if ltSigned F b a then a else b)
  else some (if ltSigned F a b then a else b)

/-- The order of two numbers, with equal zeros. -/
def cmpNum (F : Fmt) (a b : ℕ) : Ordering :=
  if F.isZero a && F.isZero b then .eq
  else if ltSigned F a b then .lt
  else if ltSigned F b a then .gt
  else .eq

def fsetp (F : Fmt) (c : FCmp) (ftz : Bool) (a b : ℕ) : Bool :=
  let a := F.flush ftz a
  let b := F.flush ftz b
  let un := F.isNaN a || F.isNaN b
  let o := cmpNum F a b
  match c with
  | .eq => !un && o == .eq
  | .ne => !un && o != .eq
  | .lt => !un && o == .lt
  | .le => !un && o != .gt
  | .gt => !un && o == .gt
  | .ge => !un && o != .lt
  | .equ => un || o == .eq
  | .neu => un || o != .eq
  | .ltu => un || o == .lt
  | .leu => un || o != .gt
  | .gtu => un || o == .gt
  | .geu => un || o != .lt
  | .num => !un
  | .nan => un

/-- A float to an integer of width `w`, clamped to its range. -/
def toInt (F : Fmt) (m : RMode) (ftz signed : Bool) (w : ℕ) (a : ℕ) : ℕ :=
  let a := F.flush ftz a
  let lo : ℤ := if signed then -(2 ^ (w - 1) : ℕ) else 0
  let hi : ℤ := if signed then (2 ^ (w - 1) - 1 : ℕ) else (2 ^ w - 1 : ℕ)
  let enc (v : ℤ) : ℕ := (v % (2 ^ w : ℕ)).toNat
  if F.isNaN a then (if F = Fmt.f64 ∨ w = 64 then 2 ^ (w - 1) else 0)
  else if F.isInf a then enc (if F.sgn a then lo else hi)
  else enc (max lo (min hi (roundInt m (F.toQ a))))

def ofInt (F : Fmt) (m : RMode) (ftz : Bool) (v : ℤ) : ℕ := F.round m ftz v false

def roundIntegral (F : Fmt) (m : RMode) (ftz : Bool) (a : ℕ) : Option ℕ :=
  let a := F.flush ftz a
  if F.isNaN a then none
  else if F.isInf a || F.isZero a then some a
  else
    let v := roundInt m (F.toQ a)
    some (if v = 0 then F.zero (F.sgn a) else F.encode v)

/-- A float of format `S` to one of format `D`. -/
def convertF (D S : Fmt) (m : RMode) (ftz sat : Bool) (a : ℕ) : Option ℕ :=
  let ftzS := ftz && S = Fmt.f32
  let ftzD := ftz && D = Fmt.f32
  let a := S.flush ftzS a
  D.sat sat <|
    if S.isNaN a then none
    else if S.isInf a then some (D.inf (S.sgn a))
    else if S.isZero a then some (D.zero (S.sgn a))
    else some (D.round m ftzD (S.toQ a) (S.sgn a))

end E5r.FpModel
