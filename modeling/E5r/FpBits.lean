import E5r.FpModel
import E5r.Limbs

/-!
The floating-point operations of the interpreter, on 64-bit patterns. An exact
result is a signed quotient of big integers times a power of two, and rounding
divides with remainder at the exponent of the last place. An outer none is a
failed assertion or an index out of range; the inner none is a NaN.
-/
namespace E5r.FpBits
open PtxSyntax (RMode FCmp)
open FpModel (Fmt)
open Limbs

/-- An exact value: `n / d` times two to the `e`, negated when `neg` is set. -/
structure Q where
  neg : Bool
  n : Big
  d : Big
  e : ℤ

namespace Q
/-- Numerator and denominator of the absolute value divided by `2 ^ k`. -/
def scaled (q : Q) (k : ℤ) : Big × Big :=
  let s := q.e - k
  if s ≥ 0 then (q.n.shl s.toNat, q.d) else (q.n, q.d.shl (-s).toNat)

def isZero (q : Q) : Bool := q.n.isZero

/-- Whether the absolute value is below `2 ^ k`. -/
def ltPow2 (q : Q) (k : ℤ) : Bool :=
  let (a, b) := q.scaled k
  a.cmp b == .lt

def ilog2 (q : Q) : ℤ :=
  let k : ℤ := (q.n.bits : ℤ) - (q.d.bits : ℤ)
  if q.ltPow2 (k + q.e) then k + q.e - 1 else k + q.e
end Q

section
variable (f : Fmt)

def bias : ℤ := 2 ^ (f.eb - 1) - 1
def emin : ℤ := 1 - bias f
def emax : ℤ := bias f
def signBit : BitVec 64 := 1#64 <<< (f.eb + f.fb)
def expMax : BitVec 64 := (1#64 <<< f.eb) - 1#64
def sgn (x : BitVec 64) : Bool := x &&& signBit f != 0#64
def bexp (x : BitVec 64) : BitVec 64 := (x >>> f.fb) &&& expMax f
def frac (x : BitVec 64) : BitVec 64 := x &&& ((1#64 <<< f.fb) - 1#64)
def isNan (x : BitVec 64) : Bool := bexp f x == expMax f && frac f x != 0#64
def isInf (x : BitVec 64) : Bool := bexp f x == expMax f && frac f x == 0#64
def isZero (x : BitVec 64) : Bool := bexp f x == 0#64 && frac f x == 0#64
def isSub (x : BitVec 64) : Bool := bexp f x == 0#64 && frac f x != 0#64
def zero (neg : Bool) : BitVec 64 := if neg then signBit f else 0#64
def inf (neg : Bool) : BitVec 64 := zero f neg + (expMax f <<< f.fb)
def maxFin (neg : Bool) : BitVec 64 :=
  zero f neg + ((expMax f - 1#64) <<< f.fb) + ((1#64 <<< f.fb) - 1#64)
def one : BitVec 64 := BitVec.ofInt 64 (bias f) <<< f.fb
def qnan : BitVec 64 := (expMax f <<< f.fb) + (1#64 <<< (f.fb - 1))

/-- Mantissa and exponent of a finite pattern. -/
def me (x : BitVec 64) : BitVec 64 × ℤ :=
  if bexp f x == 0#64 then (frac f x, emin f - f.fb)
  else (frac f x + (1#64 <<< f.fb), ((bexp f x).toNat : ℤ) - bias f - f.fb)

def toQ (x : BitVec 64) : Q :=
  let (m, e) := me f x
  { neg := sgn f x, n := .ofNat m.toNat, d := .ofNat 1, e }

def flush (ftz : Bool) (x : BitVec 64) : BitVec 64 := if ftz && isSub f x then zero f (sgn f x) else x
def negBits (x : BitVec 64) : BitVec 64 := x ^^^ signBit f

/-- The absolute value rounded at last-place exponent `qe`. -/
def roundAt (m : RMode) (q : Q) (qe : ℤ) : Option ℕ := do
  let (a, b) := q.scaled qe
  let (k, r) ← a.divremSmall b
  let up : Bool :=
    match m with
    | .rn =>
      match (r.shl 1).cmp b with
      | .gt => true
      | .eq => k % 2 == 1
      | .lt => false
    | .rz => false
    | .rm => q.neg && !r.isZero
    | .rp => !q.neg && !r.isZero
  return k + up.toNat

/-- Halve a mantissa that is too long. A 128-bit number is halved at most 128
    times. -/
def encodeDown : ℕ → ℕ → ℤ → Option (ℕ × ℤ)
  | 0, mm, qe => some (mm, qe)
  | n + 1, mm, qe =>
    if mm ≥ 1 <<< (f.fb + 1) then
      if mm % 2 = 0 then encodeDown n (mm >>> 1) (qe + 1) else none
    else some (mm, qe)

/-- Double a mantissa that is too short, down to the least exponent. -/
def encodeUp : ℕ → ℕ → ℤ → ℕ × ℤ
  | 0, mm, qe => (mm, qe)
  | n + 1, mm, qe =>
    if mm < 1 <<< f.fb ∧ qe > emin f - f.fb then encodeUp n (mm <<< 1) (qe - 1) else (mm, qe)

/-- The pattern of `mm * 2 ^ qe`. -/
def encode (neg : Bool) (mm : ℕ) (qe : ℤ) : Option (BitVec 64) := do
  let (mm, qe) ← encodeDown f 128 mm qe
  let (mm, qe) := encodeUp f (qe - (emin f - f.fb)).toNat mm qe
  let s := zero f neg
  if mm < 1 <<< f.fb then return s + BitVec.ofNat 64 mm
  else
    let be := BitVec.ofInt 64 (qe + f.fb + bias f)
    return s + (be <<< f.fb) + (BitVec.ofNat 64 mm - (1#64 <<< f.fb))

def round (m : RMode) (ftz : Bool) (q : Q) (zneg : Bool) : Option (BitVec 64) := do
  if q.isZero then return zero f zneg
  let neg := q.neg
  let e := q.ilog2
  let pm ← roundAt m q (e - f.fb)
  if e > emax f || (e == emax f && pm == 1 <<< (f.fb + 1)) then
    if m == .rn || (m == .rm && neg) || (m == .rp && !neg) then return inf f neg else return maxFin f neg
  if ftz && (e < emin f && !(e == emin f - 1 && pm == 1 <<< (f.fb + 1))) then return zero f neg
  let qe := max e (emin f) - f.fb
  let mm ← roundAt m q qe
  if mm = 0 then return zero f neg else encode f neg mm qe

def gtOne (x : BitVec 64) : Bool := one f < x

def sat (on : Bool) (r : Option (BitVec 64)) : Option (BitVec 64) :=
  if !on then r
  else
    match r with
    | none => some 0#64
    | some x =>
      if isNan f x || sgn f x then some 0#64
      else if isInf f x || gtOne f x then some (one f)
      else some x
end

/-- The sum of two values without a denominator. -/
def addQ (a b : Q) : Q :=
  let e := min a.e b.e
  let x := a.n.shl (a.e - e).toNat
  let y := b.n.shl (b.e - e).toNat
  let (neg, n) :=
    if a.neg = b.neg then (a.neg, x.add y)
    else
      match x.cmp y with
      | .lt => (b.neg, y.sub x)
      | _ => (a.neg, x.sub y)
  { neg, n, d := .ofNat 1, e }

def mulQ (a b : Q) : Option Q := do
  let n ← a.n.mul b.n
  let d ← a.d.mul b.d
  return { neg := a.neg != b.neg, n, d, e := a.e + b.e }

section
variable (f : Fmt)

def addCore (m : RMode) (ftz : Bool) (a b : BitVec 64) : Option (Option (BitVec 64)) :=
  if isNan f a || isNan f b then some none
  else if isInf f a && isInf f b then
    some (if sgn f a == sgn f b then some (inf f (sgn f a)) else none)
  else if isInf f a then some (some a)
  else if isInf f b then some (some b)
  else
    let zneg := if isZero f a && isZero f b && sgn f a == sgn f b then sgn f a else m == .rm
    (round f m ftz (addQ (toQ f a) (toQ f b)) zneg).map some

def fadd (m : RMode) (ftz sat : Bool) (a b : BitVec 64) : Option (Option (BitVec 64)) :=
  (addCore f m ftz (flush f ftz a) (flush f ftz b)).map (FpBits.sat f sat)

def fsub (m : RMode) (ftz sat : Bool) (a b : BitVec 64) : Option (Option (BitVec 64)) :=
  let b := flush f ftz b
  let b := if isNan f b then b else negBits f b
  (addCore f m ftz (flush f ftz a) b).map (FpBits.sat f sat)

def fmul (m : RMode) (ftz sat : Bool) (a b : BitVec 64) : Option (Option (BitVec 64)) :=
  let a := flush f ftz a
  let b := flush f ftz b
  let neg := sgn f a != sgn f b
  let invalid := (isZero f a && isInf f b) || (isInf f a && isZero f b)
  let r : Option (Option (BitVec 64)) :=
    if isNan f a || isNan f b || invalid then some none
    else if isInf f a || isInf f b then some (some (inf f neg))
    else (mulQ (toQ f a) (toQ f b)).bind fun q => (round f m ftz q neg).map some
  r.map (FpBits.sat f sat)

def ffma (m : RMode) (ftz sat : Bool) (a b c : BitVec 64) : Option (Option (BitVec 64)) :=
  let a := flush f ftz a
  let b := flush f ftz b
  let c := flush f ftz c
  let pneg := sgn f a != sgn f b
  let invalid := (isZero f a && isInf f b) || (isInf f a && isZero f b)
  let r : Option (Option (BitVec 64)) :=
    if isNan f a || isNan f b || isNan f c || invalid then some none
    else if isInf f a || isInf f b then
      some (if isInf f c && sgn f c != pneg then none else some (inf f pneg))
    else if isInf f c then some (some c)
    else
      let zneg := if (isZero f a || isZero f b) && isZero f c && pneg == sgn f c then pneg else m == .rm
      (mulQ (toQ f a) (toQ f b)).bind fun p => (round f m ftz (addQ p (toQ f c)) zneg).map some
  r.map (FpBits.sat f sat)

def fdiv (m : RMode) (ftz : Bool) (a b : BitVec 64) : Option (Option (BitVec 64)) :=
  let a := flush f ftz a
  let b := flush f ftz b
  let neg := sgn f a != sgn f b
  if isNan f a || isNan f b then some none
  else if (isInf f a && isInf f b) || (isZero f a && isZero f b) then some none
  else if isInf f a then some (some (inf f neg))
  else if isInf f b then some (some (zero f neg))
  else if isZero f b then some (some (inf f neg))
  else
    let qa := toQ f a
    let qb := toQ f b
    (round f m ftz { neg, n := qa.n, d := qb.n, e := qa.e - qb.e } neg).map some

def frcp (m : RMode) (ftz : Bool) (a : BitVec 64) : Option (Option (BitVec 64)) := fdiv f m ftz (one f) a

/-- `(n as f64).sqrt() as u128`: the nearest double, its correctly rounded
    square root, truncated. -/
def isqrtGuess (n : ℕ) : ℕ :=
  (E5r.FpModel.roundSqrtQ .f64 .rn (E5r.FpModel.roundQ .f64 .rn n)).floor.toNat

/-- Step down while the square is too large. -/
def isqrtDown (n : ℕ) : ℕ → ℕ
  | 0 => 0
  | x + 1 => if (x + 1) * (x + 1) % 2 ^ 128 > n then isqrtDown n x else x + 1

/-- Step up while the next square fits; a root of `n` is at most `n` steps away. -/
def isqrtUp (n : ℕ) : ℕ → ℕ → ℕ
  | 0, x => x
  | fuel + 1, x => if (x + 1) * (x + 1) % 2 ^ 128 ≤ n then isqrtUp n fuel (x + 1) else x

def isqrt (n : ℕ) : ℕ := if n = 0 then 0 else isqrtUp n n (isqrtDown n (isqrtGuess n))

/-- The integer root rounded, from its comparison with the half-way point. -/
def rootUp (m : RMode) (k : ℕ) (half : Ordering) (exact : Bool) : ℕ :=
  match m with
  | .rn =>
    match half with
    | .lt => k
    | .gt => k + 1
    | .eq => k + k % 2
  | .rz | .rm => k
  | .rp => if exact then k else k + 1

def fsqrt (m : RMode) (ftz : Bool) (a : BitVec 64) : Option (Option (BitVec 64)) :=
  let a := flush f ftz a
  if isNan f a then some none
  else if isZero f a then some (some a)
  else if sgn f a then some none
  else if isInf f a then some (some a)
  else do
    let q := toQ f a
    let e := max (q.ilog2 / 2) (emin f) - f.fb
    let (ya, yb) := q.scaled (2 * e)
    let (fl, _) ← ya.divremSmall yb
    let k := isqrt fl
    let h := Big.ofNat (2 * k + 1)
    let lhs := ya.shl 2
    let rhs ← (← h.mul h).mul yb
    let exact := ya.cmp (← (Big.ofNat (k * k)).mul yb) == .eq
    let x ← encode f false (rootUp m k (lhs.cmp rhs) exact) e
    return some x

def fneg (ftz : Bool) (a : BitVec 64) : Option (BitVec 64) :=
  let a := flush f ftz a
  if isNan f a then none else some (negBits f a)

def fabs (ftz : Bool) (a : BitVec 64) : Option (BitVec 64) :=
  let a := flush f ftz a
  if isNan f a then none else some (a &&& ~~~signBit f)

/-- A pattern as an integer in the order of the values, with a negative zero
    below a positive one. -/
def key (x : BitVec 64) : ℤ :=
  let mag : ℤ := (x &&& ~~~signBit f).toNat
  if sgn f x then -mag - 1 else mag

def ltSigned (a b : BitVec 64) : Bool := key f a < key f b

def fminmax (isMax ftz nan : Bool) (a b : BitVec 64) : Option (BitVec 64) :=
  let a := flush f ftz a
  let b := flush f ftz b
  if isNan f a && isNan f b then none
  else if nan && (isNan f a || isNan f b) then none
  else if isNan f a then some b
  else if isNan f b then some a
  else some (if isMax then (if ltSigned f b a then a else b) else if ltSigned f a b then a else b)

def fsetp (c : FCmp) (ftz : Bool) (a b : BitVec 64) : Bool :=
  let a := flush f ftz a
  let b := flush f ftz b
  let un := isNan f a || isNan f b
  let o : Ordering :=
    if isZero f a && isZero f b then .eq else if !un then compare (key f a) (key f b) else .eq
  match c with
  | .eq => !un && o == .eq
  | .ne => !un && o != .eq
  | .lt => !un && o == .lt
  | .le => !un && o != .gt
  | .gt => !un && o == .gt
  | .ge => !un && o != .lt
  | .equ => un || o == .eq
  | .neu => un || o != .eq
  | .ltu => un || o == .lt
  | .leu => un || o != .gt
  | .gtu => un || o == .gt
  | .geu => un || o != .lt
  | .num => !un
  | .nan => un

/-- A finite pattern rounded to an integer, clamped to `±2 ^ 70`. -/
def roundInt (m : RMode) (a : BitVec 64) : Option ℤ := do
  let q := toQ f a
  if q.isZero then return 0
  if q.ilog2 ≥ 70 then return if q.neg then -2 ^ 70 else 2 ^ 70
  let mag ← roundAt m q 0
  return if q.neg then -(mag : ℤ) else mag

def toInt (m : RMode) (ftz signed : Bool) (w : ℕ) (a : BitVec 64) : Option (BitVec 64) := do
  let a := flush f ftz a
  let lo : ℤ := if signed then -2 ^ (w - 1) else 0
  let hi : ℤ := if signed then 2 ^ (w - 1) - 1 else 2 ^ w - 1
  let enc (v : ℤ) : BitVec 64 := BitVec.ofInt 64 (v % 2 ^ w)
  if isNan f a then return if f = .f64 ∨ w = 64 then 1#64 <<< (w - 1) else 0#64
  if isInf f a then return enc (if sgn f a then lo else hi)
  let v ← roundInt f m a
  return enc (max lo (min hi v))

def ofInt (m : RMode) (ftz : Bool) (v : ℤ) : Option (BitVec 64) :=
  round f m ftz { neg := v < 0, n := .ofNat v.natAbs, d := .ofNat 1, e := 0 } false

def roundIntegral (m : RMode) (ftz : Bool) (a : BitVec 64) : Option (Option (BitVec 64)) :=
  let a := flush f ftz a
  if isNan f a then some none
  else if isInf f a || isZero f a then some (some a)
  else
    let q := toQ f a
    if q.ilog2 ≥ f.fb then some (some a)
    else
      (roundAt m q 0).bind fun v =>
        if v = 0 then some (some (zero f (sgn f a))) else (encode f q.neg v 0).map some

def convertF (d s : Fmt) (m : RMode) (ftz sat : Bool) (a : BitVec 64) : Option (Option (BitVec 64)) :=
  let a := flush s (ftz && s = .f32) a
  let r : Option (Option (BitVec 64)) :=
    if isNan s a then some none
    else if isInf s a then some (some (inf d (sgn s a)))
    else if isZero s a then some (some (zero d (sgn s a)))
    else (round d m (ftz && d = .f32) (toQ s a) (sgn s a)).map some
  r.map (FpBits.sat d sat)
end

end E5r.FpBits
