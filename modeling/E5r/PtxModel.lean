import E5r.FpModel

/-!
The reference model of one PTX thread: what each instruction does next, as an
action that shows every access to memory, and one step of a thread against the
memory it sees. An exported kernel keeps the names of the source and the value
of every literal.
-/
namespace E5r.PtxModel
open PtxSyntax (Ty Dim Sreg CmpOp Space AtomOp FBin RMode FCmp CvtRnd Guard)

inductive Operand where
  | reg (r : String)
  | imm (v : ℤ)
  | sreg (s : Sreg)
  | sym (name : String)
deriving DecidableEq

inductive Address where
  | reg (r : String) (off : ℤ)
  | param (name : String) (off : ℤ)
deriving DecidableEq

inductive Instr where
  | add (t : Ty) (d : String) (a b : Operand)
  | sub (t : Ty) (d : String) (a b : Operand)
  | mulLo (t : Ty) (d : String) (a b : Operand)
  | mulWide (t : Ty) (d : String) (a b : Operand)
  | madLo (t : Ty) (d : String) (a b c : Operand)
  | and (t : Ty) (d : String) (a b : Operand)
  | or (t : Ty) (d : String) (a b : Operand)
  | xor (t : Ty) (d : String) (a b : Operand)
  | not (t : Ty) (d : String) (a : Operand)
  | shl (t : Ty) (d : String) (a b : Operand)
  | shr (t : Ty) (d : String) (a b : Operand)
  | mov (t : Ty) (d : String) (a : Operand)
  | setp (c : CmpOp) (t : Ty) (p : String) (a b : Operand)
  | selp (t : Ty) (d : String) (a b : Operand) (p : String)
  | cvt (dt st : Ty) (d : String) (a : Operand)
  | cvtaGlobal (d : String) (a : Operand)
  | ld (sp : Space) (t : Ty) (d : String) (a : Address)
  | st (sp : Space) (t : Ty) (a : Address) (v : Operand)
  | bra (uni : Bool) (label : String)
  | ret
  | exit
  | atom (sp : Space) (op : AtomOp) (t : Ty) (d : String) (a : Address) (b : Operand)
  | cas (sp : Space) (t : Ty) (d : String) (a : Address) (b c : Operand)
  | red (sp : Space) (op : AtomOp) (t : Ty) (a : Address) (b : Operand)
  | bar
  | fbin (op : FBin) (m : RMode) (ftz sat : Bool) (t : Ty) (d : String) (a b : Operand)
  | ffma (m : RMode) (ftz sat : Bool) (t : Ty) (d : String) (a b c : Operand)
  | fsqrt (m : RMode) (ftz : Bool) (t : Ty) (d : String) (a : Operand)
  | frcp (m : RMode) (ftz : Bool) (t : Ty) (d : String) (a : Operand)
  | fneg (ftz : Bool) (t : Ty) (d : String) (a : Operand)
  | fabs (ftz : Bool) (t : Ty) (d : String) (a : Operand)
  | fminmax (isMax ftz nan : Bool) (t : Ty) (d : String) (a b : Operand)
  | fsetp (c : FCmp) (ftz : Bool) (t : Ty) (p : String) (a b : Operand)
  | cvtF (dt st : Ty) (r : CvtRnd) (ftz sat : Bool) (d : String) (a : Operand)
deriving DecidableEq

structure Stmt where
  guard : Option Guard
  instr : Instr
deriving DecidableEq

structure SharedVar where
  name : String
  align : ℕ
  size : ℕ
deriving DecidableEq

structure Kernel where
  name : String
  shared : List SharedVar
  body : List Stmt
  labels : List (String × ℕ)
deriving DecidableEq

def lookupLabel : List (String × ℕ) → String → Option ℕ
  | [], _ => none
  | (k, v) :: t, l => if k = l then some v else lookupLabel t l

abbrev Val := BitVec 64
abbrev Addr := BitVec 64
abbrev Mem := Addr → BitVec 8

/-- Access sizes: 4 and 8 bytes. -/
inductive Size where
  | b4 | b8
deriving DecidableEq

def Size.bytes : Size → ℕ
  | b4 => 4
  | b8 => 8

/-- A byte is one of the `n` bytes at `a`, also where they wrap around. -/
def Covers (a : Addr) (n : ℕ) (x : Addr) : Prop := (x - a).toNat < n

def rd32 (m : Mem) (a : Addr) : BitVec 32 := m (a + 3) ++ m (a + 2) ++ m (a + 1) ++ m a
def rd64 (m : Mem) (a : Addr) : BitVec 64 := rd32 m (a + 4) ++ rd32 m a

/-- A load, zero-extended. -/
def rd (m : Mem) (a : Addr) : Size → Val
  | .b4 => (rd32 m a).setWidth 64
  | .b8 => rd64 m a

/-- A store of the low bytes of a value. -/
def wr (m : Mem) (a : Addr) (sz : Size) (v : Val) : Mem := fun x =>
  if (x - a).toNat < sz.bytes then (v >>> (8 * (x - a).toNat)).setWidth 8 else m x

structure Region where
  base : Addr
  size : ℕ
deriving DecidableEq

/-- The `n` bytes at `a` lie inside the region, as natural numbers. -/
def Region.holds (r : Region) (a : Addr) (n : ℕ) : Bool :=
  decide (r.base.toNat ≤ a.toNat ∧ a.toNat + n ≤ r.base.toNat + r.size)

/-- Aligned and inside one allocation. -/
def accessOk (al : List Region) (a : Addr) (sz : Size) : Bool :=
  a.toNat % sz.bytes == 0 && al.any (·.holds a sz.bytes)

structure Dim3 where
  x : BitVec 32
  y : BitVec 32
  z : BitVec 32
deriving DecidableEq

def Dim3.get (v : Dim3) : Dim → BitVec 32
  | .x => v.x
  | .y => v.y
  | .z => v.z

structure TState where
  pc : ℕ
  r : String → Val
  p : String → Bool

/-- What a thread observes of its launch. The oracle gives the bits of a NaN
    result. -/
structure Ctx where
  tid : Dim3
  ntid : Dim3
  ctaid : Dim3
  nctaid : Dim3
  params : String → Val
  sym : String → Val
  nan : TState → Val

def Ctx.sreg (c : Ctx) : Sreg → BitVec 32
  | .tid d => c.tid.get d
  | .ntid d => c.ntid.get d
  | .ctaid d => c.ctaid.get d
  | .nctaid d => c.nctaid.get d

inductive Width where
  | w32 | w64
deriving DecidableEq

def width : Ty → Width
  | .u64 | .s64 | .b64 | .f64 => .w64
  | _ => .w32

def signed : Ty → Bool
  | .s32 | .s64 => true
  | _ => false

def lo32 (v : Val) : BitVec 32 := v.setWidth 32
def ext32 (v : BitVec 32) : Val := v.setWidth 64

@[simp] theorem lo32_ext32 (v : BitVec 32) : lo32 (ext32 v) = v := by simp [lo32, ext32]

/-- Write a register and fall through. -/
def TState.set (s : TState) (d : String) (v : Val) : TState :=
  { s with r := Function.update s.r d v, pc := s.pc + 1 }

def TState.setp (s : TState) (d : String) (v : Bool) : TState :=
  { s with p := Function.update s.p d v, pc := s.pc + 1 }

def TState.skip (s : TState) : TState := { s with pc := s.pc + 1 }

def opVal (c : Ctx) (s : TState) : Operand → Val
  | .reg r => s.r r
  | .imm v => BitVec.ofInt 64 v
  | .sreg x => ext32 (c.sreg x)
  | .sym n => c.sym n

/-- An operation at either width, zero-extended into a register. -/
def atWidth (w : Width) (f : (n : ℕ) → BitVec n → BitVec n → BitVec n) (a b : Val) : Val :=
  match w with
  | .w32 => ext32 (f 32 (lo32 a) (lo32 b))
  | .w64 => f 64 a b

/-- The amount of a shift is an unsigned 32-bit operand, at most the width. -/
def shiftBy (w : Width) (f : (n : ℕ) → BitVec n → ℕ → BitVec n) (a b : Val) : Val :=
  match w with
  | .w32 => ext32 (f 32 (lo32 a) (min (lo32 b).toNat 32))
  | .w64 => f 64 a (min (lo32 b).toNat 64)

/-- A comparison of `setp`. An ordered one on a `.b` type is none. -/
def cmpAt {n : ℕ} (c : CmpOp) (t : Ty) (x y : BitVec n) : Option Bool :=
  match c, signed t, t with
  | _, _, .f32 | _, _, .f64 => none
  | .eq, _, _ => some (x == y)
  | .ne, _, _ => some (x != y)
  | _, _, .b32 | _, _, .b64 | _, _, .pred => none
  | .lt, true, _ => some (x.slt y)
  | .le, true, _ => some (x.sle y)
  | .gt, true, _ => some (y.slt x)
  | .ge, true, _ => some (y.sle x)
  | .lt, false, _ | .lo, _, _ => some (x.ult y)
  | .le, false, _ | .ls, _, _ => some (x.ule y)
  | .gt, false, _ | .hi, _, _ => some (y.ult x)
  | .ge, false, _ | .hs, _, _ => some (y.ule x)

def cmpVal (c : CmpOp) (t : Ty) (a b : Val) : Option Bool :=
  match width t with
  | .w32 => cmpAt c t (lo32 a) (lo32 b)
  | .w64 => cmpAt c t a b

/-- `cvt` between integer types: extend by the signedness of the source, or
    truncate. -/
def convert (dt st : Ty) (a : Val) : Val :=
  match width st, width dt with
  | .w32, .w32 => ext32 (lo32 a)
  | .w64, .w64 => a
  | .w64, .w32 => ext32 (lo32 a)
  | .w32, .w64 => if signed st then (lo32 a).signExtend 64 else ext32 (lo32 a)

def size (t : Ty) : Size :=
  match width t with
  | .w32 => .b4
  | .w64 => .b8

/-- A value at the width of a type. -/
def fit (t : Ty) (v : Val) : Val :=
  match width t with
  | .w32 => ext32 (lo32 v)
  | .w64 => v

/-- The value that an `atom` or `red` stores. -/
def atomVal (op : AtomOp) (t : Ty) (old b : Val) : Val :=
  match op with
  | .add => atWidth (width t) (fun _ x y => x + y) old b
  | .and => atWidth (width t) (fun _ x y => x &&& y) old b
  | .or => atWidth (width t) (fun _ x y => x ||| y) old b
  | .xor => atWidth (width t) (fun _ x y => x ^^^ y) old b
  | .exch => fit t b
  | .min => atWidth (width t) (fun _ x y => if (if signed t then x.sle y else x.ule y) then x else y) old b
  | .max => atWidth (width t) (fun _ x y => if (if signed t then y.sle x else y.ule x) then x else y) old b

/-- The data spaces. -/
inductive Sp where
  | global | shared
deriving DecidableEq

/-- Global memory and the shared memory of a thread's CTA. -/
structure Heap where
  g : Mem
  s : Mem

def Heap.at (h : Heap) : Sp → Mem
  | .global => h.g
  | .shared => h.s

def Heap.set (h : Heap) : Sp → Mem → Heap
  | .global, m => { h with g := m }
  | .shared, m => { h with s := m }

/-- What a thread does next. `atom` reads, stores and continues as one step. -/
inductive Action where
  | next (s : TState)
  | load (sp : Sp) (a : Addr) (sz : Size) (k : Val → TState)
  | store (sp : Sp) (a : Addr) (sz : Size) (v : Val) (s : TState)
  | atom (sp : Sp) (a : Addr) (sz : Size) (f : Val → Val) (k : Val → TState)
  | bar
  | done
  | fault

def jump (k : Kernel) (s : TState) (l : String) : Action :=
  match lookupLabel k.labels l with
  | some pc => .next { s with pc := pc }
  | none => .fault

/-- The address of a data access: a register or a shared variable, plus offset. -/
def dataAddr (c : Ctx) (s : TState) (sp : Space) : Address → Option (Sp × Addr)
  | .reg r off =>
    match sp with
    | .global => some (.global, s.r r + BitVec.ofInt 64 off)
    | .shared => some (.shared, s.r r + BitVec.ofInt 64 off)
    | .param => none
  | .param n off =>
    match sp with
    | .shared => some (.shared, c.sym n + BitVec.ofInt 64 off)
    | _ => none

def atomic (c : Ctx) (s : TState) (sp : Space) (t : Ty) (a : Address) (f : Val → Val) (k : Val → TState) :
    Action :=
  match dataAddr c s sp a with
  | some (sp, x) => .atom sp x (size t) f k
  | none => .fault

def fmt : Ty → FpModel.Fmt
  | .f64 => FpModel.Fmt.f64
  | _ => FpModel.Fmt.f32

/-- The bits of a float operand at the width of its type. -/
def fbits (t : Ty) (v : Val) : ℕ :=
  match width t with
  | .w32 => (lo32 v).toNat
  | .w64 => v.toNat

/-- The register value of a float result. A NaN takes its bits from the oracle. -/
def fres (c : Ctx) (s : TState) (t : Ty) : Option ℕ → Val
  | some x => BitVec.ofNat 64 x
  | none =>
    let v := fbits t (c.nan s)
    BitVec.ofNat 64 (if (fmt t).isNaN v then v else (fmt t).qnan)

/-- The integer that an operand holds. -/
def intOf (t : Ty) (v : Val) : ℤ :=
  match width t, signed t with
  | .w32, true => (lo32 v).toInt
  | .w32, false => (lo32 v).toNat
  | .w64, true => v.toInt
  | .w64, false => v.toNat

/-- `cvt` with a float side; other combinations are none. -/
def cvtFloat (c : Ctx) (s : TState) (dt st : Ty) (r : CvtRnd) (ftz sat : Bool) (a : Val) : Option Val :=
  match dt.isFloat, st.isFloat, r with
  | false, true, .i m =>
    let w := match width dt with
      | .w32 => 32
      | .w64 => 64
    let v := FpModel.toInt (fmt st) m (ftz && st = .f32) (signed dt) w (fbits st a)
    some (fit dt (BitVec.ofNat 64 v))
  | true, false, .f m =>
    some (fres c s dt ((fmt dt).sat sat (some (FpModel.ofInt (fmt dt) m false (intOf st a)))))
  | true, true, .i m =>
    if dt = st then
      some (fres c s dt ((fmt dt).sat sat (FpModel.roundIntegral (fmt dt) m (ftz && dt = .f32) (fbits st a))))
    else none
  | true, true, .f m =>
    if dt = .f32 ∧ st = .f64 then
      some (fres c s dt (FpModel.convertF (fmt dt) (fmt st) m ftz sat (fbits st a)))
    else none
  | true, true, .none =>
    if dt = .f64 ∧ st = .f32 then
      some (fres c s dt (FpModel.convertF (fmt dt) (fmt st) .rn ftz sat (fbits st a)))
    else none
  | _, _, _ => none

/-- The effect of one unguarded instruction. -/
def exec (k : Kernel) (c : Ctx) (s : TState) : Instr → Action
  | .add t d a b => .next (s.set d (atWidth (width t) (fun _ x y => x + y) (opVal c s a) (opVal c s b)))
  | .sub t d a b => .next (s.set d (atWidth (width t) (fun _ x y => x - y) (opVal c s a) (opVal c s b)))
  | .mulLo t d a b => .next (s.set d (atWidth (width t) (fun _ x y => x * y) (opVal c s a) (opVal c s b)))
  | .mulWide t d a b =>
    match t with
    | .u32 => .next (s.set d (ext32 (lo32 (opVal c s a)) * ext32 (lo32 (opVal c s b))))
    | .s32 => .next (s.set d ((lo32 (opVal c s a)).signExtend 64 * (lo32 (opVal c s b)).signExtend 64))
    | _ => .fault
  | .madLo t d a b e =>
    .next (s.set d (atWidth (width t) (fun _ x y => x + y)
      (atWidth (width t) (fun _ x y => x * y) (opVal c s a) (opVal c s b)) (opVal c s e)))
  | .and t d a b => .next (s.set d (atWidth (width t) (fun _ x y => x &&& y) (opVal c s a) (opVal c s b)))
  | .or t d a b => .next (s.set d (atWidth (width t) (fun _ x y => x ||| y) (opVal c s a) (opVal c s b)))
  | .xor t d a b => .next (s.set d (atWidth (width t) (fun _ x y => x ^^^ y) (opVal c s a) (opVal c s b)))
  | .not t d a => .next (s.set d (fit t (~~~opVal c s a)))
  | .shl t d a b => .next (s.set d (shiftBy (width t) (fun _ x n => x <<< n) (opVal c s a) (opVal c s b)))
  | .shr t d a b =>
    if signed t then
      .next (s.set d (shiftBy (width t) (fun _ x n => x.sshiftRight n) (opVal c s a) (opVal c s b)))
    else .next (s.set d (shiftBy (width t) (fun _ x n => x >>> n) (opVal c s a) (opVal c s b)))
  | .mov t d a => .next (s.set d (fit t (opVal c s a)))
  | .setp op t p a b =>
    match cmpVal op t (opVal c s a) (opVal c s b) with
    | some v => .next (s.setp p v)
    | none => .fault
  | .selp t d a b p => .next (s.set d (fit t (if s.p p then opVal c s a else opVal c s b)))
  | .cvt dt st d a => .next (s.set d (convert dt st (opVal c s a)))
  | .cvtaGlobal d a => .next (s.set d (opVal c s a))
  | .ld .param t d (.param n 0) => .next (s.set d (fit t (c.params n)))
  | .ld .param .. | .st .param .. => .fault
  | .ld sp t d a =>
    match dataAddr c s sp a with
    | some (sp, x) => .load sp x (size t) (fun v => s.set d v)
    | none => .fault
  | .st sp t a v =>
    match dataAddr c s sp a with
    | some (sp, x) => .store sp x (size t) (opVal c s v) s.skip
    | none => .fault
  | .atom sp op t d a b =>
    atomic c s sp t a (fun old => atomVal op t old (opVal c s b)) (fun old => s.set d (fit t old))
  | .cas sp t d a b e =>
    atomic c s sp t a (fun old => if fit t old = fit t (opVal c s b) then opVal c s e else old)
      (fun old => s.set d (fit t old))
  | .red sp op t a b => atomic c s sp t a (fun old => atomVal op t old (opVal c s b)) (fun _ => s.skip)
  | .bar => .bar
  | .bra _ l => jump k s l
  | .ret | .exit => .done
  | .fbin op m ftz sat t d a b =>
    let F := fmt t
    let x := fbits t (opVal c s a)
    let y := fbits t (opVal c s b)
    let r :=
      match op with
      | .add => FpModel.fadd F m ftz sat x y
      | .sub => FpModel.fsub F m ftz sat x y
      | .mul => FpModel.fmul F m ftz sat x y
      | .div => FpModel.fdiv F m ftz x y
    .next (s.set d (fres c s t r))
  | .ffma m ftz sat t d a b e =>
    .next (s.set d (fres c s t (FpModel.ffma (fmt t) m ftz sat (fbits t (opVal c s a)) (fbits t (opVal c s b))
      (fbits t (opVal c s e)))))
  | .fsqrt m ftz t d a => .next (s.set d (fres c s t (FpModel.fsqrt (fmt t) m ftz (fbits t (opVal c s a)))))
  | .frcp m ftz t d a => .next (s.set d (fres c s t (FpModel.frcp (fmt t) m ftz (fbits t (opVal c s a)))))
  | .fneg ftz t d a => .next (s.set d (fres c s t (FpModel.fneg (fmt t) ftz (fbits t (opVal c s a)))))
  | .fabs ftz t d a => .next (s.set d (fres c s t (FpModel.fabs (fmt t) ftz (fbits t (opVal c s a)))))
  | .fminmax mx ftz nan t d a b =>
    .next (s.set d (fres c s t
      (FpModel.fminmax (fmt t) mx ftz nan (fbits t (opVal c s a)) (fbits t (opVal c s b)))))
  | .fsetp op ftz t p a b =>
    .next (s.setp p (FpModel.fsetp (fmt t) op ftz (fbits t (opVal c s a)) (fbits t (opVal c s b))))
  | .cvtF dt st r ftz sat d a =>
    match cvtFloat c s dt st r ftz sat (opVal c s a) with
    | some v => .next (s.set d v)
    | none => .fault

def guardHolds (s : TState) : Option Guard → Bool
  | none => true
  | some g => s.p g.pred != g.neg

/-- The next action of a thread; past the end of the body it is a fault. -/
def action (k : Kernel) (c : Ctx) (s : TState) : Action :=
  match k.body[s.pc]? with
  | none => .fault
  | some st => if guardHolds s st.guard then exec k c s st.instr else .next s.skip

inductive AccKind where
  | read | write | atomic
deriving DecidableEq

structure Acc where
  sp : Sp
  a : Addr
  sz : Size
  kind : AccKind
deriving DecidableEq

def Action.acc : Action → Option Acc
  | .load sp a sz _ => some ⟨sp, a, sz, .read⟩
  | .store sp a sz _ _ => some ⟨sp, a, sz, .write⟩
  | .atom sp a sz _ _ => some ⟨sp, a, sz, .atomic⟩
  | _ => none

/-- The outcome of one step. -/
inductive TRes where
  | ok (s : TState) (h : Heap)
  | wait
  | halted
  | fault

/-- One step of a thread, with the allocations of each space. -/
def tstep (k : Kernel) (al : Sp → List Region) (c : Ctx) (s : TState) (h : Heap) : TRes :=
  match action k c s with
  | .next s => .ok s h
  | .load sp a sz k => if accessOk (al sp) a sz then .ok (k (rd (h.at sp) a sz)) h else .fault
  | .store sp a sz v s =>
    if accessOk (al sp) a sz then .ok s (h.set sp (wr (h.at sp) a sz v)) else .fault
  | .atom sp a sz f k =>
    if accessOk (al sp) a sz then
      .ok (k (rd (h.at sp) a sz)) (h.set sp (wr (h.at sp) a sz (f (rd (h.at sp) a sz))))
    else .fault
  | .bar => .wait
  | .done => .halted
  | .fault => .fault

end E5r.PtxModel
