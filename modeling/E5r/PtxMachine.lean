import E5r.FpBits

/-!
The interpreter of the subset: one step of one thread against global memory and
its CTA's shared memory. An outer none is a panic of a float operation.
-/
namespace E5r.PtxMachine
open PtxSyntax

/-- A `HashMap` as its lookups. -/
abbrev HashMap (κ ν : Type) := κ → Option ν

section
variable {κ ν : Type} [DecidableEq κ]
def HashMap.empty : HashMap κ ν := fun _ => none
def HashMap.insert (m : HashMap κ ν) (k : κ) (v : ν) : HashMap κ ν := Function.update m k (some v)
end

structure Dim3 where
  x : BitVec 32
  y : BitVec 32
  z : BitVec 32
deriving DecidableEq

def Dim3.get (v : Dim3) : Dim → BitVec 32
  | .x => v.x
  | .y => v.y
  | .z => v.z

/-- One allocation. -/
structure Region where
  base : BitVec 64
  size : BitVec 128
deriving DecidableEq

/-- What a thread observes of its launch; missing names read 0. -/
structure Ctx where
  tid : Dim3
  ntid : Dim3
  ctaid : Dim3
  nctaid : Dim3
  params : HashMap String (BitVec 64)
  sym : HashMap String (BitVec 64)

/-- Byte-addressed memory with a default of zero. -/
structure Mem where
  bytes : HashMap (BitVec 64) (BitVec 8)

def Mem.empty : Mem := ⟨HashMap.empty⟩
def Mem.get (m : Mem) (a : BitVec 64) : BitVec 8 := (m.bytes a).getD 0

/-- Little-endian read of `n` bytes, zero-extended. -/
def Mem.rd (m : Mem) (a : BitVec 64) (n : ℕ) : BitVec 64 :=
  (List.range n).reverse.foldl (fun v i => v <<< 8 ||| (m.get (a + BitVec.ofNat 64 i)).setWidth 64) 0

/-- Little-endian write of the low `n` bytes of a value. -/
def Mem.wr (m : Mem) (a : BitVec 64) (n : ℕ) (v : BitVec 64) : Mem :=
  (List.range n).foldl (fun m i => ⟨m.bytes.insert (a + BitVec.ofNat 64 i) ((v >>> (8 * i)).setWidth 8)⟩) m

structure TState where
  pc : ℕ
  r : HashMap String (BitVec 64)
  p : HashMap String Bool

/-- `TState::default` -/
def TState.init : TState := ⟨0, HashMap.empty, HashMap.empty⟩

inductive Sp where
  | global | shared
deriving DecidableEq

inductive Kind where
  | read | write | atomic
deriving DecidableEq

structure Access where
  sp : Sp
  addr : BitVec 64
  size : ℕ
  kind : Kind
deriving DecidableEq

inductive Fault where
  | pastEnd (pc : ℕ)
  | mulWideType
  | orderedBits
  | memoryForm
  | load (n : ℕ) (sp : Sp) (a : BitVec 64)
  | store (n : ℕ) (sp : Sp) (a : BitVec 64)
  | atomic (n : ℕ) (sp : Sp) (a : BitVec 64)
  | missingLabel (l : String)
  | cvtForm
deriving DecidableEq

/-- `{sp:?} {a:#x}` -/
private def place (sp : Sp) (a : BitVec 64) : String :=
  (match sp with
    | .global => "Global"
    | .shared => "Shared") ++ " 0x" ++ String.ofList (Nat.toDigits 16 a.toNat)

def Fault.text : Fault → String
  | .pastEnd pc => "pc " ++ toString pc ++ " past the end of the body"
  | .mulWideType => "mul.wide type"
  | .orderedBits => "ordered comparison on a .b type"
  | .memoryForm => "unsupported memory form"
  | .load n sp a => "load of " ++ toString n ++ " bytes at " ++ place sp a
  | .store n sp a => "store of " ++ toString n ++ " bytes at " ++ place sp a
  | .atomic n sp a => "atomic of " ++ toString n ++ " bytes at " ++ place sp a
  | .missingLabel l => "missing label " ++ l
  | .cvtForm => "cvt form outside the subset"

/-- The result of one step, with the access it made. -/
inductive Res where
  | ok (a : Option Access)
  | wait
  | halted
  | fault (why : Fault)
deriving DecidableEq

structure Allocs where
  global : List Region
  shared : List Region

def Allocs.of (al : Allocs) : Sp → List Region
  | .global => al.global
  | .shared => al.shared

def width (t : Ty) : ℕ := t.width.getD 32

def lo32 (v : BitVec 64) : BitVec 64 := v &&& 0xffffffff#64
def sext32 (v : BitVec 64) : BitVec 64 := (v.setWidth 32).signExtend 64
def imm (v : ℤ) : BitVec 64 := BitVec.ofInt 64 v

def isSigned (t : Ty) : Bool := t = .s32 || t = .s64

/-- Aligned, and inside one allocation, with the sums in 128 bits. -/
def accessOk (al : List Region) (a : BitVec 64) (n : ℕ) : Bool :=
  a.toNat % n = 0 &&
    al.any fun r => r.base.setWidth 128 ≤ a.setWidth 128 &&
      a.setWidth 128 + BitVec.ofNat 128 n ≤ r.base.setWidth 128 + r.size

def TState.reg (s : TState) (r : String) : BitVec 64 := (s.r r).getD 0
def TState.pred (s : TState) (r : String) : Bool := (s.p r).getD false

def TState.op (s : TState) (c : Ctx) : Operand → BitVec 64
  | .reg r => s.reg r
  | .imm v => imm v
  | .sreg x =>
    (match x with
      | .tid d => c.tid.get d
      | .ntid d => c.ntid.get d
      | .ctaid d => c.ctaid.get d
      | .nctaid d => c.nctaid.get d).setWidth 64
  | .sym n => (c.sym n).getD 0
  | .fimm v _ => v

def TState.set (s : TState) (d : String) (v : BitVec 64) : TState :=
  { s with r := s.r.insert d v, pc := s.pc + 1 }

def TState.setPred (s : TState) (d : String) (v : Bool) : TState :=
  { s with p := s.p.insert d v, pc := s.pc + 1 }

def TState.skip (s : TState) : TState := { s with pc := s.pc + 1 }

def atWidth (w : ℕ) (f : BitVec 64 → BitVec 64 → BitVec 64) (a b : BitVec 64) : BitVec 64 :=
  if w = 32 then lo32 (f (lo32 a) (lo32 b)) else f a b

def fit (t : Ty) (v : BitVec 64) : BitVec 64 := if width t = 32 then lo32 v else v

def signedAt (w : ℕ) (v : BitVec 64) : ℤ := if w = 32 then (v.setWidth 32).toInt else v.toInt

/-- A comparison of two numbers that are cut to the width of their type. -/
def cmpCut (c : CmpOp) (t : Ty) (x y : BitVec 64) : Option Bool :=
  let s := signedAt (width t)
  match c with
  | .eq => some (x = y)
  | .ne => some (x ≠ y)
  | c =>
    if t.isBits || t = .pred then none
    else
      match c, isSigned t with
      | .lt, true => some (s x < s y)
      | .le, true => some (s x ≤ s y)
      | .gt, true => some (s x > s y)
      | .ge, true => some (s x ≥ s y)
      | .lt, false | .lo, _ => some (x < y)
      | .le, false | .ls, _ => some (x ≤ y)
      | .gt, false | .hi, _ => some (x > y)
      | _, _ => some (x ≥ y)

def cmp (c : CmpOp) (t : Ty) (a b : BitVec 64) : Option Bool := cmpCut c t (fit t a) (fit t b)

def convert (dt st : Ty) (a : BitVec 64) : BitVec 64 :=
  match width st, width dt with
  | 32, 32 | 64, 32 => lo32 a
  | 64, 64 => a
  | _, _ => if isSigned st then sext32 a else lo32 a

inductive ShiftKind where
  | left | right | arithmetic

/-- A shift whose amount is clamped to the width. -/
def shift (w : ℕ) (a b : BitVec 64) (kind : ShiftKind) : BitVec 64 :=
  let n := min (lo32 b).toNat w
  if w = 32 then
    let x := (lo32 a).setWidth 32
    lo32 (match kind with
      | .left => if n ≥ 32 then 0 else (x <<< n).setWidth 64
      | .right => if n ≥ 32 then 0 else (x >>> n).setWidth 64
      | .arithmetic => (x.sshiftRight (min n 31)).setWidth 64)
  else
    match kind with
    | .left => if n ≥ 64 then 0 else a <<< n
    | .right => if n ≥ 64 then 0 else a >>> n
    | .arithmetic => a.sshiftRight (min n 63)

/-- The value that an `atom` or `red` stores. -/
def atomVal (op : AtomOp) (t : Ty) (old b : BitVec 64) : BitVec 64 :=
  let w := width t
  let le (x y : BitVec 64) : Bool := if isSigned t then signedAt w x ≤ signedAt w y else x ≤ y
  match op with
  | .add => atWidth w (· + ·) old b
  | .and => atWidth w (· &&& ·) old b
  | .or => atWidth w (· ||| ·) old b
  | .xor => atWidth w (· ^^^ ·) old b
  | .exch => fit t b
  | .min => atWidth w (fun x y => if le x y then x else y) old b
  | .max => atWidth w (fun x y => if le y x then x else y) old b

def dataAddr (c : Ctx) (s : TState) (sp : Space) (a : Address) : Option (Sp × BitVec 64) :=
  match sp, a with
  | .global, .reg r off => some (.global, s.reg r + imm (off.getD 0))
  | .shared, .reg r off => some (.shared, s.reg r + imm (off.getD 0))
  | .shared, .param n off => some (.shared, (c.sym n).getD 0 + imm (off.getD 0))
  | _, _ => none

/-- The format of a float type. -/
def fmt (t : Ty) : FpModel.Fmt := if t = .f64 then FpModel.Fmt.f64 else FpModel.Fmt.f32

def fbits (t : Ty) (v : BitVec 64) : BitVec 64 := fit t v

/-- A NaN result is the canonical one. -/
def fres (t : Ty) (r : Option (BitVec 64)) : BitVec 64 := r.getD (FpBits.qnan (fmt t))

def intOf (t : Ty) (v : BitVec 64) : ℤ :=
  match width t, isSigned t with
  | 32, true => (v.setWidth 32).toInt
  | 32, false => (v.setWidth 32).toNat
  | _, true => v.toInt
  | _, _ => v.toNat

/-- `cvt` with a float side; other combinations are an inner none. -/
def cvtFloat (dt st : Ty) (r : CvtRnd) (ftz sat : Bool) (a : BitVec 64) : Option (Option (BitVec 64)) :=
  let df := fmt dt
  let sf := fmt st
  match dt.isFloat, st.isFloat, r with
  | false, true, .i m => do
    let v ← FpBits.toInt sf m (ftz && st = .f32) (isSigned dt) (width dt) (fbits st a)
    return some (fit dt v)
  | true, false, .f m => do
    let v ← FpBits.ofInt df m false (intOf st a)
    return some (fres dt (FpBits.sat df sat (some v)))
  | true, true, .i m =>
    if dt = st then do
      let v ← FpBits.roundIntegral df m (ftz && dt = .f32) (fbits st a)
      return some (fres dt (FpBits.sat df sat v))
    else some none
  | true, true, .f m =>
    if dt = .f32 ∧ st = .f64 then do
      let v ← FpBits.convertF df sf m ftz sat (fbits st a)
      return some (fres dt v)
    else some none
  | true, true, .none =>
    if dt = .f64 ∧ st = .f32 then do
      let v ← FpBits.convertF df sf .rn ftz sat (fbits st a)
      return some (fres dt v)
    else some none
  | _, _, _ => some none

/-- What a step leaves behind. -/
structure Outcome where
  res : Res
  s : TState
  g : Mem
  sh : Mem

section
variable (k : Kernel) (al : Allocs) (c : Ctx) (s : TState) (g sh : Mem)

/-- A register write and nothing else. -/
def wrote (d : String) (v : BitVec 64) : Outcome := ⟨.ok none, s.set d v, g, sh⟩

def faulted (why : Fault) : Outcome := ⟨.fault why, s, g, sh⟩

/-- The memory of a space. -/
def memOf (sp : Sp) : Mem := if sp = .global then g else sh

/-- Both memories after a write to a space. -/
def wroteMem (sp : Sp) (a : BitVec 64) (n : ℕ) (v : BitVec 64) : Mem × Mem :=
  if sp = .global then (g.wr a n v, sh) else (g, sh.wr a n v)

def wroteFloat (t : Ty) (d : String) (r : Option (Option (BitVec 64))) : Option Outcome :=
  r.map fun r => wrote s g sh d (fres t r)

def load (sp : Space) (t : Ty) (d : String) (a : Address) : Outcome :=
  match dataAddr c s sp a with
  | none => faulted s g sh .memoryForm
  | some (sp, a) =>
    let n := width t / 8
    if !accessOk (al.of sp) a n then faulted s g sh (.load n sp a)
    else ⟨.ok (some ⟨sp, a, n, .read⟩), s.set d ((memOf g sh sp).rd a n), g, sh⟩

def store (sp : Space) (t : Ty) (a : Address) (v : Operand) : Outcome :=
  match dataAddr c s sp a with
  | none => faulted s g sh .memoryForm
  | some (sp, a) =>
    let n := width t / 8
    if !accessOk (al.of sp) a n then faulted s g sh (.store n sp a)
    else
      let (g, sh) := wroteMem g sh sp a n (s.op c v)
      ⟨.ok (some ⟨sp, a, n, .write⟩), s.skip, g, sh⟩

/-- A read and a write as one step; the old value goes to a register if there is
    one. -/
def atomic (sp : Space) (t : Ty) (a : Address) (new : BitVec 64 → BitVec 64) (d : Option String) : Outcome :=
  match dataAddr c s sp a with
  | none => faulted s g sh .memoryForm
  | some (sp, a) =>
    let n := width t / 8
    if !accessOk (al.of sp) a n then faulted s g sh (.atomic n sp a)
    else
      let old := (memOf g sh sp).rd a n
      let (g, sh) := wroteMem g sh sp a n (new old)
      let s :=
        match d with
        | some d => s.set d (fit t old)
        | none => s.skip
      ⟨.ok (some ⟨sp, a, n, .atomic⟩), s, g, sh⟩

def stepInstr (i : Instr) : Option Outcome :=
  match i with
  | .bin b t d x y =>
    let a := s.op c x
    let bb := s.op c y
    let w := width t
    match b with
    | .add => some (wrote s g sh d (atWidth w (· + ·) a bb))
    | .sub => some (wrote s g sh d (atWidth w (· - ·) a bb))
    | .mulLo => some (wrote s g sh d (atWidth w (· * ·) a bb))
    | .and => some (wrote s g sh d (atWidth w (· &&& ·) a bb))
    | .or => some (wrote s g sh d (atWidth w (· ||| ·) a bb))
    | .xor => some (wrote s g sh d (atWidth w (· ^^^ ·) a bb))
    | .shl => some (wrote s g sh d (shift w a bb .left))
    | .shr => some (wrote s g sh d (shift w a bb (if isSigned t then .arithmetic else .right)))
    | .mulWide =>
      match t with
      | .u32 => some (wrote s g sh d (lo32 a * lo32 bb))
      | .s32 => some (wrote s g sh d (sext32 a * sext32 bb))
      | _ => some (faulted s g sh .mulWideType)
  | .madLo t d x y z =>
    let w := width t
    let p := atWidth w (· * ·) (s.op c x) (s.op c y)
    some (wrote s g sh d (atWidth w (· + ·) p (s.op c z)))
  | .not t d a => some (wrote s g sh d (fit t (~~~s.op c a)))
  | .mov t d a => some (wrote s g sh d (fit t (s.op c a)))
  | .setp op t p a b =>
    match cmp op t (s.op c a) (s.op c b) with
    | some v => some ⟨.ok none, s.setPred p v, g, sh⟩
    | none => some (faulted s g sh .orderedBits)
  | .selp t d a b p => some (wrote s g sh d (fit t (if s.pred p then s.op c a else s.op c b)))
  | .cvt dt st d a => some (wrote s g sh d (convert dt st (s.op c a)))
  | .cvtaGlobal d a => some (wrote s g sh d (s.op c a))
  | .ld .param t d a =>
    match a with
    | .param n off =>
      if off.getD 0 = 0 then some (wrote s g sh d (fit t ((c.params n).getD 0)))
      else some (faulted s g sh .memoryForm)
    | .reg .. => some (faulted s g sh .memoryForm)
  | .st .param .. => some (faulted s g sh .memoryForm)
  | .ld sp t d a => some (load al c s g sh sp t d a)
  | .st sp t a v => some (store al c s g sh sp t a v)
  | .atom sp op t d a b => some (atomic al c s g sh sp t a (fun old => atomVal op t old (s.op c b)) (some d))
  | .red sp op t a b => some (atomic al c s g sh sp t a (fun old => atomVal op t old (s.op c b)) none)
  | .cas sp t d a b e =>
    some (atomic al c s g sh sp t a
      (fun old => if fit t old = fit t (s.op c b) then s.op c e else old) (some d))
  | .bar => some ⟨.wait, s, g, sh⟩
  | .bra _ l =>
    match k.labels.find? (fun m => m.1 = l) with
    | some (_, pc) => some ⟨.ok none, { s with pc := pc }, g, sh⟩
    | none => some (faulted s g sh (.missingLabel l))
  | .ret | .exit => some ⟨.halted, s, g, sh⟩
  | .fbin op m ftz sat t d a b =>
    let f := fmt t
    let x := fbits t (s.op c a)
    let y := fbits t (s.op c b)
    wroteFloat s g sh t d
      (match op with
      | .add => FpBits.fadd f m ftz sat x y
      | .sub => FpBits.fsub f m ftz sat x y
      | .mul => FpBits.fmul f m ftz sat x y
      | .div => FpBits.fdiv f m ftz x y)
  | .ffma m ftz sat t d a b e =>
    wroteFloat s g sh t d
      (FpBits.ffma (fmt t) m ftz sat (fbits t (s.op c a)) (fbits t (s.op c b)) (fbits t (s.op c e)))
  | .fsqrt m ftz t d a => wroteFloat s g sh t d (FpBits.fsqrt (fmt t) m ftz (fbits t (s.op c a)))
  | .frcp m ftz t d a => wroteFloat s g sh t d (FpBits.frcp (fmt t) m ftz (fbits t (s.op c a)))
  | .fneg ftz t d a => wroteFloat s g sh t d (some (FpBits.fneg (fmt t) ftz (fbits t (s.op c a))))
  | .fabs ftz t d a => wroteFloat s g sh t d (some (FpBits.fabs (fmt t) ftz (fbits t (s.op c a))))
  | .fminmax mx ftz nan t d a b =>
    wroteFloat s g sh t d
      (some (FpBits.fminmax (fmt t) mx ftz nan (fbits t (s.op c a)) (fbits t (s.op c b))))
  | .fsetp op ftz t p a b =>
    some ⟨.ok none, s.setPred p (FpBits.fsetp (fmt t) op ftz (fbits t (s.op c a)) (fbits t (s.op c b))), g, sh⟩
  | .cvtF dt st r ftz sat d a =>
    (cvtFloat dt st r ftz sat (s.op c a)).map fun
      | some v => wrote s g sh d v
      | none => faulted s g sh .cvtForm

/-- One step of a thread. A guard that does not hold skips the statement. -/
def step : Option Outcome :=
  match k.body[s.pc]? with
  | none => some (faulted s g sh (.pastEnd s.pc))
  | some st =>
    match st.guard with
    | some gd =>
      if s.pred gd.pred = gd.neg then some ⟨.ok none, s.skip, g, sh⟩
      else stepInstr k al c s g sh st.instr
    | none => stepInstr k al c s g sh st.instr

theorem step_cases :
    k.body[s.pc]? = none ∧ step k al c s g sh = some (faulted s g sh (.pastEnd s.pc)) ∨
      ∃ st, k.body[s.pc]? = some st ∧
        ((∃ gd, st.guard = some gd ∧ s.pred gd.pred = gd.neg) ∧
            step k al c s g sh = some ⟨.ok none, s.skip, g, sh⟩ ∨
          (∀ gd, st.guard = some gd → s.pred gd.pred ≠ gd.neg) ∧
            step k al c s g sh = stepInstr k al c s g sh st.instr) := by
  unfold step
  cases k.body[s.pc]? with
  | none => exact .inl ⟨rfl, rfl⟩
  | some st =>
    refine .inr ⟨st, rfl, ?_⟩
    cases guard : st.guard with
    | none => exact .inr ⟨by simp, by simp only [guard]⟩
    | some gd =>
      by_cases skipped : s.pred gd.pred = gd.neg
      · exact .inl ⟨⟨gd, rfl, skipped⟩, by simp only [guard, if_pos skipped]⟩
      · refine .inr ⟨?_, by simp only [guard, if_neg skipped]⟩
        rintro other ⟨⟩
        exact skipped
end

section
variable {k : Kernel} {al : Allocs} {c : Ctx} {s : TState} {g sh : Mem}

/-- An instruction goes on, faults, waits as a barrier or ends the thread; only
    one that goes on changes anything. -/
inductive Ends (s : TState) (g sh : Mem) (i : Instr) : Outcome → Prop where
  | goes {o : Outcome} (a : Option Access) (on : o.res = .ok a) : Ends s g sh i o
  | faults (why : Fault) : Ends s g sh i (faulted s g sh why)
  | waits (at_ : i = .bar) : Ends s g sh i ⟨.wait, s, g, sh⟩
  | halts (at_ : i = .ret ∨ i = .exit) : Ends s g sh i ⟨.halted, s, g, sh⟩

variable {i : Instr} {sp : Space} {t : Ty} {a : Address}

theorem ends_load {d : String} : Ends s g sh i (load al c s g sh sp t d a) := by
  unfold load
  split
  · exact .faults _
  · dsimp only
    split
    · exact .faults _
    · exact .goes _ rfl

theorem ends_store {v : Operand} : Ends s g sh i (store al c s g sh sp t a v) := by
  unfold store
  split
  · exact .faults _
  · dsimp only
    split
    · exact .faults _
    · exact .goes _ rfl

theorem ends_atomic {new : BitVec 64 → BitVec 64} {d : Option String} :
    Ends s g sh i (atomic al c s g sh sp t a new d) := by
  unfold atomic
  split
  · exact .faults _
  · dsimp only
    split
    · exact .faults _
    · exact .goes _ rfl

variable {o : Outcome}

theorem ends_float {d : String} {r : Option (Option (BitVec 64))} (executed : wroteFloat s g sh t d r = some o) :
    Ends s g sh i o := by
  obtain ⟨v, -, rfl⟩ := Option.map_eq_some_iff.mp executed
  exact .goes _ rfl

theorem ends_stepInstr (executed : stepInstr k al c s g sh i = some o) : Ends s g sh i o := by
  cases i with
  | bar =>
    cases executed
    exact .waits rfl
  | ret =>
    cases executed
    exact .halts (.inl rfl)
  | exit =>
    cases executed
    exact .halts (.inr rfl)
  | bin op t d x y =>
    cases op with
    | mulWide =>
      cases t <;>
      · cases executed
        first
          | exact .goes _ rfl
          | exact .faults _
    | _ =>
      cases executed
      exact .goes _ rfl
  | setp op t p a b =>
    simp only [stepInstr] at executed
    split at executed <;> cases executed
    · exact .goes _ rfl
    · exact .faults _
  | ld sp t d a =>
    cases sp with
    | param =>
      cases a with
      | reg r off =>
        cases executed
        exact .faults _
      | param n off =>
        simp only [stepInstr] at executed
        split at executed <;> cases executed
        · exact .goes _ rfl
        · exact .faults _
    | _ =>
      cases executed
      exact ends_load
  | st sp t a v =>
    cases sp with
    | param =>
      cases executed
      exact .faults _
    | _ =>
      cases executed
      exact ends_store
  | atom sp op t d a b | red sp op t a b | cas sp t d a b e =>
    cases executed
    exact ends_atomic
  | bra u l =>
    simp only [stepInstr] at executed
    split at executed <;> cases executed
    · exact .goes _ rfl
    · exact .faults _
  | fbin | ffma | fsqrt | frcp | fneg | fabs | fminmax => exact ends_float executed
  | cvtF dt st r ftz sat d a =>
    obtain ⟨v, -, rfl⟩ := Option.map_eq_some_iff.mp executed
    cases v with
    | none => exact .faults _
    | some v => exact .goes _ rfl
  | _ =>
    cases executed
    exact .goes _ rfl

/-- The statement a thread is at, when its guard holds. -/
def Reaches (k : Kernel) (s : TState) (i : Instr) : Prop :=
  ∃ st, k.body[s.pc]? = some st ∧ (∀ gd, st.guard = some gd → s.pred gd.pred ≠ gd.neg) ∧ st.instr = i

theorem step_of_reaches (reached : Reaches k s i) : step k al c s g sh = stepInstr k al c s g sh i := by
  obtain ⟨st, here, guard, rfl⟩ := reached
  rcases step_cases k al c s g sh with ⟨missing, -⟩ | ⟨st', there, ⟨⟨gd, guarded, skipped⟩, -⟩ | ⟨-, run⟩⟩
  · rw [here] at missing
    cases missing
  · rw [here] at there
    cases there
    exact absurd skipped (guard gd guarded)
  · rw [here] at there
    cases there
    exact run

theorem step_ends (executed : step k al c s g sh = some o) :
    (∃ a, o.res = .ok a) ∨ (∃ why, o = faulted s g sh why) ∨ (Reaches k s .bar ∧ o = ⟨.wait, s, g, sh⟩) ∨
      ((Reaches k s .ret ∨ Reaches k s .exit) ∧ o = ⟨.halted, s, g, sh⟩) := by
  rcases step_cases k al c s g sh with ⟨-, run⟩ | ⟨st, here, ⟨-, run⟩ | ⟨guard, run⟩⟩
  · rw [run] at executed
    cases executed
    exact .inr (.inl ⟨_, rfl⟩)
  · rw [run] at executed
    cases executed
    exact .inl ⟨_, rfl⟩
  · have reached : Reaches k s st.instr := ⟨st, here, guard, rfl⟩
    generalize st.instr = i at run reached
    cases ends_stepInstr (run.symm.trans executed) with
    | goes a on => exact .inl ⟨a, on⟩
    | faults why => exact .inr (.inl ⟨why, rfl⟩)
    | waits at_ => exact .inr (.inr (.inl ⟨at_ ▸ reached, rfl⟩))
    | halts at_ =>
      rcases at_ with rfl | rfl
      · exact .inr (.inr (.inr ⟨.inl reached, rfl⟩))
      · exact .inr (.inr (.inr ⟨.inr reached, rfl⟩))

/-- An outcome that waits or halts leaves everything as it was. -/
def Rests (s : TState) (g sh : Mem) (o : Outcome) : Prop :=
  o.res = .wait ∨ o.res = .halted → o.s = s ∧ o.g = g ∧ o.sh = sh

theorem rests_step (executed : step k al c s g sh = some o) : Rests s g sh o := by
  intro ended
  rcases step_ends executed with ⟨a, on⟩ | ⟨why, rfl⟩ | ⟨-, rfl⟩ | ⟨-, rfl⟩
  · rw [on] at ended
    rcases ended with ended | ended <;> cases ended
  · exact ⟨rfl, rfl, rfl⟩
  · exact ⟨rfl, rfl, rfl⟩
  · exact ⟨rfl, rfl, rfl⟩
end

end E5r.PtxMachine
