import E5r.GridModel
import E5r.PtxStepRefines

/-!
The counterexample search for kernels with barriers: one schedule of the whole
grid on the interpreter, recorded as the choices that the model replays, and the
first pair of recorded accesses that race.
-/
namespace E5r.BlockSearch
open PtxSyntax PtxMachine PtxValues

structure Launch where
  grid : Dim3
  block : Dim3
  params : HashMap String (BitVec 64)
  sym : HashMap String (BitVec 64)
  alloc : List Region

/-- The context of one thread. -/
def Launch.ctx (l : Launch) (cta tid : Dim3) : Ctx := ⟨tid, l.block, cta, l.grid, l.params, l.sym⟩

def sharedRegions (k : Kernel) (sym : HashMap String (BitVec 64)) : List Region :=
  k.shared.map fun d => ⟨(sym d.name).getD 0, BitVec.ofNat 128 d.size⟩

def Launch.allocs (l : Launch) (k : Kernel) : Allocs := ⟨l.alloc, sharedRegions k l.sym⟩

/-- How a solo run of one thread ended, after how many steps. -/
inductive End where
  | halted (n : ℕ)
  | wait (n : ℕ)
  | fault (n : ℕ) (why : Fault)
  | outOfFuel

def End.isWait : End → Bool
  | .wait _ => true
  | _ => false

/-- The end of a solo run, its accesses with the steps they were made at, and
    what it leaves behind. -/
structure Solo where
  e : End
  acc : List (ℕ × Access)
  s : TState
  g : Mem
  sh : Mem

/-- The step of a thread, against its context. -/
abbrev Stepper := Ctx → TState → Mem → Mem → Option Outcome

section
variable (step : Stepper) (l : Launch)

def soloLoop (c : Ctx) : ℕ → ℕ → TState → Mem → Mem → List (ℕ × Access) → Option Solo
  | 0, _, s, g, sh, acc => some ⟨.outOfFuel, acc, s, g, sh⟩
  | fuel + 1, i, s, g, sh, acc =>
    match step c s g sh with
    | none => none
    | some o =>
      match o.res with
      | .ok a => soloLoop c fuel (i + 1) o.s o.g o.sh (acc ++ (a.map fun a => (i, a)).toList)
      | .wait => some ⟨.wait i, acc, o.s, o.g, o.sh⟩
      | .halted => some ⟨.halted i, acc, o.s, o.g, o.sh⟩
      | .fault why => some ⟨.fault i why, acc, o.s, o.g, o.sh⟩

/-- Run one thread alone until it halts, faults or reaches a barrier. -/
def runUntilWait (c : Ctx) (s : TState) (g sh : Mem) (fuel : ℕ) : Option Solo := soloLoop step c fuel 0 s g sh []

/-- Run thread `(cta, tid)` for some steps, or release a CTA's barrier. -/
inductive Choice where
  | run (t : ℕ × ℕ) (n : ℕ)
  | rel (cta : ℕ)
deriving DecidableEq

/-- A recorded access: the choices before its thread ran and the steps of the
    thread before it. -/
structure Ev where
  t : ℕ × ℕ
  cta : ℕ
  phase : ℕ
  access : Access
  prefix_ : ℕ
  within : ℕ
deriving DecidableEq

inductive Ran where
  | done
  | fault (t : Option (ℕ × ℕ)) (why : String)
  | fuel
deriving DecidableEq

/-- What a run returns, with the global memory it leaves. -/
structure Report where
  ran : Ran
  ch : List Choice
  evs : List Ev
  g : Mem

/-- A part of a run: none is a panic, an error the report of an early return. -/
abbrev Turn := ExceptT Report Option

/-- The variables of a run, with those of its current CTA. -/
structure St where
  ch : List Choice
  evs : List Ev
  g : Mem
  left : ℕ
  sh : Mem
  ts : List TState
  phase : ℕ
  ends : List End

/-- One thread of a CTA until its barrier. -/
def turn (cta : ℕ) (st : St) (t : ℕ) : Turn St :=
  match runUntilWait step (l.ctx ⟨BitVec.ofNat 32 cta, 0, 0⟩ ⟨BitVec.ofNat 32 t, 0, 0⟩) (st.ts.getD t TState.init)
      st.g st.sh st.left with
  | none => none
  | some r =>
    let evs := st.evs ++ r.acc.map fun (i, a) => ⟨(cta, t), cta, st.phase, a, st.ch.length, i⟩
    match r.e with
    | .halted used | .wait used =>
      pure { st with ch := st.ch ++ [.run (cta, t) used], evs := evs, g := r.g, left := st.left - used,
                     sh := r.sh, ts := st.ts.set t r.s, ends := st.ends ++ [r.e] }
    | .fault used why => throw ⟨.fault (some (cta, t)) why.text, st.ch ++ [.run (cta, t) used], evs, r.g⟩
    | .outOfFuel => throw ⟨.fuel, st.ch, evs, r.g⟩

/-- The barrier after all threads of a CTA ran; none when they all halted. -/
def barrier (cta : ℕ) (st : St) : Turn (Option St) :=
  let waiting := (List.range st.ends.length).filter fun i => (st.ends.getD i .outOfFuel).isWait
  match waiting with
  | [] => pure none
  | first :: _ =>
    let pc := (st.ts.getD first TState.init).pc
    if waiting.length ≠ st.ts.length ∨ waiting.any fun i => (st.ts.getD i TState.init).pc ≠ pc then
      throw ⟨.fault none "barrier diverged", st.ch, st.evs, st.g⟩
    else
      let ch := st.ch ++ [.rel cta]
      if st.left = 0 then throw ⟨.fuel, ch, st.evs, st.g⟩
      else pure (some { st with ch := ch, left := st.left - 1, ts := st.ts.map TState.skip, phase := st.phase + 1 })

def St.release (cta : ℕ) (st : St) : St :=
  { st with ch := st.ch ++ [.rel cta], left := st.left - 1, ts := st.ts.map TState.skip, phase := st.phase + 1 }

/-- All threads that ran wait at the same place as thread `first`. -/
def St.Together (st : St) (first : ℕ) : Prop :=
  ∀ i < st.ends.length, (st.ends.getD i .outOfFuel).isWait = true ∧
    (st.ts.getD i TState.init).pc = (st.ts.getD first TState.init).pc

theorem barrier_cases {st : St} (len : st.ends.length = st.ts.length) (cta : ℕ) :
    ((∀ i < st.ends.length, (st.ends.getD i .outOfFuel).isWait = false) ∧ barrier cta st = pure none) ∨
      ∃ first < st.ends.length, (st.ends.getD first .outOfFuel).isWait = true ∧
        (¬st.Together first ∧ barrier cta st = throw ⟨.fault none "barrier diverged", st.ch, st.evs, st.g⟩ ∨
          st.Together first ∧ barrier cta st =
            if st.left = 0 then throw ⟨.fuel, st.ch ++ [.rel cta], st.evs, st.g⟩ else pure (some (st.release cta))) := by
  unfold barrier
  cases waiting : (List.range st.ends.length).filter fun i => (st.ends.getD i .outOfFuel).isWait with
  | nil =>
    refine .inl ⟨?_, rfl⟩
    intro i inside
    have none := List.filter_eq_nil_iff.mp waiting i (List.mem_range.mpr inside)
    simpa using none
  | cons first rest =>
    have member (i : ℕ) : i ∈ first :: rest ↔ i < st.ends.length ∧ (st.ends.getD i .outOfFuel).isWait = true := by
      rw [← waiting, List.mem_filter, List.mem_range]
    obtain ⟨inside, waits⟩ := (member first).mp (List.mem_cons_self ..)
    refine .inr ⟨first, inside, waits, ?_⟩
    have all : (first :: rest).length = st.ts.length ↔
        ∀ i < st.ends.length, (st.ends.getD i .outOfFuel).isWait = true := by
      conv_lhs => rw [← waiting, ← len]
      conv_lhs => rhs; rw [← List.length_range (n := st.ends.length)]
      rw [List.length_filter_eq_length_iff]
      simp only [List.mem_range]
    have pcs : ((first :: rest).any fun i => decide ((st.ts.getD i TState.init).pc ≠ (st.ts.getD first TState.init).pc)) =
        true ↔ ∃ i < st.ends.length, (st.ends.getD i .outOfFuel).isWait = true ∧
          (st.ts.getD i TState.init).pc ≠ (st.ts.getD first TState.init).pc := by
      simp only [List.any_eq_true, decide_eq_true_eq]
      constructor
      · rintro ⟨i, isMember, differs⟩
        exact ⟨i, ((member i).mp isMember).1, ((member i).mp isMember).2, differs⟩
      · rintro ⟨i, bound, isWait, differs⟩
        exact ⟨i, (member i).mpr ⟨bound, isWait⟩, differs⟩
    by_cases together : st.Together first
    · right
      refine ⟨together, ?_⟩
      have passes : ¬((first :: rest).length ≠ st.ts.length ∨
          ((first :: rest).any fun i =>
            decide ((st.ts.getD i TState.init).pc ≠ (st.ts.getD first TState.init).pc)) = true) := by
        rw [not_or, not_not, all, pcs]
        refine ⟨fun i bound => (together i bound).1, ?_⟩
        rintro ⟨i, bound, -, differs⟩
        exact differs (together i bound).2
      dsimp only
      rw [if_neg passes]
      rfl
    · left
      refine ⟨together, ?_⟩
      have diverged : (first :: rest).length ≠ st.ts.length ∨
          ((first :: rest).any fun i =>
            decide ((st.ts.getD i TState.init).pc ≠ (st.ts.getD first TState.init).pc)) = true := by
        by_contra passes
        rw [not_or, not_not, all, pcs] at passes
        refine together (fun i bound => ⟨passes.1 i bound, ?_⟩)
        by_contra differs
        exact passes.2 ⟨i, bound, passes.1 i bound, differs⟩
      dsimp only
      rw [if_pos diverged]

/-- The phases of a CTA. Each barrier takes one unit of fuel. -/
def phases (cta : ℕ) : ℕ → St → Turn St
  | 0, st => throw ⟨.fuel, st.ch, st.evs, st.g⟩
  | n + 1, st => do
    let st ← (List.range l.block.x.toNat).foldlM (turn step l cta) { st with ends := [] }
    match ← barrier cta st with
    | none => pure st
    | some st => phases cta n st

/-- One CTA from its start. -/
def block (st : St) (cta : ℕ) : Turn St :=
  phases step l cta (st.left + 1)
    { st with sh := Mem.empty, ts := List.replicate l.block.x.toNat TState.init, phase := 0 }

def runWith (g : Mem) (fuel : ℕ) : Option Report :=
  match (List.range l.grid.x.toNat).foldlM (block step l) (⟨[], [], g, fuel, Mem.empty, [], 0, []⟩ : St) with
  | none => none
  | some (.error r) => some r
  | some (.ok st) => some ⟨.done, st.ch, st.evs, st.g⟩
end

def run (k : Kernel) (l : Launch) (g : Mem) (fuel : ℕ) : Option Report :=
  runWith (PtxMachine.step k (l.allocs k)) l g fuel

/-- The first common byte of two accesses. -/
def overlap (x y : Access) : Option (BitVec 64) :=
  let lo := if x.addr ≤ y.addr then y.addr else x.addr
  let ex := x.addr + BitVec.ofNat 64 x.size
  let ey := y.addr + BitVec.ofNat 64 y.size
  let hi := if ex ≤ ey then ex else ey
  if lo < hi then some lo else none

/-- `Witness::Race` -/
structure Witness where
  s1 : List Choice
  s2 : List Choice
  t : ℕ × ℕ
  u : ℕ × ℕ
  x : Access
  y : Access
  byte : BitVec 64
deriving DecidableEq

/-- The schedule up to a recorded access. -/
def pre (ch : List Choice) (e : Ev) : List Choice := ch.take e.prefix_ ++ [.run e.t e.within]

def racePair (ch : List Choice) (a b : Ev) : Option Witness :=
  if a.t = b.t ∨ a.access.sp ≠ b.access.sp then none
  else if a.access.sp = .shared ∧ a.cta ≠ b.cta then none
  else if a.access.kind = .read ∧ b.access.kind = .read then none
  else
    match overlap a.access b.access with
    | none => none
    | some byte =>
      if a.access.kind = .atomic ∧ b.access.kind = .atomic ∧ a.access.addr = b.access.addr ∧
          a.access.size = b.access.size then none
      else if a.cta = b.cta ∧ a.phase ≠ b.phase then none
      else some ⟨pre ch a, pre ch b, a.t, b.t, a.access, b.access, byte⟩

def race (ch : List Choice) : List Ev → Option Witness
  | [] => none
  | a :: rest => (rest.findSome? (racePair ch a)).or (race ch rest)

end E5r.BlockSearch
