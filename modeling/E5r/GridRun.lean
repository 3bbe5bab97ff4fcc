import E5r.BlockSearch
import E5r.Chunks

/-!
The interpreter's run of a whole launch on one schedule: CTA after CTA in the
order of the launch's threads, each thread of a CTA until it waits or halts, and
the barrier when all of them wait at one place.
-/
namespace E5r.GridRun
open Chunks
open GridModel (range32)
open PtxSyntax PtxMachine PtxValues
open BlockSearch (Launch End Solo Stepper runUntilWait)

/-- Every thread of a launch: CTAs z, y, x, then threads z, y, x. -/
def threads (l : Launch) : List (Dim3 × Dim3) :=
  (range32 l.grid.z).flatMap fun cz => (range32 l.grid.y).flatMap fun cy => (range32 l.grid.x).flatMap fun cx =>
    (range32 l.block.z).flatMap fun tz => (range32 l.block.y).flatMap fun ty => (range32 l.block.x).map fun tx =>
      (⟨cx, cy, cz⟩, ⟨tx, ty, tz⟩)

/-- One access of a run: the index of its thread, the barriers its CTA had
    passed, the thread's step and the access. -/
structure Event where
  thread : ℕ
  phase : ℕ
  step : ℕ
  access : Access
deriving DecidableEq

inductive GridEnd where
  | done
  | fault (thread : ℕ) (why : String)
  | diverged (thread : ℕ)
  | outOfFuel
deriving DecidableEq

/-- What a run returns, with the global memory it leaves. -/
structure Report where
  ended : GridEnd
  events : List Event
  g : Mem

/-- A part of a run: none is a panic, an error the report of an early return. -/
abbrev Turn := ExceptT Report Option

/-- The variables of a run, with those of its current CTA. -/
structure St where
  events : List Event
  g : Mem
  left : ℕ
  sh : Mem
  ts : List TState
  steps : List ℕ
  phase : ℕ
  ends : List End

section
variable (step : Stepper) (l : Launch)

/-- One thread of a CTA until its barrier. -/
def turn (ci per : ℕ) (ctxs : List Ctx) (st : St) (i : ℕ) : Turn St :=
  match ctxs[i]? with
  | none => none
  | some c =>
    match runUntilWait step c (st.ts.getD i TState.init) st.g st.sh st.left with
    | none => none
    | some r =>
      let idx := ci * per + i
      let events := st.events ++ r.acc.map fun (n, a) => ⟨idx, st.phase, st.steps.getD i 0 + n, a⟩
      match r.e with
      | .halted used | .wait used =>
        pure { events := events, g := r.g, left := st.left - used, sh := r.sh, ts := st.ts.set i r.s,
               steps := st.steps.set i (st.steps.getD i 0 + used), phase := st.phase, ends := st.ends ++ [r.e] }
      | .fault _ why => throw ⟨.fault idx why.text, events, r.g⟩
      | .outOfFuel => throw ⟨.outOfFuel, events, r.g⟩

/-- The barrier after all threads of a CTA ran; none when they all halted. -/
def barrier (ci per : ℕ) (st : St) : Turn (Option St) :=
  let waiting := (List.range st.ts.length).filter fun i => (st.ends.getD i .outOfFuel).isWait
  match waiting with
  | [] => pure none
  | first :: _ =>
    let pc := (st.ts.getD first TState.init).pc
    if waiting.length ≠ st.ts.length ∨ waiting.any fun i => (st.ts.getD i TState.init).pc ≠ pc then
      throw ⟨.diverged (ci * per + first), st.events, st.g⟩
    else if st.left = 0 then throw ⟨.outOfFuel, st.events, st.g⟩
    else pure (some { st with left := st.left - 1, ts := st.ts.map TState.skip, phase := st.phase + 1 })

/-- The phases of a CTA. Each barrier takes one unit of fuel. -/
def phases (ci per : ℕ) (ctxs : List Ctx) : ℕ → St → Turn St
  | 0, st => throw ⟨.outOfFuel, st.events, st.g⟩
  | n + 1, st => do
    let st ← (List.range st.ts.length).foldlM (turn step ci per ctxs) { st with ends := [] }
    match ← barrier ci per st with
    | none => pure st
    | some st => phases ci per ctxs n st

/-- The threads of one CTA from their start, over fresh shared memory. -/
def block (per : ℕ) (sh₀ : Mem) (st : St) (part : List (Dim3 × Dim3) × ℕ) : Turn St :=
  phases step part.2 per (part.1.map fun (c, t) => l.ctx c t) (st.left + 1)
    { st with sh := sh₀, ts := List.replicate part.1.length TState.init, steps := List.replicate part.1.length 0,
              phase := 0 }

/-- The run of a launch with a given step of its threads. -/
def runWith (g sh₀ : Mem) (fuel : ℕ) : Option Report :=
  let per := l.block.x.toNat * l.block.y.toNat * l.block.z.toNat
  if per = 0 then some ⟨.done, [], g⟩
  else
    match (chunks (max per 1) (threads l)).zipIdx.foldlM (block step l per sh₀)
        (⟨[], g, fuel, Mem.empty, [], [], 0, []⟩ : St) with
    | none => none
    | some (.error r) => some r
    | some (.ok st) => some ⟨.done, st.events, st.g⟩
end

def runGrid (k : Kernel) (l : Launch) (g sh₀ : Mem) (fuel : ℕ) : Option Report :=
  runWith (PtxMachine.step k (l.allocs k)) l g sh₀ fuel

/-- The threads of one CTA of a one-dimensional launch. -/
def row (l : Launch) (ci : ℕ) : List (Dim3 × Dim3) :=
  (range32 l.block.x).map fun tx => (⟨BitVec.ofNat 32 ci, 0, 0⟩, ⟨tx, 0, 0⟩)

theorem length_range32 (n : BitVec 32) : (range32 n).length = n.toNat := by
  rw [range32, List.length_map, List.length_range]

/-- A launch of one dimension runs its CTAs by their numbers. -/
theorem chunks_threads {l : Launch} (gridY : l.grid.y = 1) (gridZ : l.grid.z = 1) (blockY : l.block.y = 1)
    (blockZ : l.block.z = 1) (some : 0 < l.block.x.toNat) :
    (chunks l.block.x.toNat (threads l)).zipIdx = (List.range l.grid.x.toNat).map fun ci => (row l ci, ci) := by
  have one : range32 1#32 = [0#32] := by decide
  have whole : threads l = (range32 l.grid.x).flatMap fun cx =>
      (range32 l.block.x).map fun tx => ((⟨cx, 0, 0⟩, ⟨tx, 0, 0⟩) : Dim3 × Dim3) := by
    rw [threads, gridY, gridZ, blockY, blockZ]
    show (range32 1#32).flatMap _ = _
    simp only [one]
    simp [one]
  rw [whole, chunks_flatMap some _ (fun _ _ => by rw [List.length_map, length_range32])]
  apply List.ext_getElem
  · simp [length_range32]
  · intro i left right
    simp [row, range32]

end E5r.GridRun
