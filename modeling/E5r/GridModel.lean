import E5r.PtxModel

/-!
The reference model of a whole launch: every thread of every CTA over global
memory and the shared memory of its CTA, barriers that a CTA passes together,
and the schedules that replay one execution.
-/
namespace E5r.GridModel
open PtxModel

/-- A thread: its CTA index and its index inside the CTA. -/
structure Tid where
  ctaid : Dim3
  tid : Dim3
deriving DecidableEq

/-- The shape of a launch, its parameters, its global allocations and the places
    of its shared variables, with the NaN oracle of each thread. -/
structure Launch where
  grid : Dim3
  block : Dim3
  params : String → Val
  alloc : List Region
  shared : String → Addr
  nan : Tid → TState → Val

def Launch.ctx (L : Launch) (t : Tid) : Ctx :=
  { tid := t.tid, ntid := L.block, ctaid := t.ctaid, nctaid := L.grid, params := L.params, sym := L.shared,
    nan := L.nan t }

/-- The shared variables of a kernel as placed by the launch. -/
def Launch.sregions (L : Launch) (K : Kernel) : List Region := K.shared.map fun v => ⟨L.shared v.name, v.size⟩

def Launch.allocs (L : Launch) (K : Kernel) : Sp → List Region
  | .global => L.alloc
  | .shared => L.sregions K

/-- Indices of one dimension. -/
def range32 (n : BitVec 32) : List (BitVec 32) := (List.range n.toNat).map (BitVec.ofNat 32)

def dims (v : Dim3) : List Dim3 :=
  (range32 v.z).flatMap fun z => (range32 v.y).flatMap fun y => (range32 v.x).map fun x => ⟨x, y, z⟩

def Launch.threads (L : Launch) : List Tid :=
  (dims L.grid).flatMap fun c => (dims L.block).map fun t => ⟨c, t⟩

theorem mem_range32 {n i : BitVec 32} : i ∈ range32 n ↔ i.toNat < n.toNat := by
  simp only [range32, List.mem_map, List.mem_range]
  constructor
  · rintro ⟨k, inside, rfl⟩
    rw [BitVec.toNat_ofNat, Nat.mod_eq_of_lt (lt_trans inside n.isLt)]
    exact inside
  · intro inside
    exact ⟨i.toNat, inside, by simp⟩

theorem mem_dims {v d : Dim3} :
    d ∈ dims v ↔ d.x.toNat < v.x.toNat ∧ d.y.toNat < v.y.toNat ∧ d.z.toNat < v.z.toNat := by
  obtain ⟨x, y, z⟩ := d
  simp only [dims, List.mem_flatMap, List.mem_map, mem_range32]
  constructor
  · rintro ⟨_, inZ, _, inY, _, inX, ⟨⟩⟩
    exact ⟨inX, inY, inZ⟩
  · rintro ⟨inX, inY, inZ⟩
    exact ⟨z, inZ, y, inY, x, inX, rfl⟩

theorem mem_threads {L : Launch} {t : Tid} : t ∈ L.threads ↔ t.ctaid ∈ dims L.grid ∧ t.tid ∈ dims L.block := by
  obtain ⟨c, d⟩ := t
  simp only [Launch.threads, List.mem_flatMap, List.mem_map]
  constructor
  · rintro ⟨_, grid, _, block, ⟨⟩⟩
    exact ⟨grid, block⟩
  · rintro ⟨grid, block⟩
    exact ⟨c, grid, d, block, rfl⟩

structure Cfg where
  ts : Tid → TState
  mem : Mem
  /-- The shared memory of each CTA. -/
  sh : Dim3 → Mem
  /-- How many barriers each CTA has passed. -/
  ph : Dim3 → ℕ

def Cfg.init (r0 : Tid → String → Val) (p0 : Tid → String → Bool) (m0 : Mem) (sh0 : Dim3 → Mem) : Cfg :=
  { ts := fun t => { pc := 0, r := r0 t, p := p0 t }, mem := m0, sh := sh0, ph := fun _ => 0 }

def updT (f : Tid → TState) (t : Tid) (s : TState) : Tid → TState := fun u => if u = t then s else f u
def updC (f : Dim3 → Mem) (b : Dim3) (m : Mem) : Dim3 → Mem := fun d => if d = b then m else f d

/-- What a thread of a CTA sees. -/
def Cfg.heap (c : Cfg) (b : Dim3) : Heap := ⟨c.mem, c.sh b⟩

/-- A thread moves to a state and leaves its view of memory. -/
def Cfg.write (c : Cfg) (t : Tid) (s : TState) (h : Heap) : Cfg :=
  { c with ts := updT c.ts t s, mem := h.g, sh := updC c.sh t.ctaid h.s }

/-- Every thread of a CTA passes its barrier. -/
def Cfg.release (c : Cfg) (b : Dim3) : Cfg :=
  { c with ts := fun t => if t.ctaid = b then (c.ts t).skip else c.ts t,
           ph := fun d => if d = b then c.ph d + 1 else c.ph d }

section
variable (K : Kernel) (L : Launch)

def Cfg.res (c : Cfg) (t : Tid) : TRes := tstep K (L.allocs K) (L.ctx t) (c.ts t) (c.heap t.ctaid)

/-- The access a thread is about to make. -/
def Cfg.pending (c : Cfg) (t : Tid) : Option Acc := (action K (L.ctx t) (c.ts t)).acc
end

/-- Two accesses of two threads conflict: the same space (and CTA, for shared
    memory), a common byte, and one of them writes. -/
def Conflict (t : Tid) (x : Acc) (u : Tid) (y : Acc) : Prop :=
  x.sp = y.sp ∧ (x.sp = .shared → t.ctaid = u.ctaid) ∧ (x.kind ≠ .read ∨ y.kind ≠ .read) ∧
    ∃ b, Covers x.a x.sz.bytes b ∧ Covers y.a y.sz.bytes b

/-- Two conflicting accesses that are neither atomics on one location nor
    separated by a barrier of their CTA. -/
def Races (t : Tid) (x : Acc) (p : ℕ) (u : Tid) (y : Acc) (q : ℕ) : Prop :=
  t ≠ u ∧ Conflict t x u y ∧ ¬(x.kind = .atomic ∧ y.kind = .atomic ∧ x.a = y.a ∧ x.sz = y.sz) ∧
    ¬(t.ctaid = u.ctaid ∧ p ≠ q)

/-- Run a thread for some steps, or release a CTA's barrier. -/
inductive Choice where
  | run (t : Tid) (n : ℕ)
  | rel (b : Dim3)

def TRes.isWait : TRes → Bool
  | .wait => true
  | _ => false

section
variable (K : Kernel) (L : Launch)

def Cfg.stepT (c : Cfg) (t : Tid) : Option Cfg :=
  match c.res K L t with
  | .ok s h => some (c.write t s h)
  | _ => none

def Cfg.runT (c : Cfg) (t : Tid) : ℕ → Option Cfg
  | 0 => some c
  | n + 1 =>
    match c.stepT K L t with
    | some c' => Cfg.runT c' t n
    | none => none

/-- All threads of a CTA wait at the same barrier. -/
def barReadyB (c : Cfg) (b : Dim3) : Bool :=
  match L.threads.filter (fun t => t.ctaid = b) with
  | [] => false
  | t₀ :: rest => (t₀ :: rest).all fun t => TRes.isWait (c.res K L t) && (c.ts t).pc == (c.ts t₀).pc

/-- Run a schedule; none when a choice is not a step. -/
def Cfg.exec (c : Cfg) : List Choice → Option Cfg
  | [] => some c
  | .run t n :: cs =>
    if t ∈ L.threads then
      match Cfg.runT K L c t n with
      | some c' => Cfg.exec c' cs
      | none => none
    else none
  | .rel b :: cs => if barReadyB K L c b then Cfg.exec (c.release b) cs else none
end

section
variable {K : Kernel} {L : Launch}

theorem exec_append {cs : List Choice} : ∀ {c : Cfg} {ds : List Choice},
    c.exec K L (cs ++ ds) = (c.exec K L cs).bind (fun c' => c'.exec K L ds) := by
  induction cs with
  | nil =>
    intro c ds
    rfl
  | cons choice cs ih =>
    intro c ds
    cases choice with
    | run t n =>
      simp only [List.cons_append, Cfg.exec]
      split
      · cases Cfg.runT K L c t n with
        | none => rfl
        | some c' => exact ih
      · rfl
    | rel b =>
      simp only [List.cons_append, Cfg.exec]
      split
      · exact ih
      · rfl

theorem barReadyB_of {c : Cfg} {b : Dim3} {pc : ℕ} {t : Tid} (member : t ∈ L.threads) (here : t.ctaid = b)
    (waits : ∀ u ∈ L.threads, u.ctaid = b → c.res K L u = .wait ∧ (c.ts u).pc = pc) : barReadyB K L c b = true := by
  unfold barReadyB
  have each (u : Tid) (inside : u ∈ L.threads.filter (fun t => t.ctaid = b)) :
      c.res K L u = .wait ∧ (c.ts u).pc = pc := by
    rw [List.mem_filter] at inside
    exact waits u inside.1 (of_decide_eq_true inside.2)
  have nonempty : t ∈ L.threads.filter (fun t => t.ctaid = b) := List.mem_filter.mpr ⟨member, by simpa using here⟩
  split
  · next empty =>
    rw [empty] at nonempty
    cases nonempty
  · next first rest whole =>
    rw [whole] at each
    rw [List.all_eq_true]
    intro u inside
    rw [(each u inside).1, (each u inside).2, (each first (List.mem_cons_self ..)).2]
    simp [TRes.isWait]
end

end E5r.GridModel
