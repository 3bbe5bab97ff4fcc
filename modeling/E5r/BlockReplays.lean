import E5r.BlockSearch

/-!
The recorded schedule of a launch is an execution of the model: every recorded
access is pending where its schedule leads, and the search for a race finds one
exactly when two recorded accesses race.
-/
namespace E5r.BlockReplays
open PtxSyntax PtxMachine PtxValues PtxStepRefines BlockSearch
open Fallible (bind_some_iff)
open GridModel (Tid Cfg Races mem_threads mem_dims exec_append barReadyB_of)

/-! ### The model of a launch -/

def model (l : Launch) : GridModel.Launch :=
  ⟨dim l.grid, dim l.block, fun n => (l.params n).getD 0, l.alloc.map region, fun n => (l.sym n).getD 0, fun _ _ => 0⟩

def ctaOf (n : ℕ) : PtxModel.Dim3 := ⟨BitVec.ofNat 32 n, 0, 0⟩

def tidOf (t : ℕ × ℕ) : Tid := ⟨ctaOf t.1, ctaOf t.2⟩

def choice : Choice → GridModel.Choice
  | .run t n => .run (tidOf t) n
  | .rel cta => .rel (ctaOf cta)

/-- The start of a launch: registers and shared memory are zero. -/
def start (g : Mem) : Cfg := Cfg.init (fun _ _ => 0) (fun _ _ => false) (memory g) (fun _ => memory Mem.empty)

/-- The model's access of the same bytes. -/
def acc (a : Access) : PtxModel.Acc := ⟨space a.sp, a.addr, if a.size = 4 then .b4 else .b8, kind a.kind⟩

/-- A grid and a block of one dimension. -/
def Flat (l : Launch) : Prop := l.grid.y = 1 ∧ l.grid.z = 1 ∧ l.block.y = 1 ∧ l.block.z = 1

def Counted (k : Kernel) : Prop := ∀ d ∈ k.shared, ∀ n, d.count = some n → n < 2 ^ 32

theorem tidOf_mem {l : Launch} (flat : Flat l) {t : ℕ × ℕ} (cta : t.1 < l.grid.x.toNat) (tid : t.2 < l.block.x.toNat) :
    tidOf t ∈ (model l).threads := by
  obtain ⟨gy, gz, sy, sz⟩ := flat
  have small := l.grid.x.isLt
  have small' := l.block.x.isLt
  rw [mem_threads, mem_dims, mem_dims]
  simp only [tidOf, ctaOf, model, dim, gy, gz, sy, sz, BitVec.toNat_ofNat]
  rw [Nat.mod_eq_of_lt (by omega : t.1 < 2 ^ 32), Nat.mod_eq_of_lt (by omega : t.2 < 2 ^ 32)]
  exact ⟨⟨cta, by decide, by decide⟩, tid, by decide, by decide⟩

/-- Every thread of a flat launch has its two indices. -/
theorem mem_tidOf {l : Launch} (flat : Flat l) {u : Tid} (member : u ∈ (model l).threads) :
    ∃ t : ℕ × ℕ, u = tidOf t ∧ t.1 < l.grid.x.toNat ∧ t.2 < l.block.x.toNat := by
  obtain ⟨gy, gz, sy, sz⟩ := flat
  obtain ⟨⟨cx, cy, cz⟩, ⟨tx, ty, tz⟩⟩ := u
  rw [mem_threads, mem_dims, mem_dims] at member
  simp only [model, dim, gy, gz, sy, sz] at member
  obtain ⟨⟨cta, zy, zz⟩, tid, ty0, tz0⟩ := member
  have zero {v : BitVec 32} (below : v.toNat < (1 : BitVec 32).toNat) : v = 0 := by
    apply BitVec.eq_of_toNat_eq
    have one : (1 : BitVec 32).toNat = 1 := rfl
    show v.toNat = 0
    omega
  refine ⟨(cx.toNat, tx.toNat), ?_, cta, tid⟩
  rw [zero zy, zero zz, zero ty0, zero tz0]
  simp [tidOf, ctaOf]

theorem ctaOf_inj {m n : ℕ} (left : m < 2 ^ 32) (right : n < 2 ^ 32) : ctaOf m = ctaOf n ↔ m = n := by
  constructor
  · intro same
    have equal := congrArg (fun d : PtxModel.Dim3 => d.x.toNat) same
    simp only [ctaOf, BitVec.toNat_ofNat] at equal
    rwa [Nat.mod_eq_of_lt left, Nat.mod_eq_of_lt right] at equal
  · rintro rfl
    rfl

theorem context_eq (l : Launch) (t : ℕ × ℕ) :
    context (l.ctx ⟨BitVec.ofNat 32 t.1, 0, 0⟩ ⟨BitVec.ofNat 32 t.2, 0, 0⟩) = (model l).ctx (tidOf t) := rfl

theorem elemBytes_le (elem : String) : (SharedDecl.elemBytes elem).getD 1 ≤ 8 := by
  unfold SharedDecl.elemBytes
  split <;> simp

theorem allocs_eq {k : Kernel} (l : Launch) (counted : Counted k) :
    allocs (l.allocs k) = (model l).allocs (PtxExport.kernel k) := by
  funext sp
  cases sp with
  | global => rfl
  | shared =>
    simp only [allocs, Launch.allocs, sharedRegions, GridModel.Launch.allocs, GridModel.Launch.sregions,
      PtxExport.kernel, List.map_map]
    apply List.map_congr_left
    intro d member
    have count : d.count.getD 1 < 2 ^ 32 := by
      cases written : d.count with
      | none => simp
      | some n => exact counted d member n written
    have small : d.size < 2 ^ 128 := by
      have := Nat.mul_le_mul (elemBytes_le d.elem) count.le
      unfold SharedDecl.size
      omega
    simp only [Function.comp, region, PtxExport.sharedVar, model, BitVec.toNat_ofNat, Nat.mod_eq_of_lt small]

/-! ### Steps that the model shares -/

/-- The state before a step is one whose step the model shares, and the access
    that it is about to make ends below the last address. -/
structure Meets (k : Kernel) (al : Allocs) (c : Ctx) (s : TState) : Prop where
  wellFormed : WellFormed k s
  inRange : InRange k al c s
  below : ∀ p, (PtxModel.action (PtxExport.kernel k) (context c) (state s)).acc = some p →
    p.a.toNat + p.sz.bytes < 2 ^ 64

open Classical in
/-- The step of the interpreter, refused in a state that does not meet the
    condition. -/
noncomputable def careful (k : Kernel) (al : Allocs) : Stepper := fun c s g sh =>
  if Meets k al c s then PtxMachine.step k al c s g sh else none

/-- Every step of the recorded run starts in a state that meets the condition. -/
def Careful (k : Kernel) (l : Launch) (g : Mem) (fuel : ℕ) : Prop :=
  (runWith (careful k (l.allocs k)) l g fuel).isSome = true

/-! ### A weaker step gives the same run -/

section
variable {f f' : Stepper} (agree : ∀ c s g sh o, f c s g sh = some o → f' c s g sh = some o) (l : Launch)
include agree

theorem soloLoop_mono (c : Ctx) (fuel : ℕ) : ∀ {i : ℕ} {s : TState} {g sh : Mem} {acc : List (ℕ × Access)} {r : Solo},
    soloLoop f c fuel i s g sh acc = some r → soloLoop f' c fuel i s g sh acc = some r := by
  induction fuel with
  | zero =>
    intro i s g sh acc r ran
    exact ran
  | succ fuel ih =>
    intro i s g sh acc r ran
    rw [soloLoop] at ran ⊢
    cases stepped : f c s g sh with
    | none =>
      rw [stepped] at ran
      cases ran
    | some o =>
      rw [stepped] at ran
      rw [agree c s g sh o stepped]
      cases res : o.res with
      | ok a =>
        simp only [res] at ran ⊢
        exact ih ran
      | wait | halted | fault why =>
        simp only [res] at ran ⊢
        exact ran

theorem turn_mono {cta t : ℕ} {st : St} {r : Except Report St} (ran : turn f l cta st t = some r) :
    turn f' l cta st t = some r := by
  unfold turn at ran ⊢
  cases solo : runUntilWait f (l.ctx ⟨BitVec.ofNat 32 cta, 0, 0⟩ ⟨BitVec.ofNat 32 t, 0, 0⟩)
      (st.ts.getD t TState.init) st.g st.sh st.left with
  | none =>
    rw [solo] at ran
    cases ran
  | some out =>
    rw [solo] at ran
    rw [runUntilWait, soloLoop_mono agree _ _ solo]
    exact ran

omit agree in
theorem foldlM_mono {α : Type} {h h' : St → α → Turn St}
    (each : ∀ st a r, h st a = some r → h' st a = some r) (xs : List α) : ∀ {st : St} {r : Except Report St},
    xs.foldlM h st = some r → xs.foldlM h' st = some r := by
  induction xs with
  | nil =>
    intro st r ran
    exact ran
  | cons a xs ih =>
    intro st r ran
    rw [List.foldlM_cons, bind_some_iff] at ran ⊢
    rcases ran with ⟨e, stopped, same⟩ | ⟨next, first, rest⟩
    · exact .inl ⟨e, each st a _ stopped, same⟩
    · exact .inr ⟨next, each st a _ first, ih rest⟩

theorem phases_mono (cta n : ℕ) : ∀ {st : St} {r : Except Report St},
    phases f l cta n st = some r → phases f' l cta n st = some r := by
  induction n with
  | zero =>
    intro st r ran
    exact ran
  | succ n ih =>
    intro st r ran
    rw [phases, bind_some_iff] at ran ⊢
    rcases ran with ⟨e, stopped, same⟩ | ⟨next, threads, rest⟩
    · exact .inl ⟨e, foldlM_mono (fun _ _ _ => turn_mono agree l) _ stopped, same⟩
    · refine .inr ⟨next, foldlM_mono (fun _ _ _ => turn_mono agree l) _ threads, ?_⟩
      rw [bind_some_iff] at rest ⊢
      rcases rest with stopped | ⟨after, passed, later⟩
      · exact .inl stopped
      · refine .inr ⟨after, passed, ?_⟩
        cases after with
        | none => exact later
        | some st => exact ih later

theorem block_mono {cta : ℕ} {st : St} {r : Except Report St} (ran : BlockSearch.block f l st cta = some r) :
    BlockSearch.block f' l st cta = some r := phases_mono agree l cta _ ran

theorem runWith_mono {g : Mem} {fuel : ℕ} {r : Report} (ran : runWith f l g fuel = some r) :
    runWith f' l g fuel = some r := by
  unfold runWith at ran ⊢
  cases whole : (List.range l.grid.x.toNat).foldlM (BlockSearch.block f l)
      (⟨[], [], g, fuel, Mem.empty, [], 0, []⟩ : St) with
  | none =>
    rw [whole] at ran
    cases ran
  | some e =>
    rw [whole] at ran
    rw [foldlM_mono (fun _ _ _ => block_mono agree l) _ whole]
    exact ran
end

theorem careful_agrees (k : Kernel) (al : Allocs) (c : Ctx) (s : TState) (g sh : Mem) (o : Outcome)
    (ran : careful k al c s g sh = some o) : PtxMachine.step k al c s g sh = some o := by
  unfold careful at ran
  split at ran
  · exact ran
  · cases ran

theorem careful_refines {k : Kernel} {al : Allocs} {c : Ctx} {s : TState} {g sh : Mem} {o : Outcome}
    (ran : careful k al c s g sh = some o) : Meets k al c s ∧ Refines k al c s g sh := by
  unfold careful at ran
  split at ran
  · next meets => exact ⟨meets, (refines_iff_of_wellFormed al c s g sh meets.wellFormed).mpr meets.inRange⟩
  · cases ran

/-! ### One thread in the model -/

/-- The access that a configuration is about to make is the recorded one. -/
def Pends (k : Kernel) (l : Launch) (c : Cfg) (t : Tid) (a : Access) : Prop :=
  c.pending (PtxExport.kernel k) (model l) t = some (acc a) ∧ a.size = (acc a).sz.bytes ∧
    a.addr.toNat + a.size < 2 ^ 64

/-- A thread of a configuration is in a state over two memories. -/
structure At (c : Cfg) (t : Tid) (s : TState) (g sh : Mem) : Prop where
  ts : c.ts t = state s
  mem : c.mem = memory g
  sh : c.sh t.ctaid = memory sh

/-- Only one thread has moved since. -/
structure Frame (c c' : Cfg) (t : Tid) : Prop where
  ts : ∀ u, u ≠ t → c'.ts u = c.ts u
  sh : ∀ b, b ≠ t.ctaid → c'.sh b = c.sh b
  ph : c'.ph = c.ph

theorem Frame.refl (c : Cfg) (t : Tid) : Frame c c t := ⟨fun _ _ => rfl, fun _ _ => rfl, rfl⟩

theorem Frame.trans {c₁ c₂ c₃ : Cfg} {t : Tid} (first : Frame c₁ c₂ t) (second : Frame c₂ c₃ t) : Frame c₁ c₃ t :=
  ⟨fun u other => (second.ts u other).trans (first.ts u other),
    fun b other => (second.sh b other).trans (first.sh b other), second.ph.trans first.ph⟩

theorem frame_write (c : Cfg) (t : Tid) (s : PtxModel.TState) (h : PtxModel.Heap) : Frame c (c.write t s h) t := by
  refine ⟨?_, ?_, rfl⟩
  · intro u other
    exact if_neg other
  · intro b other
    exact if_neg other

theorem at_write (c : Cfg) (t : Tid) (s : TState) (g sh : Mem) : At (c.write t (state s) (heap g sh)) t s g sh :=
  ⟨if_pos rfl, rfl, if_pos rfl⟩

section
variable {k : Kernel} {l : Launch} (counted : Counted k) {t : ℕ × ℕ}
include counted

/-- The context of a thread by its indices. -/
abbrev ctxOf (l : Launch) (t : ℕ × ℕ) : Ctx := l.ctx ⟨BitVec.ofNat 32 t.1, 0, 0⟩ ⟨BitVec.ofNat 32 t.2, 0, 0⟩

theorem res_eq {c : Cfg} {s : TState} {g sh : Mem} (here : At c (tidOf t) s g sh) :
    c.res (PtxExport.kernel k) (model l) (tidOf t) =
      PtxModel.tstep (PtxExport.kernel k) (allocs (l.allocs k)) (context (ctxOf l t)) (state s) (heap g sh) := by
  have view : c.heap (tidOf t).ctaid = heap g sh := by
    unfold Cfg.heap
    rw [here.mem, here.sh]
    rfl
  rw [Cfg.res, view, here.ts, allocs_eq l counted, context_eq]

omit counted in
theorem reports_acc {a : Access} {x : PtxModel.Acc} (same : Reports (some a) (some x)) :
    acc a = x ∧ a.size = (acc a).sz.bytes := by
  simp only [Reports, Option.map_some, Option.some_inj, Prod.mk.injEq] at same
  obtain ⟨sp, addr, size, kind'⟩ := same
  obtain ⟨xs, xa, xz, xk⟩ := x
  obtain ⟨as, aa, az, ak⟩ := a
  simp only at sp addr size kind'
  subst sp addr size kind'
  cases xz <;> exact ⟨rfl, rfl⟩

theorem careful_moves {c : Cfg} {s : TState} {g sh : Mem} (here : At c (tidOf t) s g sh) {o : Outcome}
    {made : Option Access} (ran : careful k (l.allocs k) (ctxOf l t) s g sh = some o) (moved : o.res = .ok made) :
    c.stepT (PtxExport.kernel k) (model l) (tidOf t) = some (c.write (tidOf t) (state o.s) (heap o.g o.sh)) ∧
      ∀ a, made = some a → Pends k l c (tidOf t) a := by
  obtain ⟨meets, same⟩ := careful_refines ran
  have stepped := careful_agrees _ _ _ _ _ _ _ ran
  obtain ⟨res, t', g', sh'⟩ := o
  cases moved
  unfold Refines at same
  rw [stepped, ← res_eq counted here] at same
  unfold Cfg.stepT
  cases result : c.res (PtxExport.kernel k) (model l) (tidOf t) with
  | ok s' h' =>
    rw [result] at same
    obtain ⟨states, heaps, reports⟩ := same
    refine ⟨by simp only [states, heaps], ?_⟩
    rintro a rfl
    cases pending : (PtxModel.action (PtxExport.kernel k) (context (ctxOf l t)) (state s)).acc with
    | none =>
      rw [pending] at reports
      simp [Reports] at reports
    | some x =>
      rw [pending] at reports
      obtain ⟨rfl, size⟩ := reports_acc reports
      refine ⟨?_, size, ?_⟩
      · rw [Cfg.pending, here.ts, ← context_eq]
        exact pending
      · rw [size]
        exact meets.below _ pending
  | wait | halted | fault =>
    rw [result] at same
    exact same.elim

omit counted in
theorem tstep_wait {K : PtxModel.Kernel} {al : PtxModel.Sp → List PtxModel.Region} {c : PtxModel.Ctx}
    {s : PtxModel.TState} {h : PtxModel.Heap} (waits : PtxModel.tstep K al c s h = .wait) :
    PtxModel.action K c s = .bar := by
  unfold PtxModel.tstep at waits
  cases act : PtxModel.action K c s with
  | bar => rfl
  | load | store | atom =>
    simp only [act] at waits
    split at waits <;> cases waits
  | next | done | fault =>
    simp only [act] at waits
    cases waits

omit counted in
theorem careful_waits {s : TState} {g sh : Mem} {o : Outcome}
    (ran : careful k (l.allocs k) (ctxOf l t) s g sh = some o) (waits : o.res = .wait) :
    PtxModel.action (PtxExport.kernel k) ((model l).ctx (tidOf t)) (state s) = .bar := by
  obtain ⟨-, same⟩ := careful_refines ran
  have stepped := careful_agrees _ _ _ _ _ _ _ ran
  obtain ⟨res, t', g', sh'⟩ := o
  cases waits
  unfold Refines at same
  rw [stepped] at same
  rw [← context_eq]
  cases result : PtxModel.tstep (PtxExport.kernel k) (allocs (l.allocs k)) (context (ctxOf l t)) (state s) (heap g sh) with
  | wait => exact tstep_wait result
  | ok | halted | fault =>
    rw [result] at same
    exact same.elim
/-- The steps of a thread that its solo run made from its step `i` on: they are
    steps of the model, and each new access was pending after as many. -/
structure Ran (k : Kernel) (l : Launch) (c : Cfg) (t : Tid) (i u : ℕ) (new : List (ℕ × Access)) (c' : Cfg) : Prop where
  steps : c.runT (PtxExport.kernel k) (model l) t u = some c'
  frame : Frame c c' t
  made : ∀ p ∈ new, ∃ v c₁, p.1 = i + v ∧ c.runT (PtxExport.kernel k) (model l) t v = some c₁ ∧ c₁.ph = c.ph ∧
    Pends k l c₁ t p.2

theorem solo_spec (fuel : ℕ) : ∀ {c : Cfg} {i : ℕ} {s : TState} {g sh : Mem} {made : List (ℕ × Access)} {r : Solo},
    At c (tidOf t) s g sh → soloLoop (careful k (l.allocs k)) (ctxOf l t) fuel i s g sh made = some r →
    ∀ n, r.e = .halted n ∨ r.e = .wait n →
      ∃ u new c', n = i + u ∧ r.acc = made ++ new ∧ Ran k l c (tidOf t) i u new c' ∧ At c' (tidOf t) r.s r.g r.sh ∧
        (r.e = .wait n → PtxModel.action (PtxExport.kernel k) ((model l).ctx (tidOf t)) (state r.s) = .bar) := by
  induction fuel with
  | zero =>
    intro c i s g sh made r here ran n ended
    cases ran
    rcases ended with ended | ended <;> cases ended
  | succ fuel ih =>
    intro c i s g sh made r here ran n ended
    rw [soloLoop] at ran
    cases stepped : careful k (l.allocs k) (ctxOf l t) s g sh with
    | none =>
      rw [stepped] at ran
      cases ran
    | some o =>
      rw [stepped] at ran
      have rests := rests_step (careful_agrees _ _ _ _ _ _ _ stepped)
      cases res : o.res with
      | ok a =>
        simp only [res] at ran
        obtain ⟨moves, pends⟩ := careful_moves counted here stepped res
        have frame := frame_write c (tidOf t) (state o.s) (heap o.g o.sh)
        obtain ⟨u, new, c', count, accesses, later, there, waits⟩ :=
          ih (at_write c (tidOf t) o.s o.g o.sh) ran n ended
        refine ⟨u + 1, (a.map fun a => (i, a)).toList ++ new, c', by omega, ?_, ?_, there, waits⟩
        · rw [accesses, List.append_assoc]
        · refine ⟨?_, frame.trans later.frame, ?_⟩
          · rw [Cfg.runT, moves]
            exact later.steps
          · intro p member
            rcases List.mem_append.mp member with now | then_
            · cases a with
              | none => cases now
              | some a =>
                obtain rfl : p = (i, a) := by simpa using now
                exact ⟨0, c, rfl, rfl, rfl, pends a rfl⟩
            · obtain ⟨v, c₁, step, reached, phase, pending⟩ := later.made p then_
              refine ⟨v + 1, c₁, by omega, ?_, phase.trans frame.ph, pending⟩
              rw [Cfg.runT, moves]
              exact reached
      | wait =>
        simp only [res] at ran
        cases ran
        obtain ⟨rfl, rfl, rfl⟩ := rests (.inl res)
        have count : i = n := by
          rcases ended with ended | ended
          · cases ended
          · exact End.wait.inj ended
        refine ⟨0, [], c, count.symm, (List.append_nil _).symm, ⟨rfl, Frame.refl c _, by simp⟩, here, ?_⟩
        intro _
        exact careful_waits stepped res
      | halted =>
        simp only [res] at ran
        cases ran
        obtain ⟨rfl, rfl, rfl⟩ := rests (.inr res)
        have count : i = n := by
          rcases ended with ended | ended
          · exact End.halted.inj ended
          · cases ended
        refine ⟨0, [], c, count.symm, (List.append_nil _).symm, ⟨rfl, Frame.refl c _, by simp⟩, here, ?_⟩
        intro waits
        cases waits
      | fault why =>
        simp only [res] at ran
        cases ran
        rcases ended with ended | ended <;> cases ended
end

/-! ### The schedule in the model -/

/-- A recorded access was pending where its schedule leads, in the phase that was
    recorded. -/
structure Real (k : Kernel) (l : Launch) (g : Mem) (ch : List Choice) (e : Ev) : Prop where
  before : e.prefix_ ≤ ch.length
  cta : e.cta = e.t.1
  inGrid : e.t.1 < l.grid.x.toNat
  inBlock : e.t.2 < l.block.x.toNat
  replay : ∃ c, (start g).exec (PtxExport.kernel k) (model l) ((pre ch e).map choice) = some c ∧
    Pends k l c (tidOf e.t) e.access ∧ c.ph (ctaOf e.cta) = e.phase

theorem Real.grow {k : Kernel} {l : Launch} {g : Mem} {ch : List Choice} {e : Ev} (real : Real k l g ch e)
    (more : List Choice) : Real k l g (ch ++ more) e := by
  obtain ⟨before, cta, inGrid, inBlock, replay⟩ := real
  refine ⟨?_, cta, inGrid, inBlock, ?_⟩
  · rw [List.length_append]
    omega
  · rw [pre, List.take_append_of_le_length before]
    exact replay

/-- A CTA that has not started. -/
structure Fresh (c : Cfg) (b : ℕ) : Prop where
  ts : ∀ t, c.ts (tidOf (b, t)) = state TState.init
  sh : c.sh (ctaOf b) = memory Mem.empty
  ph : c.ph (ctaOf b) = 0

/-- What holds of a run between its choices: the model replays them to a
    configuration with the same global memory, every recorded access is real, and
    the CTAs from one on have not started. -/
structure Replays (k : Kernel) (l : Launch) (g : Mem) (st : St) (c : Cfg) (next : ℕ) : Prop where
  exec : (start g).exec (PtxExport.kernel k) (model l) (st.ch.map choice) = some c
  mem : c.mem = memory st.g
  evs : ∀ e ∈ st.evs, Real k l g st.ch e
  fresh : ∀ b, next ≤ b → b < l.grid.x.toNat → Fresh c b

/-- The variables of the current CTA and the configuration agree. -/
structure InBlock (l : Launch) (cta : ℕ) (st : St) (c : Cfg) : Prop where
  sh : c.sh (ctaOf cta) = memory st.sh
  len : st.ts.length = l.block.x.toNat
  ts : ∀ t < l.block.x.toNat, c.ts (tidOf (cta, t)) = state (st.ts.getD t TState.init)
  ph : c.ph (ctaOf cta) = st.phase

/-- The ends of the threads that ran, each at a barrier of the model when it
    waits. -/
structure Ended (k : Kernel) (l : Launch) (cta : ℕ) (st : St) (m : ℕ) : Prop where
  len : st.ends.length = m
  waits : ∀ t < m, (st.ends.getD t .outOfFuel).isWait = true →
    PtxModel.action (PtxExport.kernel k) ((model l).ctx (tidOf (cta, t))) (state (st.ts.getD t TState.init)) = .bar

section
variable {k : Kernel} {l : Launch} (counted : Counted k) (flat : Flat l) {g : Mem} {cta : ℕ}
  (inGrid : cta < l.grid.x.toNat)
include counted flat inGrid

omit counted flat in
/-- Threads of other CTAs, and other threads of a CTA, are other threads of the
    model. -/
theorem tidOf_ne {b t u : ℕ} (other : b < l.grid.x.toNat) (differ : b ≠ cta) : tidOf (b, u) ≠ tidOf (cta, t) := by
  have small := l.grid.x.isLt
  intro same
  have ctas : ctaOf b = ctaOf cta := congrArg Tid.ctaid same
  rw [ctaOf_inj (by omega) (by omega)] at ctas
  exact differ ctas

omit counted flat inGrid in
theorem tidOf_ne_in {t u : ℕ} (left : t < l.block.x.toNat) (right : u < l.block.x.toNat) (differ : u ≠ t) :
    tidOf (cta, u) ≠ tidOf (cta, t) := by
  have small := l.block.x.isLt
  intro same
  have tids : ctaOf u = ctaOf t := congrArg Tid.tid same
  rw [ctaOf_inj (by omega) (by omega)] at tids
  exact differ tids

omit counted flat in
/-- A CTA that has not started does not see what a thread of another one does. -/
theorem Fresh.frame {c c' : Cfg} {t b : ℕ} (fresh : Fresh c b) (frame : Frame c c' (tidOf (cta, t)))
    (other : b < l.grid.x.toNat) (differ : b ≠ cta) : Fresh c' b := by
  have small := l.grid.x.isLt
  have ctas : ctaOf b ≠ ctaOf cta := by
    rw [Ne, ctaOf_inj (by omega) (by omega)]
    exact differ
  refine ⟨?_, ?_, ?_⟩
  · intro u
    rw [frame.ts _ (tidOf_ne inGrid other differ)]
    exact fresh.ts u
  · rw [frame.sh _ ctas]
    exact fresh.sh
  · rw [frame.ph]
    exact fresh.ph

theorem turn_spec {st st' : St} {c : Cfg} {t : ℕ} (inBlock : t < l.block.x.toNat)
    (replays : Replays k l g st c (cta + 1)) (block : InBlock l cta st c) (ended : Ended k l cta st t)
    (ran : turn (careful k (l.allocs k)) l cta st t = some (.ok st')) :
    ∃ c', Replays k l g st' c' (cta + 1) ∧ InBlock l cta st' c' ∧ Ended k l cta st' (t + 1) := by
  have here : At c (tidOf (cta, t)) (st.ts.getD t TState.init) st.g st.sh :=
    ⟨block.ts t inBlock, replays.mem, block.sh⟩
  unfold turn at ran
  cases solo : runUntilWait (careful k (l.allocs k)) (ctxOf l (cta, t)) (st.ts.getD t TState.init) st.g st.sh st.left with
  | none =>
    rw [solo] at ran
    cases ran
  | some r =>
    rw [solo] at ran
    obtain ⟨used, stops⟩ : ∃ n, r.e = .halted n ∨ r.e = .wait n := by
      cases e : r.e with
      | halted n => exact ⟨n, .inl rfl⟩
      | wait n => exact ⟨n, .inr rfl⟩
      | fault n why =>
        simp only [e] at ran
        cases ran
      | outOfFuel =>
        simp only [e] at ran
        cases ran
    obtain ⟨u, new, c', count, accesses, steps, there, waits⟩ := solo_spec counted st.left here solo used stops
    obtain rfl : used = u := by omega
    rw [List.nil_append] at accesses
    obtain rfl : st' = { st with
        ch := st.ch ++ [.run (cta, t) used]
        evs := st.evs ++ r.acc.map fun p => ⟨(cta, t), cta, st.phase, p.2, st.ch.length, p.1⟩
        g := r.g, left := st.left - used, sh := r.sh, ts := st.ts.set t r.s, ends := st.ends ++ [r.e] } := by
      rcases stops with stops | stops
      · simp only [stops] at ran ⊢
        cases ran
        rfl
      · simp only [stops] at ran ⊢
        cases ran
        rfl
    have run (v : ℕ) : c.exec (PtxExport.kernel k) (model l) [.run (tidOf (cta, t)) v] =
        c.runT (PtxExport.kernel k) (model l) (tidOf (cta, t)) v := by
      rw [Cfg.exec, if_pos (tidOf_mem flat inGrid inBlock)]
      cases c.runT (PtxExport.kernel k) (model l) (tidOf (cta, t)) v <;> rfl
    have executed (v : ℕ) : (start g).exec (PtxExport.kernel k) (model l) ((st.ch ++ [Choice.run (cta, t) v]).map choice) =
        c.runT (PtxExport.kernel k) (model l) (tidOf (cta, t)) v := by
      rw [List.map_append, exec_append, replays.exec, Option.bind_some]
      exact run v
    refine ⟨c', ⟨?_, there.mem, ?_, ?_⟩, ⟨there.sh, ?_, ?_, ?_⟩, ⟨?_, ?_⟩⟩
    · exact (executed used).trans steps.steps
    · intro e member
      rcases List.mem_append.mp member with old | recorded
      · exact (replays.evs e old).grow _
      · obtain ⟨⟨i, a⟩, made, rfl⟩ := List.mem_map.mp recorded
        rw [accesses] at made
        obtain ⟨v, c₁, step, reached, phase, pends⟩ := steps.made _ made
        obtain rfl : i = v := by simpa using step
        refine ⟨by simp, rfl, inGrid, inBlock, c₁, ?_, pends, ?_⟩
        · rw [pre, List.take_left' rfl]
          exact (executed i).trans reached
        · rw [phase]
          exact block.ph
    · intro b later inside
      exact (replays.fresh b later inside).frame inGrid steps.frame inside (by omega)
    · rw [List.length_set]
      exact block.len
    · intro u inside
      by_cases same : u = t
      · subst same
        rw [there.ts, List.getD_eq_getElem?_getD, List.getElem?_set_self (by rw [block.len]; exact inside)]
        rfl
      · rw [steps.frame.ts _ (tidOf_ne_in inBlock inside same), block.ts u inside, List.getD_eq_getElem?_getD,
          List.getD_eq_getElem?_getD, List.getElem?_set_ne (Ne.symm same)]
    · rw [steps.frame.ph]
      exact block.ph
    · rw [List.length_append, ended.len]
      rfl
    · intro u inside waiting
      by_cases same : u = t
      · subst same
        rw [List.getD_eq_getElem?_getD, List.getElem?_append_right (by rw [ended.len]), ended.len] at waiting
        have ends : r.e = .wait used := by
          rcases stops with stops | stops
          · rw [stops] at waiting
            simp [End.isWait] at waiting
          · exact stops
        rw [List.getD_eq_getElem?_getD, List.getElem?_set_self (by rw [block.len]; exact inBlock)]
        exact waits ends
      · rw [List.getD_eq_getElem?_getD, List.getElem?_append_left (by rw [ended.len]; omega),
          ← List.getD_eq_getElem?_getD] at waiting
        have before := ended.waits u (by omega) waiting
        rw [List.getD_eq_getElem?_getD, List.getElem?_set_ne (Ne.symm same), ← List.getD_eq_getElem?_getD]
        exact before
omit counted flat inGrid in
/-- A property that every turn carries on holds after all of them. -/
theorem range_foldlM {P : ℕ → St → Prop} {h : St → ℕ → Turn St} (n : ℕ)
    (each : ∀ m < n, ∀ st st', P m st → h st m = some (.ok st') → P (m + 1) st') : ∀ {st st' : St},
    P 0 st → (List.range n).foldlM h st = some (.ok st') → P n st' := by
  induction n with
  | zero =>
    intro st st' first ran
    cases ran
    exact first
  | succ n ih =>
    intro st st' first ran
    rw [List.range_succ, List.foldlM_append, bind_some_iff] at ran
    rcases ran with ⟨e, -, ⟨⟩⟩ | ⟨middle, before, last⟩
    rw [List.foldlM_cons, bind_some_iff] at last
    rcases last with ⟨e, -, ⟨⟩⟩ | ⟨end_, turn, done⟩
    cases done
    exact each n (by omega) middle _ (ih (fun m inside => each m (by omega)) first before) turn

omit counted in
theorem barrier_spec {st st' : St} {c : Cfg} (replays : Replays k l g st c (cta + 1)) (block : InBlock l cta st c)
    (ended : Ended k l cta st l.block.x.toNat) (passed : barrier cta st = some (.ok (some st'))) :
    ∃ c', Replays k l g st' c' (cta + 1) ∧ InBlock l cta st' c' := by
  simp only [barrier, ended.len] at passed
  cases waiting : (List.range l.block.x.toNat).filter fun i => (st.ends.getD i .outOfFuel).isWait with
  | nil =>
    rw [waiting] at passed
    cases passed
  | cons first rest =>
    rw [waiting] at passed
    simp only at passed
    split at passed
    · cases passed
    · next together =>
      split at passed
      · cases passed
      · cases passed
        simp only [not_or, not_not, List.any_eq_true, decide_eq_true_eq, not_exists, not_and] at together
        obtain ⟨all, pcs⟩ := together
        rw [block.len] at all
        have full : (List.range l.block.x.toNat).filter (fun i => (st.ends.getD i .outOfFuel).isWait) =
            List.range l.block.x.toNat := by
          apply List.filter_eq_self.mpr
          apply List.length_filter_eq_length_iff.mp
          rw [waiting, all, List.length_range]
        have waits (t : ℕ) (inside : t < l.block.x.toNat) :
            PtxModel.action (PtxExport.kernel k) ((model l).ctx (tidOf (cta, t)))
              (state (st.ts.getD t TState.init)) = .bar ∧
            (st.ts.getD t TState.init).pc = (st.ts.getD first TState.init).pc := by
          have member : t ∈ (List.range l.block.x.toNat).filter fun i => (st.ends.getD i .outOfFuel).isWait := by
            rw [full]
            exact List.mem_range.mpr inside
          refine ⟨ended.waits t inside (List.mem_filter.mp member).2, ?_⟩
          rw [waiting] at member
          exact pcs t member
        have inside : first < l.block.x.toNat := by
          have member : first ∈ (List.range l.block.x.toNat).filter fun i => (st.ends.getD i .outOfFuel).isWait := by
            rw [waiting]
            exact List.mem_cons_self ..
          exact List.mem_range.mp (List.mem_filter.mp member).1
        have ready : GridModel.barReadyB (PtxExport.kernel k) (model l) c (ctaOf cta) = true := by
          apply barReadyB_of (tidOf_mem flat (t := (cta, first)) inGrid inside) rfl
          intro u member here
          obtain ⟨⟨b, t⟩, rfl, grid, tid⟩ := mem_tidOf flat member
          have small := l.grid.x.isLt
          have same : b = cta := (ctaOf_inj (by omega) (by omega)).mp here
          obtain ⟨bar, pc⟩ := waits t tid
          rw [same, Cfg.res, block.ts t tid]
          refine ⟨?_, pc⟩
          rw [PtxModel.tstep, bar]
        refine ⟨c.release (ctaOf cta), ⟨?_, replays.mem, fun e member => (replays.evs e member).grow _, ?_⟩,
          ⟨block.sh, ?_, ?_, ?_⟩⟩
        · rw [List.map_append, exec_append, replays.exec, Option.bind_some]
          show (if GridModel.barReadyB (PtxExport.kernel k) (model l) c (ctaOf cta) then _ else none) = _
          rw [if_pos ready]
          rfl
        · intro b later inGrid'
          have fresh := replays.fresh b later inGrid'
          have small := l.grid.x.isLt
          have other : ctaOf b ≠ ctaOf cta := by
            rw [Ne, ctaOf_inj (by omega) (by omega)]
            omega
          refine ⟨?_, fresh.sh, ?_⟩
          · intro t
            rw [← fresh.ts t]
            exact if_neg other
          · rw [← fresh.ph]
            exact if_neg other
        · rw [List.length_map]
          exact block.len
        · intro t tid
          have member : t < st.ts.length := by rw [block.len]; exact tid
          have before := block.ts t tid
          rw [List.getD_eq_getElem?_getD, List.getElem?_eq_getElem member] at before
          rw [List.getD_eq_getElem?_getD, List.getElem?_map, List.getElem?_eq_getElem member]
          show (if (tidOf (cta, t)).ctaid = ctaOf cta then (c.ts (tidOf (cta, t))).skip else _) = _
          rw [if_pos (show (tidOf (cta, t)).ctaid = ctaOf cta from rfl), before]
          rfl
        · rw [← block.ph]
          exact if_pos rfl

theorem phases_spec (n : ℕ) : ∀ {st st' : St} {c : Cfg}, Replays k l g st c (cta + 1) → InBlock l cta st c →
    phases (careful k (l.allocs k)) l cta n st = some (.ok st') → ∃ c', Replays k l g st' c' (cta + 1) := by
  induction n with
  | zero =>
    intro st st' c replays block ran
    cases ran
  | succ n ih =>
    intro st st' c replays block ran
    rw [phases, bind_some_iff] at ran
    rcases ran with ⟨e, -, ⟨⟩⟩ | ⟨after, threads, ran⟩
    have begins : ∃ c, Replays k l g { st with ends := [] } c (cta + 1) ∧ InBlock l cta { st with ends := [] } c ∧
        Ended k l cta { st with ends := [] } 0 :=
      ⟨c, ⟨replays.exec, replays.mem, replays.evs, replays.fresh⟩, ⟨block.sh, block.len, block.ts, block.ph⟩,
        ⟨rfl, fun t inside => absurd inside (Nat.not_lt_zero t)⟩⟩
    obtain ⟨c₁, replays₁, block₁, ended₁⟩ := range_foldlM (P := fun m st => ∃ c, Replays k l g st c (cta + 1) ∧
        InBlock l cta st c ∧ Ended k l cta st m) l.block.x.toNat
      (fun m inside st st' before turns => by
        obtain ⟨c, replays, block, ended⟩ := before
        exact turn_spec counted flat inGrid inside replays block ended turns) begins threads
    rw [bind_some_iff] at ran
    rcases ran with ⟨e, -, ⟨⟩⟩ | ⟨passed, barriers, ran⟩
    cases passed with
    | none =>
      cases ran
      exact ⟨c₁, replays₁⟩
    | some next =>
      obtain ⟨c₂, replays₂, block₂⟩ := barrier_spec flat inGrid replays₁ block₁ ended₁ barriers
      exact ih replays₂ block₂ ran

/-- A CTA that comes to an end is an execution of the model. -/
theorem block_spec {st st' : St} {c : Cfg} (replays : Replays k l g st c cta)
    (ran : BlockSearch.block (careful k (l.allocs k)) l st cta = some (.ok st')) :
    ∃ c', Replays k l g st' c' (cta + 1) := by
  have fresh := replays.fresh cta (le_refl cta) inGrid
  have begins : InBlock l cta { st with sh := Mem.empty, ts := List.replicate l.block.x.toNat TState.init, phase := 0 }
      c := by
    refine ⟨fresh.sh, by simp, ?_, fresh.ph⟩
    intro t inside
    rw [fresh.ts t, List.getD_eq_getElem?_getD, List.getElem?_replicate_of_lt inside]
    rfl
  have continues : Replays k l g
      { st with sh := Mem.empty, ts := List.replicate l.block.x.toNat TState.init, phase := 0 } c (cta + 1) :=
    ⟨replays.exec, replays.mem, replays.evs, fun b later => replays.fresh b (by omega)⟩
  exact phases_spec counted flat inGrid _ continues begins ran
end

/-! ### Runs to the end -/

/-- A part of a run that returns early does not report an end. -/
def Stops {α : Type} (x : Turn α) : Prop := ∀ e, x = some (.error e) → e.ran ≠ .done

theorem Stops.bind {α β : Type} {x : Turn α} {f : α → Turn β} (first : Stops x) (rest : ∀ a, Stops (f a)) :
    Stops (x >>= f) := by
  intro e ran
  rcases bind_some_iff.mp ran with ⟨e', stopped, same⟩ | ⟨a, -, later⟩
  · cases same
    exact first e stopped
  · exact rest a e later

theorem Stops.foldlM {α : Type} {h : St → α → Turn St} (each : ∀ st a, Stops (h st a)) (xs : List α) :
    ∀ st, Stops (xs.foldlM h st) := by
  induction xs with
  | nil =>
    intro st e ran
    cases ran
  | cons a xs ih =>
    intro st
    rw [List.foldlM_cons]
    exact (each st a).bind ih

theorem stops_turn (f : Stepper) (l : Launch) (cta : ℕ) (st : St) (t : ℕ) : Stops (turn f l cta st t) := by
  intro e ran
  unfold turn at ran
  split at ran
  · cases ran
  · dsimp only at ran
    split at ran
    · cases ran
    · cases ran
    · cases ran
      simp
    · cases ran
      simp

theorem stops_barrier (cta : ℕ) (st : St) : Stops (barrier cta st) := by
  intro e ran
  simp only [barrier] at ran
  split at ran
  · cases ran
  · split at ran
    · cases ran
      simp
    · split at ran
      · cases ran
        simp
      · cases ran

theorem stops_phases (f : Stepper) (l : Launch) (cta n : ℕ) : ∀ st, Stops (phases f l cta n st) := by
  induction n with
  | zero =>
    intro st e ran
    cases ran
    simp
  | succ n ih =>
    intro st
    rw [phases]
    apply (Stops.foldlM (fun st t => stops_turn f l cta st t) _ _).bind
    intro after
    apply (stops_barrier cta after).bind
    intro passed
    cases passed with
    | none =>
      intro e ran
      cases ran
    | some next => exact ih next

theorem run_real {k : Kernel} {l : Launch} (counted : Counted k) (flat : Flat l) {g : Mem} {fuel : ℕ} {r : Report}
    (ran : runWith (careful k (l.allocs k)) l g fuel = some r) (done : r.ran = .done) :
    ∀ e ∈ r.evs, Real k l g r.ch e := by
  unfold runWith at ran
  cases whole : (List.range l.grid.x.toNat).foldlM (BlockSearch.block (careful k (l.allocs k)) l)
      (⟨[], [], g, fuel, Mem.empty, [], 0, []⟩ : St) with
  | none =>
    rw [whole] at ran
    cases ran
  | some e =>
    rw [whole] at ran
    cases e with
    | error e =>
      cases ran
      exact absurd done (Stops.foldlM (fun st cta => stops_phases _ l cta _ _) _ _ _ whole)
    | ok st =>
      cases ran
      obtain ⟨c, replays⟩ := range_foldlM (P := fun m st => ∃ c, Replays k l g st c m) l.grid.x.toNat
        (fun m inside st st' before blocks => by
          obtain ⟨c, replays⟩ := before
          exact block_spec counted flat inside replays blocks)
        ⟨start g, rfl, rfl, by simp, fun b _ _ => ⟨fun _ => rfl, rfl, rfl⟩⟩ whole
      exact replays.evs

/-! ### Races -/

/-- Two recorded accesses that the model's race freedom forbids, in the phases
    that were recorded. -/
def EvRaces (a b : Ev) : Prop := Races (tidOf a.t) (acc a.access) a.phase (tidOf b.t) (acc b.access) b.phase

/-- The schedules of a witness lead to configurations in which its two threads
    are about to make its two accesses, and both cover its byte. -/
def Replayed (k : Kernel) (l : Launch) (g : Mem) (w : Witness) : Prop :=
  (∃ c, (start g).exec (PtxExport.kernel k) (model l) (w.s1.map choice) = some c ∧
      c.pending (PtxExport.kernel k) (model l) (tidOf w.t) = some (acc w.x)) ∧
    (∃ c, (start g).exec (PtxExport.kernel k) (model l) (w.s2.map choice) = some c ∧
      c.pending (PtxExport.kernel k) (model l) (tidOf w.u) = some (acc w.y)) ∧
    PtxModel.Covers w.x.addr w.x.size w.byte ∧ PtxModel.Covers w.y.addr w.y.size w.byte

theorem covers_iff {a x : BitVec 64} {n : ℕ} (below : a.toNat + n < 2 ^ 64) :
    PtxModel.Covers a n x ↔ a.toNat ≤ x.toNat ∧ x.toNat < a.toNat + n := by
  have address := a.isLt
  have byte := x.isLt
  unfold PtxModel.Covers
  rw [BitVec.toNat_sub]
  omega

/-- The common byte of two accesses that end below the last address. -/
theorem overlap_iff {x y : Access} (belowX : x.addr.toNat + x.size < 2 ^ 64) (belowY : y.addr.toNat + y.size < 2 ^ 64)
    (someX : 0 < x.size) (someY : 0 < y.size) :
    (∀ b, overlap x y = some b → PtxModel.Covers x.addr x.size b ∧ PtxModel.Covers y.addr y.size b) ∧
      (overlap x y = none → ∀ b, ¬(PtxModel.Covers x.addr x.size b ∧ PtxModel.Covers y.addr y.size b)) := by
  have endX : (x.addr + BitVec.ofNat 64 x.size).toNat = x.addr.toNat + x.size := by
    rw [BitVec.toNat_add, BitVec.toNat_ofNat]
    omega
  have endY : (y.addr + BitVec.ofNat 64 y.size).toNat = y.addr.toNat + y.size := by
    rw [BitVec.toNat_add, BitVec.toNat_ofNat]
    omega
  simp only [covers_iff belowX, covers_iff belowY, overlap, BitVec.lt_def, BitVec.le_def, endX, endY]
  by_cases starts : x.addr.toNat ≤ y.addr.toNat <;>
  by_cases ends : x.addr.toNat + x.size ≤ y.addr.toNat + y.size <;>
  · simp only [starts, ends, if_true, if_false, endX, endY]
    constructor
    · intro b found
      split at found
      · cases found
        omega
      · cases found
    · intro missing b
      split at missing
      · cases missing
      · omega

section
variable {k : Kernel} {l : Launch} {g : Mem} {ch : List Choice} {a b : Ev}

theorem space_inj (x y : Sp) : space x = space y ↔ x = y := by cases x <;> cases y <;> simp [space]
theorem kind_read (x : Kind) : kind x = .read ↔ x = .read := by cases x <;> simp [kind]
theorem kind_atomic (x : Kind) : kind x = .atomic ↔ x = .atomic := by cases x <;> simp [kind]
theorem space_shared (x : Sp) : space x = .shared ↔ x = .shared := by cases x <;> simp [space]

theorem Real.thread_iff (realA : Real k l g ch a) (realB : Real k l g ch b) :
    tidOf a.t = tidOf b.t ↔ a.t = b.t := by
  have small := l.grid.x.isLt
  have small' := l.block.x.isLt
  have := realA.inGrid
  have := realA.inBlock
  have := realB.inGrid
  have := realB.inBlock
  simp only [tidOf, Tid.mk.injEq, Prod.ext_iff]
  rw [ctaOf_inj (by omega) (by omega), ctaOf_inj (by omega) (by omega)]

theorem Real.cta_iff (realA : Real k l g ch a) (realB : Real k l g ch b) :
    (tidOf a.t).ctaid = (tidOf b.t).ctaid ↔ a.cta = b.cta := by
  have small := l.grid.x.isLt
  have := realA.inGrid
  have := realB.inGrid
  rw [realA.cta, realB.cta]
  exact ctaOf_inj (by omega) (by omega)

theorem Real.access (real : Real k l g ch a) :
    a.access.size = (acc a.access).sz.bytes ∧ 0 < a.access.size ∧ a.access.addr.toNat + a.access.size < 2 ^ 64 := by
  obtain ⟨c, -, ⟨-, size, below⟩, -⟩ := real.replay
  refine ⟨size, ?_, below⟩
  rw [size]
  cases (acc a.access).sz <;> decide

theorem racePair_iff (realA : Real k l g ch a) (realB : Real k l g ch b) :
    (racePair ch a b = none ↔ ¬EvRaces a b) ∧ ∀ w, racePair ch a b = some w → Replayed k l g w := by
  obtain ⟨sizeA, someA, belowA⟩ := realA.access
  obtain ⟨sizeB, someB, belowB⟩ := realB.access
  obtain ⟨covers, missing⟩ := overlap_iff belowA belowB someA someB
  have sizes : (acc a.access).sz = (acc b.access).sz ↔ a.access.size = b.access.size := by
    rw [sizeA, sizeB]
    cases (acc a.access).sz <;> cases (acc b.access).sz <;> decide
  have condition : EvRaces a b ↔ a.t ≠ b.t ∧ (a.access.sp = b.access.sp ∧ (a.access.sp = .shared → a.cta = b.cta) ∧
      (a.access.kind ≠ .read ∨ b.access.kind ≠ .read) ∧
      ∃ x, PtxModel.Covers a.access.addr a.access.size x ∧ PtxModel.Covers b.access.addr b.access.size x) ∧
      ¬(a.access.kind = .atomic ∧ b.access.kind = .atomic ∧ a.access.addr = b.access.addr ∧
        a.access.size = b.access.size) ∧ ¬(a.cta = b.cta ∧ a.phase ≠ b.phase) := by
    unfold EvRaces Races GridModel.Conflict
    rw [Ne, realA.thread_iff realB, realA.cta_iff realB, ← sizeA, ← sizeB, sizes]
    simp only [acc, space_inj, space_shared, ne_eq, kind_read, kind_atomic]
  rw [condition]
  unfold racePair
  split
  · next threads =>
    refine ⟨iff_of_true rfl ?_, by rintro w ⟨⟩⟩
    rintro ⟨differ, ⟨spaces, -⟩, -⟩
    rcases threads with same | other
    · exact differ same
    · exact other spaces
  split
  · next ctas =>
    refine ⟨iff_of_true rfl ?_, by rintro w ⟨⟩⟩
    rintro ⟨-, ⟨-, together, -⟩, -⟩
    exact ctas.2 (together ctas.1)
  split
  · next reads =>
    refine ⟨iff_of_true rfl ?_, by rintro w ⟨⟩⟩
    rintro ⟨-, ⟨-, -, writes, -⟩, -⟩
    rcases writes with write | write
    · exact write reads.1
    · exact write reads.2
  split
  · next apart =>
    refine ⟨iff_of_true rfl ?_, by rintro w ⟨⟩⟩
    rintro ⟨-, ⟨-, -, -, x, common⟩, -⟩
    exact missing apart x common
  next byte common =>
  split
  · next atomics =>
    refine ⟨iff_of_true rfl ?_, by rintro w ⟨⟩⟩
    rintro ⟨-, -, notAtomics, -⟩
    exact notAtomics atomics
  split
  · next phases =>
    refine ⟨iff_of_true rfl ?_, by rintro w ⟨⟩⟩
    rintro ⟨-, -, -, notPhases⟩
    exact notPhases phases
  next threads ctas reads _ atomics phases =>
  constructor
  · refine iff_of_false (by simp) ?_
    rw [not_not]
    rw [not_or, not_not] at threads
    rw [not_and_or] at reads
    have together (shared : a.access.sp = .shared) : a.cta = b.cta := by
      by_contra differ
      exact ctas ⟨shared, differ⟩
    exact ⟨threads.1, ⟨threads.2, together, reads, byte, covers byte common⟩, atomics, phases⟩
  · rintro w ⟨⟩
    obtain ⟨c, executed, ⟨pending, -⟩, -⟩ := realA.replay
    obtain ⟨c', executed', ⟨pending', -⟩, -⟩ := realB.replay
    exact ⟨⟨c, executed, pending⟩, ⟨c', executed', pending'⟩, covers byte common⟩

theorem EvRaces.symm (races : EvRaces a b) : EvRaces b a := by
  obtain ⟨threads, ⟨spaces, ctas, writes, x, first, second⟩, atomics, phases⟩ := races
  refine ⟨threads.symm, ⟨spaces.symm, ?_, writes.symm, x, second, first⟩, ?_, ?_⟩
  · intro shared
    exact (ctas (spaces.trans shared)).symm
  · rintro ⟨kindB, kindA, addr, size⟩
    exact atomics ⟨kindA, kindB, addr.symm, size.symm⟩
  · rintro ⟨cta, phase⟩
    exact phases ⟨cta.symm, phase.symm⟩
end

/-- The search over all pairs of real accesses. -/
theorem race_iff {k : Kernel} {l : Launch} {g : Mem} {ch : List Choice} {evs : List Ev}
    (real : ∀ e ∈ evs, Real k l g ch e) :
    (race ch evs = none ↔ ∀ a ∈ evs, ∀ b ∈ evs, ¬EvRaces a b) ∧ ∀ w, race ch evs = some w → Replayed k l g w := by
  induction evs with
  | nil => exact ⟨by simp [race], by rintro w ⟨⟩⟩
  | cons a rest ih =>
    rw [List.forall_mem_cons] at real
    obtain ⟨none_iff, replayed⟩ := ih real.2
    have self : ¬EvRaces a a := fun races => races.1 rfl
    have firstPair : rest.findSome? (racePair ch a) = none ↔ ∀ b ∈ rest, ¬EvRaces a b := by
      rw [List.findSome?_eq_none_iff]
      constructor
      · intro each b member
        exact (racePair_iff real.1 (real.2 b member)).1.mp (each b member)
      · intro each b member
        exact (racePair_iff real.1 (real.2 b member)).1.mpr (each b member)
    constructor
    · rw [race, Option.or_eq_none_iff, firstPair, none_iff]
      simp only [List.forall_mem_cons]
      constructor
      · rintro ⟨first, later⟩
        refine ⟨⟨self, first⟩, fun b member => ⟨?_, later b member⟩⟩
        intro races
        exact first b member races.symm
      · rintro ⟨⟨-, first⟩, later⟩
        exact ⟨first, fun b member => (later b member).2⟩
    · intro w found
      rw [race] at found
      cases pair : rest.findSome? (racePair ch a) with
      | none =>
        rw [pair, Option.none_or] at found
        exact replayed w found
      | some w' =>
        rw [pair, Option.some_or] at found
        cases found
        obtain ⟨b, member, raced⟩ := List.exists_of_findSome?_eq_some pair
        exact (racePair_iff real.1 (real.2 b member)).2 w raced

/-- In a run to the end of a flat launch whose steps all start in states that
    meet the condition, the search reports a race exactly when two recorded
    accesses race, and the model replays what it reports. -/
theorem race_correct {k : Kernel} {l : Launch} {g : Mem} {fuel : ℕ} {r : Report} (counted : Counted k) (flat : Flat l)
    (meets : Careful k l g fuel) (ran : run k l g fuel = some r) (done : r.ran = .done) :
    (race r.ch r.evs = none ↔ ∀ a ∈ r.evs, ∀ b ∈ r.evs, ¬EvRaces a b) ∧
      ∀ w, race r.ch r.evs = some w → Replayed k l g w := by
  obtain ⟨r', careful⟩ := Option.isSome_iff_exists.mp meets
  have same := runWith_mono (careful_agrees k (l.allocs k)) l careful
  rw [run, same, Option.some_inj] at ran
  subst ran
  exact race_iff (run_real counted flat careful done)

def sharedKernel : Kernel where
  visible := false
  name := "f"
  params := []
  regs := []
  shared := [⟨none, "b32", "x", none⟩]
  decls := [.shared 0]
  body := [⟨none, .st .shared .u32 (.param "x" none) (.imm 7)⟩, ⟨none, .ret⟩]
  labels := []

def sharedLaunch : Launch := ⟨⟨1, 1, 1⟩, ⟨2, 1, 1⟩, HashMap.empty, HashMap.empty.insert "x" 64, []⟩

theorem meets_shared {c : Ctx} (placed : c.sym "x" = some 64) (s : TState) :
    Meets sharedKernel (sharedLaunch.allocs sharedKernel) c s := by
  have address : (c.sym "x").getD 0 + imm ((none : Option ℤ).getD 0) = 64 := by
    rw [placed]
    decide
  have statement (st : Stmt) (current : sharedKernel.body[s.pc]? = some st) :
      st = ⟨none, .st .shared .u32 (.param "x" none) (.imm 7)⟩ ∨ st = ⟨none, .ret⟩ := by
    have member := List.mem_of_getElem? current
    simpa [sharedKernel] using member
  refine ⟨?_, ?_, ?_⟩
  · intro st current _
    rcases statement st current with rfl | rfl
    · exact ⟨⟨by decide, by decide⟩, rfl⟩
    · exact ⟨trivial, rfl⟩
  · intro st current _ sp t a sp' x operand place
    rcases statement st current with rfl | rfl
    · cases operand
      simp only [dataAddr, address, Option.some_inj, Prod.mk.injEq] at place
      obtain ⟨rfl, rfl⟩ := place
      refine .inr (.inl ⟨⟨64, 4⟩, ?_, ?_, ?_, ?_⟩)
      · simp [Launch.allocs, Allocs.of, sharedRegions, sharedKernel, sharedLaunch, HashMap.insert, SharedDecl.size,
          SharedDecl.elemBytes]
      · unfold Bounded
        decide
      · decide
      · decide
    · cases operand
  · intro p pending
    cases current : sharedKernel.body[s.pc]? with
    | none =>
      rw [action_of c s current] at pending
      cases pending
    | some st =>
      rw [action_of c s current] at pending
      rcases statement st current with rfl | rfl
      · have store : p = ⟨.shared, (c.sym "x").getD 0 + imm ((none : Option ℤ).getD 0), .b4, .write⟩ :=
          (Option.some_inj.mp pending).symm
        rw [store, address]
        decide
      · cases pending

theorem race_correct_known : ∃ r w, run sharedKernel sharedLaunch Mem.empty 9 = some r ∧ race r.ch r.evs = some w ∧
    Replayed sharedKernel sharedLaunch Mem.empty w := by
  have counted : Counted sharedKernel := by
    intro d member n count
    rw [List.mem_singleton.mp member] at count
    cases count
  have meets : Careful sharedKernel sharedLaunch Mem.empty 9 := by
    have placed : (runWith (fun c s g sh => if c.sym "x" = some 64 then
        PtxMachine.step sharedKernel (sharedLaunch.allocs sharedKernel) c s g sh else none)
        sharedLaunch Mem.empty 9).isSome = true := by decide
    obtain ⟨r, ran⟩ := Option.isSome_iff_exists.mp placed
    rw [Careful, runWith_mono _ _ ran]
    · rfl
    · intro c s g sh o stepped
      split at stepped
      · next x =>
        rw [careful, if_pos (meets_shared x s)]
        exact stepped
      · cases stepped
  have result : (run sharedKernel sharedLaunch Mem.empty 9).map (fun r => (r.ran, (race r.ch r.evs).isSome)) =
      some (.done, true) := by decide
  obtain ⟨r, ran, ends⟩ := Option.map_eq_some_iff.mp result
  obtain ⟨done, raced⟩ := Prod.mk.inj ends
  obtain ⟨w, found⟩ := Option.isSome_iff_exists.mp raced
  exact ⟨r, w, ran, found, (race_correct counted ⟨rfl, rfl, rfl, rfl⟩ meets ran done).2 w found⟩

/-- Two threads that write the last word of the address space. -/
def topText : String :=
  ".version 8.5 .target sm_80 .address_size 64 .entry f(.param .u64 p)\x7b.reg .b32 %r;.reg .b64 %a;" ++
    "ld.param.u64 %a,[p];st.global.u32 [%a],%r;ret;\x7d"

def topKernel : Kernel where
  visible := false
  name := "f"
  params := [("p", .u64)]
  regs := [⟨.b32, "%r", none⟩, ⟨.b64, "%a", none⟩]
  shared := []
  decls := [.reg 0, .reg 1]
  body := [⟨none, .ld .param .u64 "%a" (.param "p" none)⟩, ⟨none, .st .global .u32 (.reg "%a" none) (.reg "%r")⟩,
    ⟨none, .ret⟩]
  labels := []

def topLaunch : Launch := ⟨⟨1, 1, 1⟩, ⟨2, 1, 1⟩, HashMap.empty.insert "p" (-4), HashMap.empty, [⟨-4, 4⟩]⟩

theorem topText_parse : PtxParser.parseModule topText = .ok ⟨"8.5", "sm_80", 64, [topKernel]⟩ := by
  have parsed : (PtxParser.parseModule topText).toOption = some ⟨"8.5", "sm_80", 64, [topKernel]⟩ := by
    have chars : topText.toList = _ ++ _ :=
      String.toList_append.trans (congrArg₂ (· ++ ·) String.toList_ofList String.toList_ofList)
    rw [PtxParser.parseModule_chars chars]
    decide +kernel
  cases result : PtxParser.parseModule topText with
  | error e =>
    rw [result] at parsed
    contradiction
  | ok m =>
    rw [result] at parsed
    rw [Option.some_inj.mp parsed]

/-- The end of the last word wraps to zero, and the race of two writes to it is
    not found. -/
theorem race_misses :
    ¬∀ (src : String) (m : Module), PtxParser.parseModule src = .ok m → ∀ k ∈ m.kernels, ∀ (l : Launch) (g : Mem)
      (fuel : ℕ) (r : Report), Flat l → run k l g fuel = some r → r.ran = .done →
        (race r.ch r.evs = none ↔ ∀ a ∈ r.evs, ∀ b ∈ r.evs, ¬EvRaces a b) := by
  intro every
  have result : (run topKernel topLaunch Mem.empty 9).map (fun r => (r.ran, race r.ch r.evs, r.evs)) =
      some (.done, none, [⟨(0, 0), 0, 0, ⟨.global, -4, 4, .write⟩, 0, 1⟩,
        ⟨(0, 1), 0, 0, ⟨.global, -4, 4, .write⟩, 1, 1⟩]) := by decide
  obtain ⟨r, ran, ends⟩ := Option.map_eq_some_iff.mp result
  obtain ⟨done, missed⟩ := Prod.mk.inj ends
  obtain ⟨missed, events⟩ := Prod.mk.inj missed
  have safe := (every _ _ topText_parse topKernel (List.mem_singleton_self _) topLaunch Mem.empty 9 r
    ⟨rfl, rfl, rfl, rfl⟩ ran done).mp missed
  rw [events] at safe
  apply safe _ (List.mem_cons_self ..) _ (List.mem_cons_of_mem _ (List.mem_cons_self ..))
  refine ⟨by decide, ⟨rfl, by decide, .inl (by decide), -4, ?_, ?_⟩, by decide, by decide⟩
  · unfold PtxModel.Covers
    decide
  · unfold PtxModel.Covers
    decide

end E5r.BlockReplays
