import E5r.GridRun
import E5r.Lockstep
import E5r.BlockReplays

/-!
The recorded schedule of a one-dimensional launch and the interpreter's own run
of it are one execution: they end alike, leave the same global memory and record
the same accesses in the same order.
-/
namespace E5r.GridAgrees
open PtxSyntax PtxMachine PtxValues
open BlockSearch (Launch End Solo Stepper runUntilWait Choice Ev)
open BlockReplays (Flat)
open GridRun (Event row)
open Lockstep

def ranSteps (t : ℕ × ℕ) : List Choice → ℕ
  | [] => 0
  | .run u n :: cs => (if u = t then n else 0) + ranSteps t cs
  | .rel _ :: cs => ranSteps t cs

theorem ranSteps_append (t : ℕ × ℕ) (cs ds : List Choice) : ranSteps t (cs ++ ds) = ranSteps t cs + ranSteps t ds := by
  induction cs with
  | nil => simp [ranSteps]
  | cons choice cs ih =>
    cases choice with
    | run u n => simp [ranSteps, ih, Nat.add_assoc]
    | rel b => simp [ranSteps, ih]

/-- The step of its thread at which a recorded access was made. -/
def stepOf (ch : List Choice) (e : Ev) : ℕ := ranSteps e.t (ch.take e.prefix_) + e.within

theorem stepOf_grow {ch : List Choice} {e : Ev} (bounded : e.prefix_ ≤ ch.length) (more : List Choice) :
    stepOf (ch ++ more) e = stepOf ch e := by
  rw [stepOf, stepOf, List.take_append_of_le_length bounded]

/-- A recorded access as the interpreter's run records it. -/
def event (l : Launch) (ch : List Choice) (e : Ev) : Event :=
  ⟨e.t.1 * l.block.x.toNat + e.t.2, e.phase, stepOf ch e, e.access⟩

theorem events_grow {l : Launch} {ch : List Choice} {evs : List Ev} (bounded : ∀ e ∈ evs, e.prefix_ ≤ ch.length)
    (more : List Choice) : evs.map (event l (ch ++ more)) = evs.map (event l ch) := by
  apply List.map_congr_left
  intro e inside
  rw [event, event, stepOf_grow (bounded e inside)]

def SameEnd (l : Launch) : BlockSearch.Ran → GridRun.GridEnd → Prop
  | .done, .done => True
  | .fault (some t) why, .fault thread why' => thread = t.1 * l.block.x.toNat + t.2 ∧ why' = why
  | .fault none why, .diverged _ => why = "barrier diverged"
  | .fuel, .outOfFuel => True
  | _, _ => False

structure SameReport (l : Launch) (r : BlockSearch.Report) (q : GridRun.Report) : Prop where
  ended : SameEnd l r.ran q.ended
  events : q.events = r.evs.map (event l r.ch)
  g : q.g = r.g

/-- The variables of both runs agree inside the CTA, `m` of whose threads ran in
    the current phase; the CTAs after it have not run. -/
structure Same (l : Launch) (cta m : ℕ) (st : BlockSearch.St) (gs : GridRun.St) : Prop where
  events : gs.events = st.evs.map (event l st.ch)
  bounded : ∀ e ∈ st.evs, e.prefix_ ≤ st.ch.length
  g : gs.g = st.g
  left : gs.left = st.left
  sh : gs.sh = st.sh
  ts : gs.ts = st.ts
  phase : gs.phase = st.phase
  ends : gs.ends = st.ends
  lenTs : st.ts.length = l.block.x.toNat
  lenSteps : gs.steps.length = l.block.x.toNat
  lenEnds : st.ends.length = m
  steps : ∀ t < l.block.x.toNat, gs.steps.getD t 0 = ranSteps (cta, t) st.ch
  fresh : ∀ b, cta < b → ∀ t, ranSteps (b, t) st.ch = 0

def contexts (l : Launch) (cta : ℕ) : List Ctx := (row l cta).map fun (c, t) => l.ctx c t

theorem contexts_get {l : Launch} {cta t : ℕ} (inside : t < l.block.x.toNat) :
    (contexts l cta)[t]? = some (l.ctx ⟨BitVec.ofNat 32 cta, 0, 0⟩ ⟨BitVec.ofNat 32 t, 0, 0⟩) := by
  simp [contexts, row, GridModel.range32, inside]

section
variable {f : Stepper} {l : Launch} {cta : ℕ}

private theorem turn_events {m t : ℕ} {st : BlockSearch.St} {gs : GridRun.St} (same : Same l cta m st gs)
    (inside : t < l.block.x.toNat) (made : List (ℕ × Access)) (more : List Choice) :
    (gs.events ++ made.map fun (n, a) =>
        (⟨cta * l.block.x.toNat + t, gs.phase, gs.steps.getD t 0 + n, a⟩ : Event)) =
      (st.evs ++ made.map fun (i, a) => (⟨(cta, t), cta, st.phase, a, st.ch.length, i⟩ : Ev)).map
        (event l (st.ch ++ more)) := by
  rw [List.map_append, events_grow same.bounded, same.events, List.map_map]
  congr 1
  apply List.map_congr_left
  rintro ⟨n, a⟩ -
  simp only [Function.comp_apply, event, stepOf, List.take_left, same.phase, same.steps t inside]

theorem turn_alike {t : ℕ} {st : BlockSearch.St} {gs : GridRun.St} (inside : t < l.block.x.toNat)
    (same : Same l cta t st gs) :
    Alike (Same l cta (t + 1)) (SameReport l) (BlockSearch.turn f l cta st t)
      (GridRun.turn f cta l.block.x.toNat (contexts l cta) gs t) := by
  unfold BlockSearch.turn GridRun.turn
  rw [contexts_get inside]
  simp only [same.ts, same.g, same.sh, same.left]
  generalize runUntilWait f _ _ _ _ _ = ran
  cases ran with
  | none => exact .panics
  | some r =>
    have recorded := turn_events same inside r.acc
    have goes (used : ℕ) : Same l cta (t + 1)
        { st with ch := st.ch ++ [.run (cta, t) used],
                  evs := st.evs ++ r.acc.map fun (i, a) => ⟨(cta, t), cta, st.phase, a, st.ch.length, i⟩,
                  g := r.g, left := st.left - used, sh := r.sh, ts := st.ts.set t r.s, ends := st.ends ++ [r.e] }
        { events := gs.events ++ r.acc.map fun (n, a) =>
            ⟨cta * l.block.x.toNat + t, gs.phase, gs.steps.getD t 0 + n, a⟩,
          g := r.g, left := st.left - used, sh := r.sh, ts := st.ts.set t r.s,
          steps := gs.steps.set t (gs.steps.getD t 0 + used), phase := gs.phase, ends := gs.ends ++ [r.e] } := by
      refine ⟨recorded _, ?_, rfl, rfl, rfl, rfl, same.phase, by rw [same.ends], ?_, ?_, ?_, ?_, ?_⟩
      · intro e member
        simp only [List.length_append, List.length_cons, List.length_nil]
        rcases List.mem_append.mp member with before | now
        · have := same.bounded e before
          omega
        · obtain ⟨⟨i, a⟩, -, rfl⟩ := List.mem_map.mp now
          simp
      · rw [List.length_set, same.lenTs]
      · rw [List.length_set, same.lenSteps]
      · rw [List.length_append, same.lenEnds]
        rfl
      · intro u inBlock
        simp only [ranSteps_append, ranSteps, Nat.add_zero, Prod.mk.injEq, true_and]
        by_cases current : t = u
        · subst current
          have long : t < gs.steps.length := by rw [same.lenSteps]; exact inside
          rw [if_pos rfl, ← same.steps t inside, List.getD_eq_getElem?_getD, List.getElem?_set_self long,
            Option.getD_some]
        · rw [if_neg current, Nat.add_zero, ← same.steps u inBlock]
          simp [List.getD_eq_getElem?_getD, List.getElem?_set_ne current]
      · intro b later u
        simp only [ranSteps_append, ranSteps, same.fresh b later u, Prod.mk.injEq]
        rw [if_neg (by omega)]
    have unchanged := recorded []
    rw [List.append_nil] at unchanged
    obtain ⟨e, acc, s, g, sh⟩ := r
    cases e with
    | halted used => exact .goes (goes used)
    | wait used => exact .goes (goes used)
    | fault used why => exact .stops ⟨⟨rfl, rfl⟩, recorded _, rfl⟩
    | outOfFuel => exact .stops ⟨trivial, unchanged, rfl⟩

/-- After a barrier both CTAs have ended or both go on. -/
def SamePhase (l : Launch) (cta : ℕ) : Option BlockSearch.St → Option GridRun.St → Prop
  | none, none => True
  | some st, some gs => Same l cta l.block.x.toNat st gs
  | _, _ => False

theorem barrier_alike {st : BlockSearch.St} {gs : GridRun.St} (same : Same l cta l.block.x.toNat st gs) :
    Alike (SamePhase l cta) (SameReport l) (BlockSearch.barrier cta st) (GridRun.barrier cta l.block.x.toNat gs) := by
  unfold BlockSearch.barrier GridRun.barrier
  simp only [same.ts, same.ends, same.lenTs, same.lenEnds, same.left]
  generalize (List.range l.block.x.toNat).filter _ = waiting
  cases waiting with
  | nil => exact .goes trivial
  | cons first rest =>
    dsimp only
    have grown := events_grow (l := l) same.bounded [Choice.rel cta]
    split
    · exact .stops ⟨rfl, same.events, same.g⟩
    · split
      · exact .stops ⟨trivial, by rw [same.events]; exact grown.symm, same.g⟩
      · refine .goes ⟨by rw [same.events]; exact grown.symm, ?_, same.g, rfl, same.sh, rfl, ?_, rfl, ?_, same.lenSteps,
          same.lenEnds, ?_, ?_⟩
        · intro e member
          have := same.bounded e member
          simp only [List.length_append]
          omega
        · rw [same.phase]
        · rw [List.length_map, same.lenTs]
        · intro t inside
          simp only [ranSteps_append, ranSteps, Nat.add_zero]
          exact same.steps t inside
        · intro b later t
          simp only [ranSteps_append, ranSteps, Nat.add_zero]
          exact same.fresh b later t

theorem phases_alike (n : ℕ) : ∀ {m : ℕ} {st : BlockSearch.St} {gs : GridRun.St}, Same l cta m st gs →
    Alike (fun st' gs' => Same l cta l.block.x.toNat st' gs') (SameReport l) (BlockSearch.phases f l cta n st)
      (GridRun.phases f cta l.block.x.toNat (contexts l cta) n gs) := by
  induction n with
  | zero =>
    intro m st gs same
    exact .stops ⟨trivial, same.events, same.g⟩
  | succ n ih =>
    intro m st gs same
    have count : gs.ts.length = l.block.x.toNat := by rw [same.ts, same.lenTs]
    rw [BlockSearch.phases, GridRun.phases, count]
    have start : Same l cta 0 { st with ends := [] } { gs with ends := [] } :=
      { same with ends := rfl, lenEnds := rfl }
    apply (Alike.range (R := Same l cta) (f := BlockSearch.turn f l cta) l.block.x.toNat
      (fun t inside a b running => turn_alike inside running) start).bind
    intro after after' ran
    apply (barrier_alike ran).bind
    intro next next' passed
    cases next with
    | none =>
      cases next' with
      | none => exact .goes ran
      | some gs' => exact passed.elim
    | some st' =>
      cases next' with
      | none => exact passed.elim
      | some gs' => exact ih passed

/-- The variables of both runs between two CTAs. -/
structure Between (l : Launch) (cta : ℕ) (st : BlockSearch.St) (gs : GridRun.St) : Prop where
  events : gs.events = st.evs.map (event l st.ch)
  bounded : ∀ e ∈ st.evs, e.prefix_ ≤ st.ch.length
  g : gs.g = st.g
  left : gs.left = st.left
  ends : gs.ends = st.ends
  fresh : ∀ b, cta ≤ b → ∀ t, ranSteps (b, t) st.ch = 0

theorem block_alike {st : BlockSearch.St} {gs : GridRun.St} (between : Between l cta st gs) :
    Alike (Between l (cta + 1)) (SameReport l) (BlockSearch.block f l st cta)
      (GridRun.block f l l.block.x.toNat Mem.empty gs (row l cta, cta)) := by
  have length : (row l cta).length = l.block.x.toNat := by rw [row, List.length_map, GridRun.length_range32]
  have start : Same l cta st.ends.length
      { st with sh := Mem.empty, ts := List.replicate l.block.x.toNat TState.init, phase := 0 }
      { gs with sh := Mem.empty, ts := List.replicate l.block.x.toNat TState.init,
                steps := List.replicate l.block.x.toNat 0, phase := 0 } := by
    refine ⟨between.events, between.bounded, between.g, between.left, rfl, rfl, rfl, between.ends, by simp, by simp,
      rfl, ?_, ?_⟩
    · intro t inside
      rw [between.fresh cta (le_refl _)]
      simp [inside]
    · intro b later
      exact between.fresh b (le_of_lt later)
  have whole := phases_alike (f := f) (st.left + 1) start
  have fuel : gs.left + 1 = st.left + 1 := by rw [between.left]
  rw [BlockSearch.block, GridRun.block, length, fuel]
  refine whole.mono ?_
  intro a b same
  exact ⟨same.events, same.bounded, same.g, same.left, same.ends, fun later above => same.fresh later above⟩

end

private theorem run_empty {f : Stepper} {l : Launch} (empty : l.block.x.toNat = 0) (g : Mem) (fuel : ℕ) :
    BlockSearch.runWith f l g fuel = some ⟨.done, [], [], g⟩ := by
  have single (st : BlockSearch.St) (cta : ℕ) : BlockSearch.block f l st cta =
      pure { st with sh := Mem.empty, ts := [], phase := 0, ends := [] } := by
    rw [BlockSearch.block, BlockSearch.phases, empty]
    rfl
  have loop (n : ℕ) : ∀ st : BlockSearch.St, ∃ st' : BlockSearch.St,
      (List.range n).foldlM (BlockSearch.block f l) st = some (.ok st') ∧ st'.ch = st.ch ∧ st'.evs = st.evs ∧
        st'.g = st.g := by
    induction n with
    | zero =>
      intro st
      exact ⟨st, rfl, rfl, rfl, rfl⟩
    | succ n ih =>
      intro st
      obtain ⟨st', ran, ch, evs, g⟩ := ih st
      refine ⟨{ st' with sh := Mem.empty, ts := [], phase := 0, ends := [] }, ?_, ch, evs, g⟩
      rw [List.range_succ, List.foldlM_append, Fallible.bind_some_iff]
      refine .inr ⟨st', ran, ?_⟩
      rw [List.foldlM_cons, single]
      rfl
  obtain ⟨st', ran, ch, evs, left⟩ := loop l.grid.x.toNat ⟨[], [], g, fuel, Mem.empty, [], 0, []⟩
  rw [BlockSearch.runWith, ran]
  simp only [ch, evs, left]

def SameRun (l : Launch) : Option BlockSearch.Report → Option GridRun.Report → Prop
  | none, none => True
  | some r, some q => SameReport l r q
  | _, _ => False

theorem run_same {f : Stepper} {l : Launch} (flat : Flat l) (g : Mem) (fuel : ℕ) :
    SameRun l (BlockSearch.runWith f l g fuel) (GridRun.runWith f l g Mem.empty fuel) := by
  obtain ⟨gridY, gridZ, blockY, blockZ⟩ := flat
  have per : l.block.x.toNat * l.block.y.toNat * l.block.z.toNat = l.block.x.toNat := by
    rw [blockY, blockZ]
    simp
  rw [GridRun.runWith, per]
  by_cases empty : l.block.x.toNat = 0
  · rw [run_empty empty, if_pos empty]
    exact ⟨trivial, rfl, rfl⟩
  · have some : 0 < l.block.x.toNat := Nat.pos_of_ne_zero empty
    have start : Between l 0 ⟨[], [], g, fuel, Mem.empty, [], 0, []⟩ ⟨[], g, fuel, Mem.empty, [], [], 0, []⟩ :=
      ⟨rfl, by simp, rfl, rfl, rfl, fun _ _ _ => rfl⟩
    have whole := Alike.range (f := BlockSearch.block f l)
      (g := fun gs ci => GridRun.block f l l.block.x.toNat Mem.empty gs (row l ci, ci)) l.grid.x.toNat
      (fun cta _ a b between => block_alike between) start
    rw [if_neg empty, max_eq_left some, GridRun.chunks_threads gridY gridZ blockY blockZ some, List.foldlM_map,
      BlockSearch.runWith]
    revert whole
    generalize (List.range l.grid.x.toNat).foldlM (BlockSearch.block f l) _ = x
    generalize (List.range l.grid.x.toNat).foldlM (fun gs ci => GridRun.block f l _ _ gs (row l ci, ci)) _ = y
    intro whole
    cases whole with
    | panics => exact trivial
    | stops reports => exact reports
    | goes states => exact ⟨trivial, states.events, states.g⟩

end E5r.GridAgrees
