import E5r.GridAgrees

/-!
Executing a recorded schedule on the interpreter: every choice runs one thread
for its steps or releases the barrier of one CTA. The schedule that a run records
reproduces the run, but for a turn that the fuel cuts short, which is not
recorded.
-/
namespace E5r.ChoiceReplay
open PtxSyntax PtxMachine PtxValues
open BlockSearch (Launch End Solo Stepper Choice Ev soloLoop runUntilWait)
open BlockReplays (Flat)
open GridAgrees (ranSteps ranSteps_append stepOf stepOf_grow event SameRun SameReport run_same)
open Lockstep

/-! ### Executing choices -/

/-- An access of an execution: its thread, the barriers its CTA had passed and
    the steps the thread had made. -/
structure Entry where
  t : ℕ × ℕ
  phase : ℕ
  step : ℕ
  access : Access
deriving DecidableEq

/-- The state of an execution: every thread and CTA, the global memory and the
    accesses made so far. -/
structure World where
  ts : ℕ × ℕ → TState
  sh : ℕ → Mem
  g : Mem
  phase : ℕ → ℕ
  steps : ℕ × ℕ → ℕ
  log : List Entry

def World.init (g : Mem) : World := ⟨fun _ => TState.init, fun _ => Mem.empty, g, fun _ => 0, fun _ => 0, []⟩

section
variable (k : Kernel) (l : Launch)

def context (t : ℕ × ℕ) : Ctx := l.ctx ⟨BitVec.ofNat 32 t.1, 0, 0⟩ ⟨BitVec.ofNat 32 t.2, 0, 0⟩

def World.next (w : World) (t : ℕ × ℕ) : Option Outcome :=
  PtxMachine.step k (l.allocs k) (context l t) (w.ts t) w.g (w.sh t.1)

/-- The state after a step of a thread, with the access it made. -/
def World.advance (w : World) (t : ℕ × ℕ) (o : Outcome) (a : Option Access) : World :=
  { ts := Function.update w.ts t o.s, sh := Function.update w.sh t.1 o.sh, g := o.g, phase := w.phase,
    steps := Function.update w.steps t (w.steps t + 1),
    log := w.log ++ (a.map fun a => ⟨t, w.phase t.1, w.steps t, a⟩).toList }

/-- One step of a thread that neither waits nor ends. -/
def World.stepT (w : World) (t : ℕ × ℕ) : Option World :=
  match w.next k l t with
  | none => none
  | some o =>
    match o.res with
    | .ok a => some (w.advance t o a)
    | _ => none

def World.runT (t : ℕ × ℕ) : ℕ → World → Option World
  | 0, w => some w
  | n + 1, w => (w.stepT k l t).bind (World.runT t n)

/-- A thread is at a barrier. -/
def World.waits (w : World) (t : ℕ × ℕ) : Bool :=
  match w.next k l t with
  | some ⟨.wait, _, _, _⟩ => true
  | _ => false

/-- All threads of a CTA wait at one barrier. -/
def World.ready (w : World) (cta : ℕ) : Bool :=
  (List.range l.block.x.toNat).all fun t => w.waits k l (cta, t) && (w.ts (cta, t)).pc == (w.ts (cta, 0)).pc

/-- Every thread of a CTA passes its barrier. -/
def World.release (w : World) (cta : ℕ) : World :=
  { w with ts := fun t => if t.1 = cta then (w.ts t).skip else w.ts t,
           phase := Function.update w.phase cta (w.phase cta + 1) }

/-- Execute a schedule; none when a choice cannot be taken. -/
def exec : List Choice → World → Option World
  | [], w => some w
  | .run t n :: cs, w =>
    if t.1 < l.grid.x.toNat ∧ t.2 < l.block.x.toNat then (World.runT k l t n w).bind (exec cs) else none
  | .rel cta :: cs, w =>
    if cta < l.grid.x.toNat ∧ 0 < l.block.x.toNat ∧ w.ready k l cta then exec cs (w.release cta) else none
end

section
variable {k : Kernel} {l : Launch}

theorem exec_append {cs : List Choice} : ∀ {w : World} {ds : List Choice},
    exec k l (cs ++ ds) w = (exec k l cs w).bind (exec k l ds) := by
  induction cs with
  | nil =>
    intro w ds
    rfl
  | cons choice cs ih =>
    intro w ds
    cases choice with
    | run t n =>
      simp only [List.cons_append, exec]
      split
      · cases World.runT k l t n w with
        | none => rfl
        | some w' => exact ih
      · rfl
    | rel cta =>
      simp only [List.cons_append, exec]
      split
      · exact ih
      · rfl

/-! ### One thread alone -/

/-- A thread made steps: they ran, its accesses were logged and nothing of the
    other threads changed. -/
structure Advanced (k : Kernel) (l : Launch) (t : ℕ × ℕ) (base n : ℕ) (made : List (ℕ × Access)) (w w' : World) :
    Prop where
  ran : World.runT k l t n w = some w'
  others : ∀ u, u ≠ t → w'.ts u = w.ts u ∧ w'.steps u = w.steps u
  shared : ∀ b, b ≠ t.1 → w'.sh b = w.sh b
  phase : w'.phase = w.phase
  steps : w'.steps t = w.steps t + n
  log : w'.log = w.log ++ made.map fun (i, a) => ⟨t, w.phase t.1, base + i, a⟩

theorem Advanced.refl (t : ℕ × ℕ) (base : ℕ) (w : World) : Advanced k l t base 0 [] w w :=
  ⟨rfl, fun _ _ => ⟨rfl, rfl⟩, fun _ _ => rfl, rfl, rfl, (List.append_nil _).symm⟩

theorem Advanced.step {t : ℕ × ℕ} {base n i : ℕ} {made : List (ℕ × Access)} {w w' : World} {o : Outcome}
    {a : Option Access} (stepped : w.next k l t = some o) (on : o.res = .ok a) (count : w.steps t = base + i)
    (rest : Advanced k l t base n made (w.advance t o a) w') :
    Advanced k l t base (n + 1) ((a.map fun a => (i, a)).toList ++ made) w w' := by
  obtain ⟨ran, others, shared, phase, steps, log⟩ := rest
  refine ⟨?_, ?_, ?_, phase, ?_, ?_⟩
  · simp only [World.runT, World.stepT, stepped, on, Option.bind_some]
    exact ran
  · intro u other
    obtain ⟨ts, counted⟩ := others u other
    simp only [World.advance, Function.update_of_ne other] at ts counted
    exact ⟨ts, counted⟩
  · intro b other
    have kept := shared b other
    simpa only [World.advance, Function.update_of_ne other] using kept
  · simp only [World.advance, Function.update_self] at steps
    omega
  · rw [log]
    simp only [World.advance, List.map_append, ← List.append_assoc]
    congr 2
    cases a with
    | none => rfl
    | some a => simp [count]

/-- What a solo run of a thread says about the state it stops in. -/
def Stopped (k : Kernel) (l : Launch) (t : ℕ × ℕ) (w : World) : End → Prop
  | .halted _ => Reaches k (w.ts t) .ret ∨ Reaches k (w.ts t) .exit
  | .wait _ => Reaches k (w.ts t) .bar
  | .fault _ why => ∃ o, w.next k l t = some o ∧ o.res = .fault why
  | .outOfFuel => True

/-- The steps of a solo run, from its `i`-th on. -/
def Used (i fuel : ℕ) : End → ℕ → Prop
  | .halted u, n | .wait u, n | .fault u _, n => u = i + n
  | .outOfFuel, n => n = fuel

theorem solo_replay {t : ℕ × ℕ} {base : ℕ} (fuel : ℕ) :
    ∀ {w : World} {i : ℕ} {made : List (ℕ × Access)} {r : Solo}, w.steps t = base + i →
      soloLoop (PtxMachine.step k (l.allocs k)) (context l t) fuel i (w.ts t) w.g (w.sh t.1) made = some r →
      ∃ n more w', r.acc = made ++ more ∧ Used i fuel r.e n ∧ Advanced k l t base n more w w' ∧
        w'.ts t = r.s ∧ w'.g = r.g ∧ w'.sh t.1 = r.sh ∧ Stopped k l t w' r.e := by
  induction fuel with
  | zero =>
    intro w i made r _ ran
    cases ran
    exact ⟨0, [], w, (List.append_nil _).symm, rfl, Advanced.refl t base w, rfl, rfl, rfl, trivial⟩
  | succ fuel ih =>
    intro w i made r count ran
    rw [soloLoop] at ran
    cases stepped : PtxMachine.step k (l.allocs k) (context l t) (w.ts t) w.g (w.sh t.1) with
    | none =>
      rw [stepped] at ran
      cases ran
    | some o =>
      rw [stepped] at ran
      have next : w.next k l t = some o := stepped
      rcases step_ends stepped with ⟨a, on⟩ | ⟨why, rfl⟩ | ⟨reached, rfl⟩ | ⟨reached, rfl⟩
      · simp only [on] at ran
        have here : (w.advance t o a).ts t = o.s ∧ (w.advance t o a).g = o.g ∧ (w.advance t o a).sh t.1 = o.sh := by
          simp [World.advance]
        rw [← here.1, ← here.2.1, ← here.2.2] at ran
        obtain ⟨n, more, w', acc, used, advanced, s, g, sh, stopped⟩ := ih (i := i + 1)
          (by simp only [World.advance, Function.update_self]; omega) ran
        refine ⟨n + 1, (a.map fun a => (i, a)).toList ++ more, w', by rw [acc, List.append_assoc], ?_,
          advanced.step next on count, s, g, sh, stopped⟩
        cases e : r.e <;> rw [e] at used <;> simp only [Used] at used ⊢ <;> omega
      · cases ran
        exact ⟨0, [], w, (List.append_nil _).symm, rfl, Advanced.refl t base w, rfl, rfl, rfl, _, next, rfl⟩
      · cases ran
        exact ⟨0, [], w, (List.append_nil _).symm, rfl, Advanced.refl t base w, rfl, rfl, rfl, reached⟩
      · cases ran
        exact ⟨0, [], w, (List.append_nil _).symm, rfl, Advanced.refl t base w, rfl, rfl, rfl, reached⟩
end

/-! ### The recorded schedule -/

/-- A recorded access as an execution logs it. -/
def entry (ch : List Choice) (e : Ev) : Entry := ⟨e.t, e.phase, stepOf ch e, e.access⟩

def AtEnd (k : Kernel) (s : TState) : Prop := Reaches k s .ret ∨ Reaches k s .exit

/-- A thread is where its turn ended. -/
def Rested (k : Kernel) (s : TState) : End → Prop
  | .halted _ => AtEnd k s
  | .wait _ => Reaches k s .bar
  | _ => False

/-- What holds of a run between its choices: they execute to a state with the
    same global memory, log and step counts. The CTAs before `past` are at their
    end, those from `next` on have not started. -/
structure Replays (k : Kernel) (l : Launch) (g : Mem) (past next : ℕ) (st : BlockSearch.St) (w : World) : Prop where
  ran : exec k l st.ch (World.init g) = some w
  mem : w.g = st.g
  log : w.log = st.evs.map (entry st.ch)
  bounded : ∀ e ∈ st.evs, e.prefix_ ≤ st.ch.length
  steps : ∀ t, w.steps t = ranSteps t st.ch
  ended : ∀ b < past, ∀ t < l.block.x.toNat, AtEnd k (w.ts (b, t))
  fresh : ∀ b, next ≤ b → w.sh b = Mem.empty ∧ w.phase b = 0 ∧ ∀ t, w.ts (b, t) = TState.init

/-- The variables of the current CTA, `m` of whose threads ran in this phase. -/
structure InBlock (k : Kernel) (l : Launch) (cta m : ℕ) (st : BlockSearch.St) (w : World) : Prop where
  sh : w.sh cta = st.sh
  len : st.ts.length = l.block.x.toNat
  ts : ∀ t < l.block.x.toNat, w.ts (cta, t) = st.ts.getD t TState.init
  phase : w.phase cta = st.phase
  count : st.ends.length = m
  rested : ∀ t < m, Rested k (w.ts (cta, t)) (st.ends.getD t .outOfFuel)

/-- How the state at the end of a schedule bears out what the run reports. -/
def BearsOut (k : Kernel) (l : Launch) (w : World) : BlockSearch.Ran → Prop
  | .done => ∀ cta < l.grid.x.toNat, ∀ t < l.block.x.toNat, ∃ o, w.next k l (cta, t) = some o ∧ o.res = .halted
  | .fault (some t) why => ∃ o f, w.next k l t = some o ∧ o.res = .fault f ∧ f.text = why
  | .fault none why => why = "barrier diverged" ∧ ∃ cta < l.grid.x.toNat,
      (∃ t < l.block.x.toNat, w.waits k l (cta, t) = true) ∧ w.ready k l cta = false
  | .fuel => True

/-- The recorded schedule, followed by `more`, executes to a state with the
    reported memory and accesses that bears out how the run ended. -/
def Reproduces (k : Kernel) (l : Launch) (g : Mem) (r : BlockSearch.Report) (more : List Choice) : Prop :=
  ∃ w, exec k l (r.ch ++ more) (World.init g) = some w ∧ w.g = r.g ∧ w.log = r.evs.map (entry r.ch) ∧
    BearsOut k l w r.ran

/-- The recorded schedule reproduces a run, after the turn that ran out of fuel
    if there is one. -/
def Replayable (k : Kernel) (l : Launch) (g : Mem) (r : BlockSearch.Report) : Prop :=
  Reproduces k l g r [] ∨ r.ran = .fuel ∧ ∃ t n, Reproduces k l g r [.run t n]

section
variable {k : Kernel} {l : Launch} {w : World} {t : ℕ × ℕ}

theorem next_bar (reached : Reaches k (w.ts t) .bar) : w.next k l t = some ⟨.wait, w.ts t, w.g, w.sh t.1⟩ := by
  rw [World.next, step_of_reaches reached]
  rfl

theorem next_end (reached : AtEnd k (w.ts t)) : w.next k l t = some ⟨.halted, w.ts t, w.g, w.sh t.1⟩ := by
  rw [World.next]
  rcases reached with reached | reached
  · rw [step_of_reaches reached]
    rfl
  · rw [step_of_reaches reached]
    rfl

theorem waits_of_bar (reached : Reaches k (w.ts t) .bar) : w.waits k l t = true := by
  rw [World.waits, next_bar reached]

theorem not_waits_of_end (reached : AtEnd k (w.ts t)) : w.waits k l t = false := by
  rw [World.waits, next_end reached]

variable {g : Mem} {cta : ℕ}

private theorem entries_grow {ch : List Choice} {evs : List Ev} (bounded : ∀ e ∈ evs, e.prefix_ ≤ ch.length)
    (more : List Choice) : evs.map (entry (ch ++ more)) = evs.map (entry ch) := by
  apply List.map_congr_left
  intro e inside
  rw [entry, entry, stepOf_grow (bounded e inside)]

/-- The accesses of a thread's turn as the run records them. -/
def recorded (cta t : ℕ) (st : BlockSearch.St) (made : List (ℕ × Access)) : List Ev :=
  st.evs ++ made.map fun (i, a) => ⟨(cta, t), cta, st.phase, a, st.ch.length, i⟩

section
variable {st : BlockSearch.St} {t n past next : ℕ} {made : List (ℕ × Access)} {w' : World}

private theorem turn_exec (inGrid : cta < l.grid.x.toNat) (inside : t < l.block.x.toNat)
    (replays : Replays k l g past next st w)
    (advanced : Advanced k l (cta, t) (w.steps (cta, t)) n made w w') :
    exec k l (st.ch ++ [.run (cta, t) n]) (World.init g) = some w' := by
  have step : exec k l [.run (cta, t) n] w = some w' := by
    rw [exec, if_pos ⟨inGrid, inside⟩, advanced.ran]
    rfl
  rw [exec_append, replays.ran]
  exact step

private theorem turn_log (replays : Replays k l g past next st w) (phase : w.phase cta = st.phase)
    (advanced : Advanced k l (cta, t) (w.steps (cta, t)) n made w w') (more : List Choice) :
    w'.log = (recorded cta t st made).map (entry (st.ch ++ more)) := by
  rw [advanced.log, recorded, List.map_append, entries_grow replays.bounded, replays.log, List.map_map]
  congr 1
  apply List.map_congr_left
  rintro ⟨i, a⟩ -
  simp only [Function.comp_apply, entry, stepOf, List.take_left, phase, replays.steps]

private theorem turn_bounded (bounded : ∀ e ∈ st.evs, e.prefix_ ≤ st.ch.length) (choice : Choice) :
    ∀ e ∈ recorded cta t st made, e.prefix_ ≤ (st.ch ++ [choice]).length := by
  intro e member
  simp only [List.length_append, List.length_cons, List.length_nil]
  rcases List.mem_append.mp member with before | now
  · have := bounded e before
    omega
  · obtain ⟨⟨i, a⟩, -, rfl⟩ := List.mem_map.mp now
    simp

private theorem turn_goes {r : Solo} (inGrid : cta < l.grid.x.toNat) (inside : t < l.block.x.toNat)
    (replays : Replays k l g cta (cta + 1) st w) (block : InBlock k l cta t st w)
    (advanced : Advanced k l (cta, t) (w.steps (cta, t)) n made w w') (s : w'.ts (cta, t) = r.s) (mem : w'.g = r.g)
    (sh : w'.sh cta = r.sh) (rested : Rested k r.s r.e) (left : ℕ) {st' : BlockSearch.St}
    (after : st' = { st with ch := st.ch ++ [.run (cta, t) n], evs := recorded cta t st made, g := r.g, left := left,
                             sh := r.sh, ts := st.ts.set t r.s, ends := st.ends ++ [r.e] }) :
    Replays k l g cta (cta + 1) st' w' ∧ InBlock k l cta (t + 1) st' w' := by
  subst after
  have others (u : ℕ × ℕ) (other : u ≠ (cta, t)) := advanced.others u other
  constructor
  · refine ⟨turn_exec inGrid inside replays advanced, mem, turn_log replays block.phase advanced _,
      turn_bounded replays.bounded _, ?_, ?_, ?_⟩
    · intro u
      simp only [ranSteps_append, ranSteps, Nat.add_zero]
      by_cases same : (cta, t) = u
      · rw [if_pos same, ← same, advanced.steps, replays.steps]
      · rw [if_neg same, Nat.add_zero, (others u (Ne.symm same)).2, replays.steps]
    · intro b before u bound
      rw [(others (b, u) (by simp only [ne_eq, Prod.mk.injEq]; omega)).1]
      exact replays.ended b before u bound
    · intro b later
      obtain ⟨empty, zero, init⟩ := replays.fresh b later
      refine ⟨?_, by rw [advanced.phase]; exact zero, ?_⟩
      · rw [advanced.shared b (by dsimp only; omega)]
        exact empty
      · intro u
        rw [(others (b, u) (by simp only [ne_eq, Prod.mk.injEq]; omega)).1]
        exact init u
  · refine ⟨sh, by rw [List.length_set, block.len], ?_, by rw [advanced.phase]; exact block.phase,
      by rw [List.length_append, block.count]; rfl, ?_⟩
    · intro u bound
      by_cases same : u = t
      · subst same
        have long : u < st.ts.length := by rw [block.len]; exact bound
        rw [s, List.getD_eq_getElem?_getD, List.getElem?_set_self long, Option.getD_some]
      · rw [(others (cta, u) (by simp only [ne_eq, Prod.mk.injEq]; omega)).1, block.ts u bound]
        simp [List.getD_eq_getElem?_getD, List.getElem?_set_ne (Ne.symm same)]
    · intro u bound
      by_cases same : u = t
      · subst same
        have last : (st.ends ++ [r.e]).getD u .outOfFuel = r.e := by
          have := block.count
          simp [List.getD_eq_getElem?_getD, ← block.count]
        rw [last, s]
        exact rested
      · have early : u < st.ends.length := by rw [block.count]; omega
        have kept : (st.ends ++ [r.e]).getD u .outOfFuel = st.ends.getD u .outOfFuel := by
          simp [List.getD_eq_getElem?_getD, List.getElem?_append_left early]
        rw [kept, (others (cta, u) (by simp only [ne_eq, Prod.mk.injEq]; omega)).1]
        exact block.rested u (by omega)
end

theorem turn_replays {st : BlockSearch.St} {t : ℕ} (inGrid : cta < l.grid.x.toNat) (inside : t < l.block.x.toNat)
    (replays : Replays k l g cta (cta + 1) st w) (block : InBlock k l cta t st w) :
    Ensures (fun st' => ∃ w', Replays k l g cta (cta + 1) st' w' ∧ InBlock k l cta (t + 1) st' w')
      (Replayable k l g) (BlockSearch.turn (PtxMachine.step k (l.allocs k)) l cta st t) := by
  unfold BlockSearch.turn
  have thread : w.ts (cta, t) = st.ts.getD t TState.init := block.ts t inside
  cases ran : runUntilWait (PtxMachine.step k (l.allocs k)) (l.ctx ⟨BitVec.ofNat 32 cta, 0, 0⟩ ⟨BitVec.ofNat 32 t, 0, 0⟩)
      (st.ts.getD t TState.init) st.g st.sh st.left with
  | none => exact .panics
  | some r =>
    rw [← thread, ← replays.mem, ← block.sh] at ran
    obtain ⟨n, more, w', acc, used, advanced, s, mem, sh, stopped⟩ :=
      solo_replay (t := (cta, t)) (i := 0) st.left rfl ran
    rw [List.nil_append] at acc
    have executed := turn_exec inGrid inside replays advanced
    have goes (rested : Rested k r.s r.e) := turn_goes inGrid inside replays block advanced s mem sh rested
    obtain ⟨e, acc', rs, rg, rsh⟩ := r
    dsimp only at acc goes stopped used mem
    subst acc
    cases e with
    | halted u =>
      have count : u = n := by simpa [Used] using used
      subst count
      have atEnd : AtEnd k (w'.ts (cta, t)) := stopped
      rw [s] at atEnd
      exact .goes ⟨w', goes atEnd _ rfl⟩
    | wait u =>
      have count : u = n := by simpa [Used] using used
      subst count
      have atBar : Reaches k (w'.ts (cta, t)) .bar := stopped
      rw [s] at atBar
      exact .goes ⟨w', goes atBar _ rfl⟩
    | fault u why =>
      have count : u = n := by simpa [Used] using used
      subst count
      obtain ⟨o, next, faulted⟩ := stopped
      refine .stops (.inl ⟨w', ?_, mem, turn_log replays block.phase advanced _, o, why, next, faulted, rfl⟩)
      rw [List.append_nil]
      exact executed
    | outOfFuel =>
      have log := turn_log replays block.phase advanced []
      rw [List.append_nil] at log
      exact .stops (.inr ⟨rfl, (cta, t), n, w', executed, mem, log, trivial⟩)

/-! ### The barriers of a CTA -/

section
variable {st : BlockSearch.St}

theorem rested_cases {s : TState} {e : End} (rested : Rested k s e) :
    e.isWait = true ∧ Reaches k s .bar ∨ e.isWait = false ∧ AtEnd k s := by
  cases e with
  | halted n => exact .inr ⟨rfl, rested⟩
  | wait n => exact .inl ⟨rfl, rested⟩
  | fault n why => exact rested.elim
  | outOfFuel => exact rested.elim

theorem waits_iff {t : ℕ} (block : InBlock k l cta l.block.x.toNat st w) (inside : t < l.block.x.toNat) :
    w.waits k l (cta, t) = (st.ends.getD t .outOfFuel).isWait := by
  rcases rested_cases (block.rested t inside) with ⟨waits, reached⟩ | ⟨not, reached⟩
  · rw [waits, waits_of_bar reached]
  · rw [not, not_waits_of_end reached]

theorem ready_iff {first : ℕ} (block : InBlock k l cta l.block.x.toNat st w) (inside : first < l.block.x.toNat) :
    w.ready k l cta = true ↔ st.Together first := by
  have pcs (t : ℕ) (bound : t < l.block.x.toNat) : (w.ts (cta, t)).pc = (st.ts.getD t TState.init).pc := by
    rw [block.ts t bound]
  have some : 0 < l.block.x.toNat := by omega
  rw [World.ready, BlockSearch.St.Together, block.count, List.all_eq_true]
  simp only [List.mem_range, Bool.and_eq_true, beq_iff_eq]
  constructor
  · intro ready t bound
    obtain ⟨waits, pc⟩ := ready t bound
    have firstPc := (ready first inside).2
    rw [waits_iff block bound] at waits
    exact ⟨waits, by rw [← pcs t bound, ← pcs first inside, pc, firstPc]⟩
  · intro together t bound
    obtain ⟨waits, pc⟩ := together t bound
    have zeroPc := (together 0 some).2
    exact ⟨by rw [waits_iff block bound, waits], by rw [pcs t bound, pcs 0 some, pc, zeroPc]⟩

private theorem release_replays (inGrid : cta < l.grid.x.toNat) (some : 0 < l.block.x.toNat)
    (replays : Replays k l g cta (cta + 1) st w) (block : InBlock k l cta l.block.x.toNat st w)
    (ready : w.ready k l cta = true) :
    Replays k l g cta (cta + 1) (st.release cta) (w.release cta) ∧
      InBlock k l cta 0 { st.release cta with ends := [] } (w.release cta) := by
  have elsewhere (b t : ℕ) (other : b ≠ cta) : (w.release cta).ts (b, t) = w.ts (b, t) := if_neg other
  constructor
  · refine ⟨?_, replays.mem, ?_, ?_, ?_, ?_, ?_⟩
    · have step : exec k l [.rel cta] w = Option.some (w.release cta) := by
        rw [exec, if_pos ⟨inGrid, some, ready⟩]
        rfl
      show exec k l (st.ch ++ [.rel cta]) _ = _
      rw [exec_append, replays.ran]
      exact step
    · show w.log = st.evs.map (entry (st.ch ++ [.rel cta]))
      rw [entries_grow replays.bounded, replays.log]
    · intro e member
      have := replays.bounded e member
      simp only [BlockSearch.St.release, List.length_append]
      omega
    · intro t
      simp only [BlockSearch.St.release, ranSteps_append, ranSteps, Nat.add_zero]
      exact replays.steps t
    · intro b before t bound
      rw [elsewhere b t (by omega)]
      exact replays.ended b before t bound
    · intro b later
      obtain ⟨empty, zero, init⟩ := replays.fresh b later
      refine ⟨empty, ?_, ?_⟩
      · show Function.update w.phase cta _ b = 0
        rw [Function.update_of_ne (by omega)]
        exact zero
      · intro t
        rw [elsewhere b t (by omega)]
        exact init t
  · refine ⟨block.sh, ?_, ?_, ?_, rfl, by simp⟩
    · show (st.ts.map TState.skip).length = _
      rw [List.length_map, block.len]
    · intro t bound
      show (if cta = cta then (w.ts (cta, t)).skip else w.ts (cta, t)) = (st.ts.map TState.skip).getD t TState.init
      have long : t < st.ts.length := by rw [block.len]; exact bound
      rw [if_pos rfl, block.ts t bound]
      simp [List.getD_eq_getElem?_getD, long]
    · show Function.update w.phase cta (w.phase cta + 1) cta = st.phase + 1
      rw [Function.update_self, block.phase]

/-- After a barrier all threads of the CTA are at their end, or the next phase
    starts. -/
def Passed (k : Kernel) (l : Launch) (g : Mem) (cta : ℕ) (st : BlockSearch.St) (w : World) :
    Option BlockSearch.St → Prop
  | none => Replays k l g (cta + 1) (cta + 1) st w
  | some st' => ∃ w', Replays k l g cta (cta + 1) st' w' ∧ InBlock k l cta 0 { st' with ends := [] } w'

theorem barrier_replays (inGrid : cta < l.grid.x.toNat) (replays : Replays k l g cta (cta + 1) st w)
    (block : InBlock k l cta l.block.x.toNat st w) :
    Ensures (Passed k l g cta st w) (Replayable k l g) (BlockSearch.barrier cta st) := by
  have len : st.ends.length = st.ts.length := by rw [block.count, block.len]
  rcases BlockSearch.barrier_cases len cta with ⟨none, over_⟩ | ⟨first, bound, isWait, cases⟩
  · rw [over_]
    refine .goes (show Replays k l g (cta + 1) (cta + 1) st w from { replays with ended := ?_ })
    intro b before t inside
    by_cases current : b = cta
    · subst current
      rcases rested_cases (block.rested t inside) with ⟨waits, -⟩ | ⟨-, atEnd⟩
      · rw [none t (by rw [block.count]; exact inside)] at waits
        cases waits
      · exact atEnd
    · exact replays.ended b (by omega) t inside
  · have inside : first < l.block.x.toNat := by rw [← block.count]; exact bound
    rcases cases with ⟨apart, stops⟩ | ⟨together, passes⟩
    · rw [stops]
      refine .stops (.inl ⟨w, by rw [List.append_nil]; exact replays.ran, replays.mem, replays.log, rfl, cta, inGrid,
        ⟨first, inside, by rw [waits_iff block inside, isWait]⟩, ?_⟩)
      rw [← Bool.not_eq_true, ready_iff block inside]
      exact apart
    · have released := release_replays inGrid (by omega) replays block ((ready_iff block inside).mpr together)
      rw [passes]
      split
      · refine .stops (.inl ⟨w.release cta, ?_, released.1.mem, released.1.log, trivial⟩)
        rw [List.append_nil]
        exact released.1.ran
      · exact .goes ⟨w.release cta, released⟩
end

/-! ### The whole run -/

theorem phases_replays (inGrid : cta < l.grid.x.toNat) (n : ℕ) : ∀ {st : BlockSearch.St} {w : World},
    Replays k l g cta (cta + 1) st w → InBlock k l cta 0 { st with ends := [] } w →
    Ensures (fun st' => ∃ w', Replays k l g (cta + 1) (cta + 1) st' w') (Replayable k l g)
      (BlockSearch.phases (PtxMachine.step k (l.allocs k)) l cta n st) := by
  induction n with
  | zero =>
    intro st w replays _
    refine .stops (.inl ⟨w, ?_, replays.mem, replays.log, trivial⟩)
    rw [List.append_nil]
    exact replays.ran
  | succ n ih =>
    intro st w replays block
    have start : ∃ w', Replays k l g cta (cta + 1) { st with ends := [] } w' ∧
        InBlock k l cta 0 { st with ends := [] } w' := ⟨w, { replays with }, block⟩
    have turns : ∀ t < l.block.x.toNat, ∀ st' : BlockSearch.St,
        (∃ w', Replays k l g cta (cta + 1) st' w' ∧ InBlock k l cta t st' w') →
        Ensures (fun st'' => ∃ w', Replays k l g cta (cta + 1) st'' w' ∧ InBlock k l cta (t + 1) st'' w')
          (Replayable k l g) (BlockSearch.turn (PtxMachine.step k (l.allocs k)) l cta st' t) := by
      rintro t inside st' ⟨w', replays', block'⟩
      exact turn_replays inGrid inside replays' block'
    rw [BlockSearch.phases]
    apply (Ensures.range l.block.x.toNat turns start).bind
    rintro st' ⟨w', replays', block'⟩
    apply (barrier_replays inGrid replays' block').bind
    intro next passed
    cases next with
    | none => exact .goes ⟨w', passed⟩
    | some next =>
      obtain ⟨w'', replays'', block''⟩ := passed
      exact ih replays'' block''

theorem block_replays {st : BlockSearch.St} (inGrid : cta < l.grid.x.toNat) (replays : Replays k l g cta cta st w) :
    Ensures (fun st' => ∃ w', Replays k l g (cta + 1) (cta + 1) st' w') (Replayable k l g)
      (BlockSearch.block (PtxMachine.step k (l.allocs k)) l st cta) := by
  rw [BlockSearch.block]
  obtain ⟨empty, zero, init⟩ := replays.fresh cta (le_refl _)
  apply phases_replays inGrid (w := w)
  · exact { replays with fresh := fun b later => replays.fresh b (by omega) }
  · refine ⟨empty, by simp, ?_, zero, rfl, by simp⟩
    intro t inside
    rw [init t]
    simp [inside]

theorem run_replayable (g : Mem) (fuel : ℕ) {r : BlockSearch.Report} (ran : BlockSearch.run k l g fuel = some r) :
    Replayable k l g r := by
  have start : Replays k l g 0 0 ⟨[], [], g, fuel, Mem.empty, [], 0, []⟩ (World.init g) :=
    ⟨rfl, rfl, rfl, by simp, fun _ => rfl, by simp, fun _ _ => ⟨rfl, rfl, fun _ => rfl⟩⟩
  have whole := Ensures.range (P := fun m st => ∃ w, Replays k l g m m st w)
    (f := BlockSearch.block (PtxMachine.step k (l.allocs k)) l) (E := Replayable k l g) l.grid.x.toNat
    (by rintro cta inGrid st ⟨w, replays⟩; exact block_replays inGrid replays) ⟨_, start⟩
  rw [BlockSearch.run, BlockSearch.runWith] at ran
  revert whole ran
  generalize (List.range l.grid.x.toNat).foldlM (BlockSearch.block _ l) _ = x
  intro ran whole
  cases whole with
  | panics => cases ran
  | stops report =>
    cases ran
    exact report
  | goes state =>
    obtain ⟨w, replays⟩ := state
    cases ran
    refine .inl ⟨w, by rw [List.append_nil]; exact replays.ran, replays.mem, replays.log, ?_⟩
    intro cta inGrid t inside
    exact ⟨_, next_end (replays.ended cta inGrid t inside), rfl⟩
end

/-- The recorded run of a one-dimensional launch is the interpreter's run of it,
    and its schedule replays. -/
theorem follows_grid (k : Kernel) {l : Launch} (flat : Flat l) (g : Mem) (fuel : ℕ) :
    SameRun l (BlockSearch.run k l g fuel) (GridRun.runGrid k l g Mem.empty fuel) ∧
      ∀ r, BlockSearch.run k l g fuel = some r → Replayable k l g r :=
  ⟨run_same flat g fuel, fun _ ran => run_replayable g fuel ran⟩

open BlockReplays (sharedKernel sharedLaunch) in
theorem follows_grid_shared :
    SameRun sharedLaunch (BlockSearch.run sharedKernel sharedLaunch Mem.empty 9)
      (GridRun.runGrid sharedKernel sharedLaunch Mem.empty Mem.empty 9) ∧
      ∃ r, BlockSearch.run sharedKernel sharedLaunch Mem.empty 9 = some r ∧ r.ran = .done ∧ r.evs.length = 2 ∧
        Replayable sharedKernel sharedLaunch Mem.empty r := by
  have result : (BlockSearch.run sharedKernel sharedLaunch Mem.empty 9).map (fun r => (r.ran, r.evs.length)) =
      some (.done, 2) := by decide
  obtain ⟨r, ran, ends⟩ := Option.map_eq_some_iff.mp result
  obtain ⟨done, made⟩ := Prod.mk.inj ends
  obtain ⟨same, replays⟩ := follows_grid sharedKernel (l := sharedLaunch) ⟨rfl, rfl, rfl, rfl⟩ Mem.empty 9
  exact ⟨same, r, ran, done, made, replays r ran⟩

open BlockReplays (sharedKernel sharedLaunch) in
/-- A thread that stores and then runs out of fuel is in no recorded choice. -/
theorem unfinished_turn_unrecorded :
    ¬∀ (k : Kernel) (l : Launch), Flat l → ∀ (g : Mem) (fuel : ℕ),
      SameRun l (BlockSearch.run k l g fuel) (GridRun.runGrid k l g Mem.empty fuel) ∧
        ∀ r, BlockSearch.run k l g fuel = some r → Reproduces k l g r [] := by
  intro every
  have result : (BlockSearch.run sharedKernel sharedLaunch Mem.empty 1).map (fun r => (r.ch, r.evs.length)) =
      some ([], 1) := by decide
  obtain ⟨r, ran, ends⟩ := Option.map_eq_some_iff.mp result
  obtain ⟨none, made⟩ := Prod.mk.inj ends
  obtain ⟨w, executed, -, log, -⟩ := (every sharedKernel sharedLaunch ⟨rfl, rfl, rfl, rfl⟩ Mem.empty 1).2 r ran
  rw [none] at executed
  cases executed
  have lengths := congrArg List.length log
  rw [List.length_map, made] at lengths
  cases lengths

end E5r.ChoiceReplay
