import E5r.CfgModel

/-!
What a walk keeps true. While nothing was given up, every run it has recorded is
tiled by the instructions decoded from its start, only the last of them leaves the
run, and where it leads is a start of the walk or still on the work list
(`Walked`).
-/
namespace E5r.CfgWalk
open SortedRecords Tilings CfgModel

/-- No instruction decoded from the map ends past the top of the address space. -/
def Fits (s : Setting) : Prop := ∀ ⦃addr i⦄, s.insnAt addr = some i → addr + i.len < 2 ^ 64

/-- An instruction behind which its run goes on. -/
def Passes (s : Setting) : Flow → Prop
  | .next | .indirectCall | .syscall => True
  | .call t => t ∉ s.noreturn
  | _ => False

/-- Where a block leads whose last instruction has this flow and ends at `stop`, and
    why the block ends there. `targets` is what the jump table of an indirect branch
    holds. -/
def exitOf (s : Setting) (stop : ℕ) (targets : List ℕ) : Flow → List ℕ × Terminator
  | .next | .indirectCall | .syscall => ([stop], .flow)
  | .call t => if t ∈ s.noreturn then ([], .noReturnCall) else ([stop], .flow)
  | .ret => ([], .ret)
  | .trap => ([], .trap)
  | .indirectBranch => (sortDedup targets, .flow)
  | .branch t =>
    if s.leaves t then ([], if t ∈ s.noreturn then .noReturnCall else .tailCall) else ([t], .flow)
  | .condBranch t => (if s.leaves t then [stop] else sortDedup [t, stop], .flow)

/-- The stretch from `start` to `stop` is tiled by `front` and `last`; only `last`
    leaves it, for the successors that its flow or its jump table names. -/
structure Straight (s : Setting) (tables : List JumpTable) (start stop : ℕ) (successors : List ℕ)
    (terminator : Terminator) (front : List Insn) (last : Insn) : Prop where
  tiled : Tiles s.insnAt Insn.next start (front ++ [last]) stop
  passes : ∀ i ∈ front, Passes s i.flow
  leads : ∃ targets, (successors, terminator) = exitOf s stop targets last.flow ∧
    (last.flow = .indirectBranch → ∃ table ∈ tables, table.targets = targets ∧
      ∃ before, s.recover (before ++ (front ++ [last])) = some table)

/-- A recorded run is straight, and where its last instruction passes, it ends at a
    start. -/
def RunOk (s : Setting) (tables : List JumpTable) (starts : Finset ℕ) (start : ℕ) (run : Run) : Prop :=
  ∃ front last, run.body = front ++ [last] ∧ run.unresolved = false ∧
    Straight s tables start run.stop run.successors run.terminator front last ∧
    (Passes s last.flow → run.stop ∈ starts)

variable {s : Setting} {i : Insn}

theorem insnAt_addr {addr : ℕ} (found : s.insnAt addr = some i) : i.addr = addr ∧ 1 ≤ i.len ∧ i.len ≤ 15 := by
  obtain ⟨window, -, decoded⟩ := Option.bind_eq_some_iff.mp found
  obtain ⟨⟨len, flow⟩, -, rfl⟩ := Option.map_eq_some_iff.mp decoded
  exact ⟨rfl, len.property⟩

theorem next_eq (fits : Fits s) {addr : ℕ} (found : s.insnAt addr = some i) : i.next = addr + i.len := by
  have inSpace := fits found
  rw [Insn.next, Insn.stop, (insnAt_addr found).1]
  exact Nat.mod_eq_of_lt inSpace

theorem advances (fits : Fits s) : Advances s.insnAt Insn.next := by
  intro addr i found
  rw [next_eq fits found]
  exact Nat.lt_add_of_pos_right (insnAt_addr found).2.1

theorem segmentAt_contains {m : MemoryMap} {addr : ℕ} {seg : Segment} (found : m.segmentAt addr = some seg) :
    seg ∈ m.segments ∧ seg.start ≤ addr ∧ addr < seg.stop := by
  have holds := List.find?_some found
  have inside : seg ∈ m.segments := List.mem_of_mem_take (List.mem_reverse.mp (List.mem_of_find?_eq_some found))
  exact ⟨inside, of_decide_eq_true holds⟩

/-- An instruction is decoded from the bytes of a segment that holds its address. -/
theorem insnAt_window {addr : ℕ} (found : s.insnAt addr = some i) :
    ∃ seg ∈ s.memory.segments, ∃ window, addr < seg.stop ∧ addr + window.length ≤ seg.stop ∧
      (s.decoder window addr).map (fun shape => shape.1.val) = some i.len := by
  obtain ⟨window, held, decoded⟩ := Option.bind_eq_some_iff.mp found
  obtain ⟨seg, segment, sliced⟩ := Option.bind_eq_some_iff.mp held
  obtain ⟨bytes, whole, rfl⟩ := Option.map_eq_some_iff.mp sliced
  obtain ⟨shape, read, rfl⟩ := Option.map_eq_some_iff.mp decoded
  obtain ⟨member, low, high⟩ := segmentAt_contains segment
  refine ⟨seg, member, _, high, ?_, by rw [read]; rfl⟩
  unfold Segment.sliceToEnd at whole
  split at whole
  · rw [← Option.some.inj whole]
    have backed := seg.backed
    simp only [List.length_take, List.length_drop]
    omega
  · simp at whole

/-- So does every decoder over a map that leaves the last 15 addresses free. -/
theorem fits_of_low (low : ∀ seg ∈ s.memory.segments, seg.stop + 15 ≤ 2 ^ 64) : Fits s := by
  intro addr i found
  obtain ⟨seg, member, -, inside, -, -⟩ := insnAt_window found
  have room := low seg member
  have short := (insnAt_addr found).2.2
  omega

theorem exitOf_passes {stop : ℕ} {targets : List ℕ} {flow : Flow} (passes : Passes s flow) :
    exitOf s stop targets flow = ([stop], .flow) := by
  cases flow with
  | call t => exact if_neg passes
  | next => rfl
  | indirectCall => rfl
  | syscall => rfl
  | branch t => exact passes.elim
  | condBranch t => exact passes.elim
  | indirectBranch => exact passes.elim
  | ret => exact passes.elim
  | trap => exact passes.elim

@[simp] theorem sortDedup_singleton (a : ℕ) : sortDedup [a] = [a] := rfl

variable {insn : Insn}

/-- A run goes on behind an instruction that passes. -/
theorem follow_inr {context : List Insn → List Insn} {body : List Insn} {budget : ℕ} {calls more : Finset ℕ}
    (goes : follow s context insn body budget calls = .inr more) : Passes s insn.flow := by
  unfold follow at goes
  cases flow : insn.flow with
  | next => trivial
  | indirectCall => trivial
  | syscall => trivial
  | ret => simp [flow] at goes
  | trap => simp [flow] at goes
  | indirectBranch => simp [flow] at goes
  | call t =>
    by_cases known : t ∈ s.noreturn
    · simp [flow, known] at goes
    · exact known
  | branch t =>
    simp only [flow] at goes
    split at goes <;> simp at goes
  | condBranch t =>
    simp only [flow] at goes
    split at goes <;> simp at goes

/-- What a run holds when it ends behind an instruction, which then does not pass. -/
structure EndsAt (s : Setting) (context : List Insn → List Insn) (insn : Insn) (body : List Insn) (o : Outcome) :
    Prop where
  decoded : o.run.body = body
  stop : o.run.stop = insn.next
  halt : o.halt = none
  blocked : ¬ Passes s insn.flow
  leads : o.indirect = false → o.run.unresolved = false ∧
    ∃ targets, (sortDedup o.run.successors, o.run.terminator) = exitOf s insn.next targets insn.flow ∧
      (insn.flow = .indirectBranch → ∃ table, o.table = some table ∧ table.targets = targets ∧
        s.recover (context body) = some table)

private theorem endsAt_ended {context : List Insn → List Insn} {body : List Insn} {budget : ℕ} {calls : Finset ℕ}
    {terminator : Terminator} {successors : List ℕ} (blocked : ¬ Passes s insn.flow)
    (direct : insn.flow ≠ .indirectBranch)
    (leads : (sortDedup successors, terminator) = exitOf s insn.next [] insn.flow) :
    EndsAt s context insn body (.ended insn.next body budget calls terminator successors) :=
  ⟨rfl, rfl, rfl, blocked, fun _ => ⟨rfl, [], leads, fun indirect => absurd indirect direct⟩⟩

theorem follow_inl {context : List Insn → List Insn} {body : List Insn} {budget : ℕ} {calls : Finset ℕ} {o : Outcome}
    (ends : follow s context insn body budget calls = .inl o) : EndsAt s context insn body o := by
  unfold follow at ends
  cases flow : insn.flow with
  | next => simp [flow] at ends
  | indirectCall => simp [flow] at ends
  | syscall => simp [flow] at ends
  | ret =>
    simp only [flow, Sum.inl.injEq] at ends
    rw [← ends]
    apply endsAt_ended <;> simp [flow, Passes, exitOf]
  | trap =>
    simp only [flow, Sum.inl.injEq] at ends
    rw [← ends]
    apply endsAt_ended <;> simp [flow, Passes, exitOf]
  | indirectBranch =>
    simp only [flow, Sum.inl.injEq] at ends
    rw [← ends]
    cases found : s.recover (context body) with
    | none => exact ⟨rfl, rfl, rfl, by simp [flow, Passes], fun resolved => by simp [Outcome.indirectly] at resolved⟩
    | some table =>
      refine ⟨rfl, rfl, rfl, by simp [flow, Passes], fun _ => ⟨rfl, table.targets, ?_, fun _ => ⟨table, rfl, rfl, found⟩⟩⟩
      simp [flow, exitOf, Outcome.indirectly]
  | call t =>
    by_cases known : t ∈ s.noreturn
    · simp only [flow, known, if_true, Sum.inl.injEq] at ends
      rw [← ends]
      apply endsAt_ended <;> simp [flow, Passes, exitOf, known]
    · simp [flow, known] at ends
  | branch t =>
    by_cases away : s.leaves t = true
    · simp only [flow, away, if_true, Sum.inl.injEq] at ends
      rw [← ends]
      apply endsAt_ended <;> simp [flow, Passes, exitOf, away]
    · simp only [flow, away, Bool.false_eq_true, if_false, Sum.inl.injEq] at ends
      rw [← ends]
      apply endsAt_ended <;> simp [flow, Passes, exitOf, away]
  | condBranch t =>
    by_cases away : s.leaves t = true
    · simp only [flow, away, if_true, Sum.inl.injEq] at ends
      rw [← ends]
      apply endsAt_ended <;> simp [flow, Passes, exitOf, away]
    · simp only [flow, away, Bool.false_eq_true, if_false, Sum.inl.injEq] at ends
      rw [← ends]
      apply endsAt_ended <;> simp [flow, Passes, exitOf, away]

theorem runFrom_straight {s : Setting} {starts : Finset ℕ} {context : List Insn → List Insn}
    (extends_ : ∀ body, ∃ before, context body = before ++ body) {start budget addr : ℕ} {body : List Insn}
    {calls : Finset ℕ} (tiled : Tiles s.insnAt Insn.next start body addr) (passes : ∀ i ∈ body, Passes s i.flow)
    (kept : (runFrom s starts context start budget addr body calls).halt = none)
    (resolved : (runFrom s starts context start budget addr body calls).indirect = false) :
    let o := runFrom s starts context start budget addr body calls
    RunOk s o.table.toList starts start { o.run with successors := sortDedup o.run.successors } := by
  induction budget generalizing addr body calls with
  | zero => simp [runFrom, Outcome.gaveUp] at kept
  | succ budget ih =>
    unfold runFrom at kept resolved ⊢
    by_cases joins : addr ≠ start ∧ addr ∈ starts
    · simp only [if_pos joins] at kept resolved ⊢
      rcases List.eq_nil_or_concat body with rfl | ⟨front, last, rfl⟩
      · exact absurd tiled.symm joins.1
      rw [List.concat_eq_append] at *
      have lastPasses : Passes s last.flow := passes last (by simp)
      refine ⟨front, last, rfl, rfl, ⟨tiled, fun i inFront => passes i (by simp [inFront]), [], ?_, ?_⟩, fun _ => joins.2⟩
      · rw [exitOf_passes lastPasses]
        rfl
      · intro indirect
        rw [indirect] at lastPasses
        exact lastPasses.elim
    · simp only [if_neg joins] at kept resolved ⊢
      cases data : s.isData addr with
      | true => simp [data, Outcome.gaveUp] at kept
      | false =>
        simp only [data, Bool.false_eq_true, if_false] at kept resolved ⊢
        cases found : s.insnAt addr with
        | none => simp [found, Outcome.gaveUp] at kept
        | some insn =>
          simp only [found] at kept resolved ⊢
          have longer := tiles_snoc tiled found
          cases outcome : follow s context insn (body ++ [insn]) budget calls with
          | inl o =>
            simp only [outcome] at kept resolved ⊢
            have ends := follow_inl outcome
            obtain ⟨settled, targets, leads, table⟩ := ends.leads resolved
            refine ⟨body, insn, ends.decoded, settled, ⟨?_, passes, targets, ?_, ?_⟩, fun lets => absurd lets ends.blocked⟩
            · rw [ends.stop]
              exact longer
            · rw [ends.stop]
              exact leads
            · intro indirect
              obtain ⟨found, held, same, recovered⟩ := table indirect
              obtain ⟨before, context_eq⟩ := extends_ (body ++ [insn])
              exact ⟨found, by simp [held], same, before, by rw [← context_eq]; exact recovered⟩
          | inr more =>
            simp only [outcome] at kept resolved ⊢
            refine ih longer ?_ kept resolved
            intro i member
            rcases List.mem_append.mp member with old | new
            · exact passes i old
            · rw [List.mem_singleton.mp new]
              exact follow_inr outcome

theorem runFrom_halt (s : Setting) (starts : Finset ℕ) (context : List Insn → List Insn) (start budget addr : ℕ)
    (body : List Insn) (calls : Finset ℕ) :
    (runFrom s starts context start budget addr body calls).halt ≠ some .complete := by
  fun_induction runFrom s starts context start budget addr body calls with
  | case1 => simp [Outcome.gaveUp]
  | case2 => simp [Outcome.ended]
  | case3 => simp [Outcome.gaveUp]
  | case4 => simp [Outcome.gaveUp]
  | case5 budget addr body calls _ _ insn _ o ends => simp [(follow_inl ends).halt]
  | case6 budget addr body calls _ _ insn _ more goes ih => exact ih

theorem Straight.mono {tables more : List JumpTable} (sub : ∀ t ∈ tables, t ∈ more) {start stop : ℕ}
    {successors : List ℕ} {terminator : Terminator} {front : List Insn} {last : Insn}
    (straight : Straight s tables start stop successors terminator front last) :
    Straight s more start stop successors terminator front last := by
  obtain ⟨targets, leads, table⟩ := straight.leads
  refine ⟨straight.tiled, straight.passes, targets, leads, fun indirect => ?_⟩
  obtain ⟨found, member, rest⟩ := table indirect
  exact ⟨found, sub found member, rest⟩

theorem RunOk.mono {tables more : List JumpTable} (sub : ∀ t ∈ tables, t ∈ more) {starts further : Finset ℕ}
    (grows : starts ⊆ further) {start : ℕ} {run : Run} (ok : RunOk s tables starts start run) :
    RunOk s more further start run := by
  obtain ⟨front, last, decoded, settled, straight, joins⟩ := ok
  exact ⟨front, last, decoded, settled, straight.mono sub, fun passes => grows (joins passes)⟩

/-- What holds after every turn of a walk. The second half holds as long as nothing
    was given up and every indirect branch was resolved. -/
structure Walked (s : Setting) (w : Walk) : Prop where
  sorted : StrictlySorted Prod.fst w.ends
  starts : ∀ a, a ∈ w.starts ↔ ∃ run, (a, run) ∈ w.ends
  seen : w.starts ⊆ w.seen
  settled : w.halt = .complete → w.hasIndirect = false →
    w.seen ⊆ w.starts ∧ (s.entry ∈ w.seen ∨ s.entry ∈ w.work) ∧
      (∀ e ∈ w.ends, RunOk s w.tables w.starts e.1 e.2) ∧
      ∀ e ∈ w.ends, ∀ t ∈ e.2.successors, s.memory.isExecutable t = true → t ∈ w.seen ∨ t ∈ w.work

theorem begin_walked (s : Setting) : Walked s s.begin := by
  refine ⟨List.Pairwise.nil, by simp [Setting.begin], by simp [Setting.begin], fun _ _ => ?_⟩
  refine ⟨by simp [Setting.begin], .inr (by simp [Setting.begin]), ?_, ?_⟩
  · intro e member
    simp [Setting.begin] at member
  · intro e member
    simp [Setting.begin] at member

theorem visit_walked {start : ℕ} {rest : List ℕ} {w : Walk} (walked : Walked s w) (work : w.work = start :: rest)
    (unseen : start ∉ w.seen) : Walked s (visit s start { w with work := rest, seen := insert start w.seen }) := by
  have fresh : Fresh Prod.fst start w.ends := by
    intro e member same
    exact unseen (walked.seen ((walked.starts start).mpr ⟨e.2, by rw [← same]; exact member⟩))
  refine ⟨(put_strictlySorted Prod.fst walked.sorted).mpr fresh, ?_, ?_, ?_⟩
  · intro a
    simp only [visit, Finset.mem_insert, mem_put, walked.starts a]
    constructor
    · rintro (rfl | ⟨run, member⟩)
      · exact ⟨_, .inl rfl⟩
      · exact ⟨run, .inr member⟩
    · rintro ⟨run, same | member⟩
      · exact .inl (congrArg Prod.fst same)
      · exact .inr ⟨run, member⟩
  · exact Finset.insert_subset_insert start walked.seen
  · intro complete resolved
    simp only [visit, Bool.or_eq_false_iff] at complete resolved
    have kept : (runFrom s (insert start w.starts) (withPredecessors w.ends start) start w.budget start []
        w.calls).halt = none := by
      cases halted : (runFrom s (insert start w.starts) (withPredecessors w.ends start) start w.budget start []
          w.calls).halt with
      | none => rfl
      | some h =>
        rw [halted] at complete
        exact absurd (halted.trans (congrArg some complete)) (runFrom_halt _ _ _ _ _ _ _ _)
    rw [kept] at complete
    obtain ⟨seenStarts, entry, runs, closed⟩ := walked.settled complete resolved.1
    have ok := @runFrom_straight s (insert start w.starts) (withPredecessors w.ends start)
      (fun body => ⟨_, rfl⟩) start w.budget start [] w.calls rfl (by simp) kept resolved.2
    refine ⟨Finset.insert_subset_insert start seenStarts, ?_, ?_, ?_⟩
    · rcases entry with already | waiting
      · exact .inl (Finset.mem_insert_of_mem already)
      · rw [work] at waiting
        rcases List.mem_cons.mp waiting with rfl | later
        · exact .inl (Finset.mem_insert_self _ _)
        · exact .inr (List.mem_append_right _ later)
    · intro e member
      rcases (mem_put Prod.fst).mp member with rfl | old
      · exact ok.mono (fun t held => List.mem_append_right _ held) (le_refl _)
      · exact (runs e old).mono (fun t held => List.mem_append_left _ held) (Finset.subset_insert _ _)
    · intro e member t leads executable
      simp only [visit, List.mem_append, List.mem_reverse, List.mem_filter, Bool.and_eq_true, decide_eq_true_eq]
      by_cases known : t ∈ insert start w.seen
      · exact .inl known
      rcases (mem_put Prod.fst).mp member with rfl | old
      · exact .inr (.inl ⟨leads, known, executable⟩)
      · rcases closed e old t leads executable with already | waiting
        · exact absurd (Finset.mem_insert_of_mem already) known
        · rw [work] at waiting
          rcases List.mem_cons.mp waiting with rfl | later
          · exact absurd (Finset.mem_insert_self _ _) known
          · exact .inr (.inr later)

theorem turn_walked {start : ℕ} {rest : List ℕ} {w : Walk} (walked : Walked s w) (work : w.work = start :: rest) :
    Walked s (turn s start { w with work := rest }) := by
  unfold turn
  by_cases already : start ∈ w.seen
  · rw [if_pos already]
    refine ⟨walked.sorted, walked.starts, walked.seen, fun complete resolved => ?_⟩
    obtain ⟨seenStarts, entry, runs, closed⟩ := walked.settled complete resolved
    have taken : ∀ t, t ∈ w.seen ∨ t ∈ w.work → t ∈ w.seen ∨ t ∈ rest := by
      rintro t (known | waiting)
      · exact .inl known
      · rw [work] at waiting
        rcases List.mem_cons.mp waiting with rfl | later
        · exact .inl already
        · exact .inr later
    exact ⟨seenStarts, taken _ entry, runs, fun e member t leads executable => taken t (closed e member t leads executable)⟩
  · rw [if_neg already]
    dsimp only
    split
    · exact ⟨walked.sorted, walked.starts, walked.seen.trans (Finset.subset_insert _ _),
        fun complete => by simp at complete⟩
    · exact visit_walked walked work already

/-- What every turn keeps holds when the walk is over. -/
theorem drain_induction (s : Setting) (P : Walk → Prop)
    (keeps : ∀ w start rest, w.work = start :: rest → P w → P (turn s start { w with work := rest })) (w : Walk)
    (holds : P w) : P (drain s w) := by
  fun_induction drain s w with
  | case1 w empty => exact holds
  | case2 w start rest work ih => exact ih (keeps w start rest work holds)

theorem drain_work (s : Setting) (w : Walk) : (drain s w).work = [] := by
  fun_induction drain s w with
  | case1 w empty => exact empty
  | case2 w start rest work ih => exact ih

theorem drain_walked (s : Setting) : Walked s (drain s s.begin) :=
  drain_induction s (Walked s) (fun _ _ _ work walked => turn_walked walked work) s.begin (begin_walked s)

end E5r.CfgWalk
