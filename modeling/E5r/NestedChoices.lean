import Mathlib.Data.List.Basic

/-!
# Nested choices in a stream of lines

Programs of items and chains of conditional branches, what they do, and the lines they are written
as. A machine that reads such lines one by one, with a frame of flags for every chain that is open,
does what the program they are the lines of does, and nothing else.
-/

namespace E5r.NestedChoices

variable {γ α σ : Type}

mutual
inductive Block (γ α : Type) where
  | skip
  | item (a : α)
  | seq (p q : Block γ α)
  | choose (c : γ) (b : Block γ α) (more : Branches γ α)

/-- The branches of a chain behind the first one. -/
inductive Branches (γ α : Type) where
  | none
  | orElse (c : γ) (b : Block γ α) (more : Branches γ α)
  | otherwise (b : Block γ α)
end

/-- The lines a program is written as. -/
inductive Mark (γ α : Type) where
  | opens (c : γ)
  | orElse (c : γ)
  | otherwise
  | closes
  | item (a : α)

mutual
def Block.marks : Block γ α → List (Mark γ α)
  | .skip => []
  | .item a => [.item a]
  | .seq p q => p.marks ++ q.marks
  | .choose c b more => .opens c :: (b.marks ++ (more.marks ++ [.closes]))

def Branches.marks : Branches γ α → List (Mark γ α)
  | .none => []
  | .orElse c b more => .orElse c :: (b.marks ++ more.marks)
  | .otherwise b => .otherwise :: b.marks
end

section

variable (test : γ → σ → Bool → Prop) (act : α → σ → σ → Prop)

mutual
/-- What a program does: of each chain it does the first branch whose condition holds. -/
def Block.Does : Block γ α → σ → σ → Prop
  | .skip, s, s' => s = s'
  | .item a, s, s' => act a s s'
  | .seq p q, s, s' => ∃ t, p.Does s t ∧ q.Does t s'
  | .choose c b more, s, s' => (test c s true ∧ b.Does s s') ∨ (test c s false ∧ more.Does s s')

def Branches.Does : Branches γ α → σ → σ → Prop
  | .none, s, s' => s = s'
  | .orElse c b more, s, s' => (test c s true ∧ b.Does s s') ∨ (test c s false ∧ more.Does s s')
  | .otherwise b, s, s' => b.Does s s'
end

/-- A chain that is open. -/
structure Frame where
  /-- Its branch lets lines through. -/
  active : Bool
  /-- One of its branches has been taken. -/
  taken : Bool
  /-- The branch without a condition has come. -/
  closed : Bool
  /-- The chains around it let it run. -/
  enclosing : Bool
  deriving DecidableEq

def live (fs : List Frame) : Bool := fs.all fun f => f.active && f.enclosing

/-- One line, with the frames of the open chains, innermost first. -/
inductive Step : Mark γ α → σ × List Frame → σ × List Frame → Prop where
  | opens {c : γ} {s : σ} {fs : List Frame} {v : Bool} (is : live fs = true) (tests : test c s v) :
      Step (.opens c) (s, fs) (s, ⟨v, v, false, true⟩ :: fs)
  | opensDead {c : γ} {s : σ} {fs : List Frame} (isNot : live fs = false) :
      Step (.opens c) (s, fs) (s, ⟨false, false, false, false⟩ :: fs)
  | orElse {c : γ} {s : σ} {f : Frame} {fs : List Frame} {v : Bool} (open_ : f.closed = false)
      (enclosing : f.enclosing = true) (free : f.taken = false) (tests : test c s v) :
      Step (.orElse c) (s, f :: fs) (s, { f with active := v, taken := v } :: fs)
  | orElseDead {c : γ} {s : σ} {f : Frame} {fs : List Frame} (open_ : f.closed = false)
      (skipped : f.enclosing = false ∨ f.taken = true) :
      Step (.orElse c) (s, f :: fs) (s, { f with active := false } :: fs)
  | otherwise {s : σ} {f : Frame} {fs : List Frame} (open_ : f.closed = false) :
      Step .otherwise (s, f :: fs) (s, { f with active := !f.taken, taken := true, closed := true } :: fs)
  | closes {s : σ} {f : Frame} {fs : List Frame} : Step .closes (s, f :: fs) (s, fs)
  | item {a : α} {s s' : σ} {fs : List Frame} (is : live fs = true) (acts : act a s s') :
      Step (.item a) (s, fs) (s', fs)
  | itemDead {a : α} {s : σ} {fs : List Frame} (isNot : live fs = false) : Step (.item a) (s, fs) (s, fs)

inductive Run : List (Mark γ α) → σ × List Frame → σ × List Frame → Prop where
  | nil {x : σ × List Frame} : Run [] x x
  | cons {m : Mark γ α} {ms : List (Mark γ α)} {x y z : σ × List Frame} (first : Step test act m x y)
      (rest : Run ms y z) : Run (m :: ms) x z

variable {test act}

variable {ms : List (Mark γ α)} {x y : σ × List Frame}

theorem run_append {ns : List (Mark γ α)} {z : σ × List Frame} (first : Run test act ms x y)
    (rest : Run test act ns y z) : Run test act (ms ++ ns) x z := by
  induction first with
  | nil => exact rest
  | cons step _ ih => exact .cons step (ih rest)

theorem run_split {ns : List (Mark γ α)} : ∀ {x z : σ × List Frame}, Run test act (ms ++ ns) x z →
    ∃ y, Run test act ms x y ∧ Run test act ns y z := by
  induction ms with
  | nil => exact fun run => ⟨_, .nil, run⟩
  | cons m ms ih =>
    intro x z run
    cases run with
    | cons first rest =>
      obtain ⟨y, before, after⟩ := ih rest
      exact ⟨y, .cons first before, after⟩

theorem run_singleton {m : Mark γ α} (step : Step test act m x y) :
    Run test act [m] x y := .cons step .nil

theorem live_cons (f : Frame) (fs : List Frame) : live (f :: fs) = (f.active && f.enclosing && live fs) := rfl

mutual
/-- Where no line is let through, a program changes nothing. -/
theorem skips (fs : List Frame) (dead : live fs = false) (s : σ) : ∀ b : Block γ α,
    Run test act b.marks (s, fs) (s, fs)
  | .skip => .nil
  | .item _ => run_singleton (.itemDead dead)
  | .seq p q => run_append (skips fs dead s p) (skips fs dead s q)
  | .choose c b more =>
    .cons (.opensDead dead) (run_append (skips (_ :: fs) rfl s b)
      (by
        obtain ⟨f, run⟩ := skipsBranches fs s more ⟨false, false, false, false⟩ rfl (.inl rfl)
        exact run_append run (run_singleton .closes)))

theorem skipsBranches (fs : List Frame) (s : σ) : ∀ (more : Branches γ α) (f : Frame), f.closed = false →
    (f.enclosing = false ∨ f.taken = true) → ∃ g, Run test act more.marks (s, f :: fs) (s, g :: fs)
  | .none, f, _, _ => ⟨f, .nil⟩
  | .orElse c b more, f, open_, skipped => by
    have body := skips ({ f with active := false } :: fs) rfl s b
    obtain ⟨g, run⟩ := skipsBranches fs s more { f with active := false } open_ skipped
    exact ⟨g, .cons (.orElseDead open_ skipped) (run_append body run)⟩
  | .otherwise b, f, open_, skipped => by
    have dead : live ({ f with active := !f.taken, taken := true, closed := true } :: fs) = false := by
      rcases skipped with none_ | taken
      · simp [live_cons, none_]
      · simp [live_cons, taken]
    exact ⟨_, .cons (.otherwise open_) (skips _ dead s b)⟩
end

mutual
theorem runs {fs : List Frame} (is : live fs = true) : ∀ (b : Block γ α) {s s' : σ}, b.Does test act s s' →
    Run test act b.marks (s, fs) (s', fs)
  | .skip, s, s', does => by
    cases does
    exact .nil
  | .item _, s, s', does => run_singleton (.item is does)
  | .seq p q, s, s', ⟨t, first, rest⟩ => run_append (runs is p first) (runs is q rest)
  | .choose c b more, s, s', .inl ⟨holds, does⟩ => by
    obtain ⟨g, rest⟩ := skipsBranches fs s' more ⟨true, true, false, true⟩ rfl (.inr rfl)
    exact .cons (.opens is holds) (run_append (runs (by simpa [live_cons] using is) b does)
      (run_append rest (run_singleton .closes)))
  | .choose c b more, s, s', .inr ⟨fails, does⟩ => by
    obtain ⟨g, rest⟩ := runsBranches is more ⟨false, false, false, true⟩ rfl rfl rfl does
    exact .cons (.opens is fails) (run_append (skips (_ :: fs) rfl s b) (run_append rest (run_singleton .closes)))

theorem runsBranches {fs : List Frame} (is : live fs = true) : ∀ (more : Branches γ α) (f : Frame) {s s' : σ},
    f.closed = false → f.enclosing = true → f.taken = false → more.Does test act s s' →
      ∃ g, Run test act more.marks (s, f :: fs) (s', g :: fs)
  | .none, f, s, s', _, _, _, does => by
    cases does
    exact ⟨f, .nil⟩
  | .orElse c b more, f, s, s', open_, enclosing, free, .inl ⟨holds, does⟩ => by
    obtain ⟨g, rest⟩ := skipsBranches fs s' more { f with active := true, taken := true }
      open_ (.inr rfl)
    exact ⟨g, .cons (.orElse open_ enclosing free holds)
      (run_append (runs (by simp [live_cons, enclosing, is]) b does) rest)⟩
  | .orElse c b more, f, s, s', open_, enclosing, free, .inr ⟨fails, does⟩ => by
    obtain ⟨g, rest⟩ := runsBranches is more { f with active := false, taken := false } open_ enclosing rfl does
    exact ⟨g, .cons (.orElse open_ enclosing free fails) (run_append (skips (_ :: fs) rfl s b) rest)⟩
  | .otherwise b, f, s, s', open_, enclosing, free, does =>
    ⟨_, .cons (.otherwise open_) (runs (by simp [live_cons, enclosing, free, is]) b does)⟩
end

/-- A chain that is open: the program before it, its branches that are over, and the condition of
the one that is not. -/
structure Opened (γ α : Type) where
  before : Block γ α
  done : List (γ × Block γ α)
  head : Option γ

def branches (done : List (γ × Block γ α)) (last : Branches γ α) : Branches γ α :=
  done.foldr (fun b more => .orElse b.1 b.2 more) last

def chain : List (γ × Block γ α) → Branches γ α → Block γ α
  | [], _ => .skip
  | b :: more, last => .choose b.1 b.2 (branches more last)

def Opened.close (o : Opened γ α) (cur : Block γ α) : Block γ α :=
  match o.head with
  | some c => .seq o.before (chain (o.done ++ [(c, cur)]) .none)
  | none => .seq o.before (chain o.done (.otherwise cur))

/-- The lines of the branches of a chain up to the head of the one that is not over. -/
def heads (done : List (γ × Block γ α)) (head : Option γ) : List (Mark γ α) :=
  match done, head with
  | [], some c => [.opens c]
  | [], none => []
  | b :: more, head => .opens b.1 :: (b.2.marks ++ ((more.flatMap fun b => .orElse b.1 :: b.2.marks) ++
      [head.elim .otherwise .orElse]))

def marksOf : List (Opened γ α) → Block γ α → List (Mark γ α)
  | [], cur => cur.marks
  | o :: os, cur => marksOf os o.before ++ (heads o.done o.head ++ cur.marks)

theorem branches_marks (done : List (γ × Block γ α)) (last : Branches γ α) :
    (branches done last).marks = (done.flatMap fun b => .orElse b.1 :: b.2.marks) ++ last.marks := by
  induction done with
  | nil => rfl
  | cons b done ih =>
    show Mark.orElse b.1 :: (b.2.marks ++ (branches done last).marks) = _
    rw [ih, List.flatMap_cons, List.cons_append, List.cons_append, List.append_assoc]

theorem marksOf_seq (os : List (Opened γ α)) (p q : Block γ α) :
    marksOf os (.seq p q) = marksOf os p ++ q.marks := by
  cases os with
  | nil => rfl
  | cons o os => simp only [marksOf, Block.marks, List.append_assoc]

variable {done : List (γ × Block γ α)} {c : γ} {cur : Block γ α}

theorem heads_next (head : Option γ) :
    heads (done ++ [(c, cur)]) head =
      heads done (some c) ++ (cur.marks ++ [head.elim Mark.otherwise Mark.orElse]) := by
  cases done with
  | nil => simp [heads]
  | cons b done => simp [heads]

variable {o : Opened γ α}

theorem close_marks (begun : o.head = none → o.done ≠ []) (os : List (Opened γ α)) (cur : Block γ α) :
    marksOf os (o.close cur) = marksOf (o :: os) cur ++ [.closes] := by
  obtain ⟨before, done, head⟩ := o
  cases head with
  | none =>
    cases done with
    | nil => exact absurd rfl (begun rfl)
    | cons b done =>
      simp [Opened.close, marksOf_seq, marksOf, chain, Block.marks, branches_marks, Branches.marks, heads]
  | some c =>
    cases done with
    | nil => simp [Opened.close, marksOf_seq, marksOf, chain, branches, Block.marks, Branches.marks, heads]
    | cons b done =>
      simp [Opened.close, marksOf_seq, marksOf, chain, Block.marks, branches_marks, Branches.marks, heads]

theorem next_marks (before : Block γ α) (done : List (γ × Block γ α)) (d : γ) (cur : Block γ α)
    (head : Option γ)
    (os : List (Opened γ α)) : marksOf (⟨before, done ++ [(d, cur)], head⟩ :: os) .skip =
      marksOf (⟨before, done, some d⟩ :: os) cur ++ [head.elim Mark.otherwise Mark.orElse] := by
  simp [marksOf, heads_next, Block.marks]

variable (test act) in
/-- The first of some branches whose condition holds is done. -/
def Takes : List (γ × Block γ α) → σ → σ → Prop
  | [], _, _ => False
  | b :: more, t, s => (test b.1 t true ∧ b.2.Does test act t s) ∨ (test b.1 t false ∧ Takes more t s)

variable (test) in
def Untaken (done : List (γ × Block γ α)) (t : σ) : Prop := ∀ b ∈ done, test b.1 t false

variable {t s : σ}

theorem takes_append {more : List (γ × Block γ α)} (takes : Takes test act done t s) :
    Takes test act (done ++ more) t s := by
  induction done with
  | nil => exact takes.elim
  | cons b done ih =>
    rcases takes with here | ⟨fails, later⟩
    · exact .inl here
    · exact .inr ⟨fails, ih later⟩

theorem takes_last {b : Block γ α} (untaken : Untaken test done t) (holds : test c t true)
    (does : b.Does test act t s) : Takes test act (done ++ [(c, b)]) t s := by
  induction done with
  | nil => exact .inl ⟨holds, does⟩
  | cons d done ih =>
    exact .inr ⟨untaken d List.mem_cons_self, ih fun x member => untaken x (List.mem_cons_of_mem _ member)⟩

theorem untaken_append {b : Block γ α} (untaken : Untaken test done t) (fails : test c t false) :
    Untaken test (done ++ [(c, b)]) t := by
  intro x member
  rcases List.mem_append.mp member with before | last
  · exact untaken x before
  · rw [List.mem_singleton.mp last]
    exact fails

variable {last : Branches γ α}

theorem branches_takes (takes : Takes test act done t s) : (branches done last).Does test act t s := by
  induction done with
  | nil => exact takes.elim
  | cons b done ih =>
    rcases takes with here | ⟨fails, later⟩
    · exact .inl here
    · exact .inr ⟨fails, ih later⟩

theorem branches_untaken (untaken : Untaken test done t) (does : last.Does test act t s) :
    (branches done last).Does test act t s := by
  induction done with
  | nil => exact does
  | cons b done ih =>
    exact .inr ⟨untaken b List.mem_cons_self, ih fun x member => untaken x (List.mem_cons_of_mem _ member)⟩

theorem chain_does (begun : done ≠ []) (does : (branches done last).Does test act t s) :
    (chain done last).Does test act t s := by
  cases done with
  | nil => exact absurd rfl begun
  | cons b done => exact does

variable (test act) in
/-- The chains that are open and the program of the innermost branch so far have brought the machine
to where it is. -/
inductive Stands (start : σ) : List (Opened γ α) → Block γ α → σ → List Frame → Prop where
  | top {cur : Block γ α} {s : σ} (does : cur.Does test act start s) : Stands start [] cur s []
  | taking {o : Opened γ α} {os : List (Opened γ α)} {cur : Block γ α} {t s : σ} {fs : List Frame}
      (around : Stands start os o.before t fs) (is : live fs = true) (begun : o.head = none → o.done ≠ [])
      (untaken : Untaken test o.done t) (holds : ∀ c ∈ o.head, test c t true) (does : cur.Does test act t s) :
      Stands start (o :: os) cur s (⟨true, true, o.head.isNone, true⟩ :: fs)
  | waiting {o : Opened γ α} {os : List (Opened γ α)} {cur : Block γ α} {c : γ} {t : σ} {fs : List Frame}
      (around : Stands start os o.before t fs) (is : live fs = true) (head : o.head = some c)
      (untaken : Untaken test o.done t) (fails : test c t false) :
      Stands start (o :: os) cur t (⟨false, false, false, true⟩ :: fs)
  | passed {o : Opened γ α} {os : List (Opened γ α)} {cur : Block γ α} {t s : σ} {fs : List Frame}
      (around : Stands start os o.before t fs) (is : live fs = true) (takes : Takes test act o.done t s) :
      Stands start (o :: os) cur s (⟨false, true, o.head.isNone, true⟩ :: fs)
  | dead {o : Opened γ α} {os : List (Opened γ α)} {cur : Block γ α} {t : σ} {fs : List Frame} {v w : Bool}
      (around : Stands start os o.before t fs) (isNot : live fs = false) (begun : o.head = none → o.done ≠ []) :
      Stands start (o :: os) cur t (⟨v, w, o.head.isNone, false⟩ :: fs)

variable {s' : σ} {os : List (Opened γ α)} {fs : List Frame}

theorem stands_live {start : σ} {q : Block γ α} (stands : Stands test act start os cur s fs) (is : live fs = true)
    (does : q.Does test act s s') : Stands test act start os (.seq cur q) s' fs := by
  cases stands with
  | top before => exact .top ⟨s, before, does⟩
  | taking around is begun untaken holds before => exact .taking around is begun untaken holds ⟨s, before, does⟩
  | waiting => cases is
  | passed => cases is
  | dead => simp [live_cons] at is

theorem stands_dead {start : σ} (stands : Stands test act start os cur s fs) (isNot : live fs = false)
    (cur' : Block γ α) : Stands test act start os cur' s fs := by
  cases stands with
  | top => cases isNot
  | taking around is => simp [live_cons, is] at isNot
  | waiting around is head untaken fails => exact .waiting around is head untaken fails
  | passed around is takes => exact .passed around is takes
  | dead around out begun => exact .dead around out begun

theorem closed_head (open_ : o.head.isNone = false) : ∃ c, o.head = some c :=
  Option.isSome_iff_exists.mp (by simpa using open_)

theorem takes_ne_nil (takes : Takes test act done t s) : done ≠ [] := by
  rintro rfl
  exact takes

/-- The end of a chain. -/
theorem stands_closes {start : σ} {f : Frame} (stands : Stands test act start (o :: os) cur s (f :: fs)) :
    Stands test act start os (o.close cur) s fs ∧ marksOf os (o.close cur) = marksOf (o :: os) cur ++ [.closes] := by
  obtain ⟨before, done, head⟩ := o
  cases stands with
  | @taking _ _ _ t _ _ around is begun untaken holds does =>
    refine ⟨?_, close_marks begun os cur⟩
    cases head with
    | none => exact stands_live around is (chain_does (begun rfl) (branches_untaken untaken does))
    | some c =>
      have takes := takes_last untaken (holds c rfl) does
      exact stands_live around is (chain_does (by simp) (branches_takes takes))
  | waiting around is isHead untaken fails =>
    obtain rfl : head = some _ := isHead
    refine ⟨?_, close_marks (by simp) os cur⟩
    exact stands_live around is (chain_does (by simp) (branches_untaken (untaken_append untaken fails) rfl))
  | passed around is takes =>
    refine ⟨?_, close_marks (fun _ => takes_ne_nil takes) os cur⟩
    cases head with
    | none => exact stands_live around is (chain_does (takes_ne_nil takes) (branches_takes takes))
    | some c => exact stands_live around is (chain_does (by simp) (branches_takes (takes_append takes)))
  | dead around isNot begun => exact ⟨stands_dead around isNot _, close_marks begun os cur⟩

theorem stands_step {start : σ} {m : Mark γ α} {fs' : List Frame} (stands : Stands test act start os cur s fs)
    (step : Step test act m (s, fs) (s', fs')) :
    ∃ os' cur', Stands test act start os' cur' s' fs' ∧ marksOf os' cur' = marksOf os cur ++ [m] := by
  cases step with
  | @opens c _ _ v is tests =>
    refine ⟨⟨cur, [], some c⟩ :: os, .skip, ?_, by simp [marksOf, heads, Block.marks]⟩
    cases v with
    | true => exact .taking stands is (by simp) (by simp [Untaken]) (by simpa using tests) rfl
    | false => exact .waiting stands is rfl (by simp [Untaken]) tests
  | @opensDead c _ _ isNot =>
    exact ⟨⟨cur, [], some c⟩ :: os, .skip, .dead stands isNot (by simp), by simp [marksOf, heads, Block.marks]⟩
  | item is acts =>
    exact ⟨os, .seq cur (.item _), stands_live stands is acts, by rw [marksOf_seq]; rfl⟩
  | itemDead isNot =>
    exact ⟨os, .seq cur (.item _), stands_dead stands isNot _, by rw [marksOf_seq]; rfl⟩
  | closes =>
    cases os with
    | nil => cases stands
    | cons o os => exact ⟨os, o.close cur, stands_closes stands⟩
  | @orElse c _ f _ v open_ enclosing free tests =>
    cases stands with
    | taking => cases free
    | passed => cases free
    | dead => cases enclosing
    | @waiting o os _ d _ _ around is isHead untaken fails =>
      obtain ⟨before, done, head⟩ := o
      obtain rfl : head = some d := isHead
      refine ⟨⟨before, done ++ [(d, cur)], some c⟩ :: os, .skip, ?_, next_marks before done d cur (some c) os⟩
      have none_ := untaken_append untaken fails (b := cur)
      cases v with
      | true => exact .taking around is (by simp) none_ (by simpa using tests) rfl
      | false => exact .waiting around is rfl none_ tests
  | @orElseDead c _ f _ open_ skipped =>
    cases stands with
    | @taking o _ _ t _ _ around is begun untaken holds does =>
      obtain ⟨before, done, head⟩ := o
      obtain ⟨d, rfl⟩ := closed_head open_
      exact ⟨⟨before, done ++ [(d, cur)], some c⟩ :: _, .skip,
        .passed around is (takes_last untaken (holds d rfl) does), next_marks before done d cur (some c) _⟩
    | waiting => simp at skipped
    | @passed o _ _ _ _ _ around is takes =>
      obtain ⟨before, done, head⟩ := o
      obtain ⟨d, rfl⟩ := closed_head open_
      exact ⟨⟨before, done ++ [(d, cur)], some c⟩ :: _, .skip, .passed around is (takes_append takes),
        next_marks before done d cur (some c) _⟩
    | @dead o _ _ _ _ _ _ around isNot begun =>
      obtain ⟨before, done, head⟩ := o
      obtain ⟨d, rfl⟩ := closed_head open_
      exact ⟨⟨before, done ++ [(d, cur)], some c⟩ :: _, .skip, .dead around isNot (by simp),
        next_marks before done d cur (some c) _⟩
  | @otherwise _ f _ open_ =>
    cases stands with
    | @taking o _ _ t _ _ around is begun untaken holds does =>
      obtain ⟨before, done, head⟩ := o
      obtain ⟨d, rfl⟩ := closed_head open_
      exact ⟨⟨before, done ++ [(d, cur)], none⟩ :: _, .skip,
        .passed around is (takes_last untaken (holds d rfl) does), next_marks before done d cur none _⟩
    | @waiting o os _ d _ _ around is isHead untaken fails =>
      obtain ⟨before, done, head⟩ := o
      obtain rfl : head = some d := isHead
      exact ⟨⟨before, done ++ [(d, cur)], none⟩ :: _, .skip,
        .taking around is (by simp) (untaken_append untaken fails) (by simp) rfl, next_marks before done d cur none _⟩
    | @passed o _ _ _ _ _ around is takes =>
      obtain ⟨before, done, head⟩ := o
      obtain ⟨d, rfl⟩ := closed_head open_
      exact ⟨⟨before, done ++ [(d, cur)], none⟩ :: _, .skip, .passed around is (takes_append takes),
        next_marks before done d cur none _⟩
    | @dead o _ _ _ _ _ _ around isNot begun =>
      obtain ⟨before, done, head⟩ := o
      obtain ⟨d, rfl⟩ := closed_head open_
      exact ⟨⟨before, done ++ [(d, cur)], none⟩ :: _, .skip, .dead around isNot (by simp),
        next_marks before done d cur none _⟩

theorem stands_run {start : σ} (run : Run test act ms x y) :
    ∀ {os : List (Opened γ α)} {cur : Block γ α}, Stands test act start os cur x.1 x.2 →
      ∃ os' cur', Stands test act start os' cur' y.1 y.2 ∧ marksOf os' cur' = marksOf os cur ++ ms := by
  induction run with
  | nil => exact fun stands => ⟨_, _, stands, (List.append_nil _).symm⟩
  | cons step _ ih =>
    intro os cur stands
    obtain ⟨os1, cur1, stands1, lines1⟩ := stands_step stands step
    obtain ⟨os2, cur2, stands2, lines2⟩ := ih stands1
    exact ⟨os2, cur2, stands2, by rw [lines2, lines1, List.append_assoc, List.singleton_append]⟩

/-- Lines the machine reads from no open chain on are those of a program, with the ends of the chains
that are left open, and the machine does what the program does. -/
theorem run_iff {n : ℕ} :
    (∃ fs, fs.length = n ∧ Run test act ms (s, []) (s', fs)) ↔
      ∃ b : Block γ α, b.marks = ms ++ List.replicate n .closes ∧ b.Does test act s s' := by
  constructor
  · rintro ⟨fs, rfl, run⟩
    have ends : ∀ fs : List Frame,
        Run test act (List.replicate fs.length (.closes : Mark γ α)) (s', fs) (s', []) := by
      intro fs
      induction fs with
      | nil => exact .nil
      | cons f fs ih => exact .cons .closes ih
    have begins : Stands test act s [] Block.skip s [] := .top rfl
    obtain ⟨os, cur, stands, lines⟩ := stands_run (run_append run (ends fs)) begins
    cases stands with
    | top does => exact ⟨cur, lines, does⟩
  · rintro ⟨b, lines, does⟩
    have run : Run test act b.marks (s, []) (s', []) := runs rfl b does
    rw [lines] at run
    obtain ⟨⟨t, fs⟩, before, ends⟩ := run_split run
    have closed : ∀ (n : ℕ) (fs : List Frame),
        Run test act (List.replicate n (.closes : Mark γ α)) (t, fs) (s', []) → t = s' ∧ fs.length = n := by
      intro n
      induction n with
      | zero =>
        intro fs ends
        cases ends
        exact ⟨rfl, rfl⟩
      | succ n ih =>
        intro fs ends
        cases ends with
        | cons first rest =>
          cases first with
          | closes =>
            obtain ⟨same, length⟩ := ih _ rest
            exact ⟨same, by rw [List.length_cons, length]⟩
    obtain ⟨rfl, length⟩ := closed n fs ends
    exact ⟨fs, length, before⟩

end

end E5r.NestedChoices
