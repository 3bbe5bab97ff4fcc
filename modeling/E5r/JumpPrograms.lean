import Mathlib.Data.List.Basic

/-!
# Structured programs with jumps

What can be seen of a program made of blocks, tests, loops, scopes that a break leaves, and
jumps to labelled blocks: the blocks it runs and the tests it makes, in order. A part is
described by its runs alone, from its start and from each labelled block in it, so that two
parts with the same runs can stand for each other anywhere.
-/

namespace E5r.JumpPrograms

inductive Event (B T : Type) where
  | ran (block : B)
  | tested (test : T) (held : Bool)
  deriving DecidableEq

/-- How control leaves a part. A run that is cut shows only a beginning. -/
inductive Exit (B : Type) where
  | fall | brk | cont | stop | cut
  | goto (block : B)
  deriving DecidableEq

/-- The runs of a part: from its start or from a block in it, what is seen and how it ends. -/
abbrev Behaviour (B T : Type) := Option B → List (Event B T) → Exit B → Prop

/-- What blocks and tests do: which blocks carry a label, which ones show when they run, which
ones end the program, and which tests are never made because their block ends it. -/
structure Machine (B T : Type) where
  labels : B → Prop
  shown : B → Bool
  stops : B → Bool
  dead : T → Bool

variable {B T : Type}

theorem behaviour_ext {p q : Behaviour B T} (runs : ∀ e t x, p e t x ↔ q e t x) : p = q := by
  funext e t x
  exact propext (runs e t x)

/-- Does nothing and leaves in the given way. -/
def leave (y : Exit B) : Behaviour B T := fun e t x => e = none ∧ t = [] ∧ x = y

def skip : Behaviour B T := leave .fall

def block (m : Machine B T) (b : B) : Behaviour B T := fun e t x =>
  (e = none ∨ e = some b ∧ m.labels b) ∧
    (t = [] ∧ x = .cut ∨
      t = (if m.shown b then [.ran b] else []) ∧ x = if m.stops b then .stop else .fall)

def seq (p q : Behaviour B T) : Behaviour B T := fun e t x =>
  (p e t x ∧ x ≠ .fall) ∨ (∃ s u, t = s ++ u ∧ p e s .fall ∧ q none u x) ∨ (e ≠ none ∧ q e t x)

/-- Tests made in order until one does not come out as wanted. -/
def tests (m : Machine B T) (p q : List (Event B T) → Exit B → Prop) :
    List (T × Bool) → List (Event B T) → Exit B → Prop
  | [] => p
  | (c, wanted) :: cs => fun t x =>
    (t = [] ∧ (x = .cut ∨ m.dead c = true ∧ x = .stop)) ∨
      m.dead c = false ∧ ∃ held u, t = .tested c held :: u ∧
        if held = wanted then tests m p q cs u x else q u x

/-- The first part when every test comes out as wanted, the second when one does not. -/
def branch (m : Machine B T) (cs : List (T × Bool)) (p q : Behaviour B T) : Behaviour B T
  | none => tests m (p none) (q none) cs
  | some b => fun t x => p (some b) t x ∨ q (some b) t x

inductive Turns (p : Behaviour B T) : Behaviour B T
  | again {e s u x y} : p e s y → y = .fall ∨ y = .cont → Turns p none u x → Turns p e (s ++ u) x
  | broke {e t} : p e t .brk → Turns p e t .fall
  | left {e t x} : p e t x → x ≠ .fall → x ≠ .cont → x ≠ .brk → Turns p e t x

def loop (p : Behaviour B T) : Behaviour B T := Turns p

/-- A part that a break inside it leaves. -/
def scope (p : Behaviour B T) : Behaviour B T := fun e t x =>
  (x = .fall ∧ p e t .brk) ∨ (x ≠ .brk ∧ p e t x)

/-- The runs of a whole program: a jump to a block in it goes on there. -/
inductive Executes (p : Behaviour B T) : Behaviour B T
  | done {e t x} : p e t x → (∀ b, x = .goto b → ∀ s y, ¬ p (some b) s y) → Executes p e t x
  | jump {e s b u x} : p e s (.goto b) → Executes p (some b) u x → Executes p e (s ++ u) x

def NeverFalls (p : Behaviour B T) : Prop := ∀ e t, ¬ p e t .fall

/-- No block inside carries a label. -/
def Closed (p : Behaviour B T) : Prop := ∀ b t x, ¬ p (some b) t x

@[simp] theorem skip_seq (p : Behaviour B T) : seq skip p = p := by
  apply behaviour_ext
  intro e t x
  simp only [seq, skip, leave]
  constructor
  · rintro (⟨⟨-, -, rfl⟩, fell⟩ | ⟨s, u, rfl, ⟨rfl, rfl, -⟩, run⟩ | ⟨-, run⟩)
    · exact absurd rfl fell
    · exact run
    · exact run
  · intro run
    cases e with
    | none => exact .inr (.inl ⟨[], t, rfl, ⟨rfl, rfl, trivial⟩, run⟩)
    | some b => exact .inr (.inr ⟨nofun, run⟩)

@[simp] theorem seq_skip (p : Behaviour B T) : seq p skip = p := by
  apply behaviour_ext
  intro e t x
  simp only [seq, skip, leave]
  constructor
  · rintro (⟨run, -⟩ | ⟨s, u, rfl, run, -, rfl, rfl⟩ | ⟨inside, rfl, -, -⟩)
    · exact run
    · simpa using run
    · exact absurd rfl inside
  · intro run
    by_cases fell : x = .fall
    · subst fell
      exact .inr (.inl ⟨t, [], by simp, run, by simp⟩)
    · exact .inl ⟨run, fell⟩

theorem seq_assoc (p q r : Behaviour B T) : seq (seq p q) r = seq p (seq q r) := by
  apply behaviour_ext
  intro e t x
  constructor
  · rintro (⟨first | ⟨s, u, rfl, run, next⟩ | ⟨inside, run⟩, fell⟩ |
      ⟨s, u, rfl, first | ⟨s', u', rfl, run, next⟩ | ⟨inside, run⟩, last⟩ | ⟨inside, run⟩)
    · exact .inl first
    · exact .inr (.inl ⟨s, u, rfl, run, .inl ⟨next, fell⟩⟩)
    · exact .inr (.inr ⟨inside, .inl ⟨run, fell⟩⟩)
    · exact absurd rfl first.2
    · exact .inr (.inl ⟨s', u' ++ u, by simp, run, .inr (.inl ⟨u', u, rfl, next, last⟩)⟩)
    · exact .inr (.inr ⟨inside, .inr (.inl ⟨s, u, rfl, run, last⟩)⟩)
    · exact .inr (.inr ⟨inside, .inr (.inr ⟨inside, run⟩)⟩)
  · rintro (first | ⟨s, u, rfl, run, ⟨next, fell⟩ | ⟨s', u', rfl, next, last⟩ | ⟨inside, -⟩⟩ |
      ⟨inside, ⟨run, fell⟩ | ⟨s, u, rfl, run, last⟩ | ⟨-, run⟩⟩)
    · exact .inl ⟨.inl first, first.2⟩
    · exact .inl ⟨.inr (.inl ⟨s, u, rfl, run, next⟩), fell⟩
    · exact .inr (.inl ⟨s ++ s', u', by simp, .inr (.inl ⟨s, s', rfl, run, next⟩), last⟩)
    · exact absurd rfl inside
    · exact .inl ⟨.inr (.inr ⟨inside, run⟩), fell⟩
    · exact .inr (.inl ⟨s, u, rfl, .inr (.inr ⟨inside, run⟩), last⟩)
    · exact .inr (.inr ⟨inside, run⟩)

theorem seq_of_neverFalls {p q : Behaviour B T} (never : NeverFalls p) (closed : Closed q) :
    seq p q = p := by
  apply behaviour_ext
  intro e t x
  constructor
  · rintro (⟨run, -⟩ | ⟨s, u, -, run, -⟩ | ⟨inside, run⟩)
    · exact run
    · exact absurd run (never e s)
    · cases e with
      | none => exact absurd rfl inside
      | some b => exact absurd run (closed b t x)
  · intro run
    refine .inl ⟨run, ?_⟩
    rintro rfl
    exact never e t run

theorem neverFalls_seq {p q : Behaviour B T} (never : NeverFalls q) : NeverFalls (seq p q) := by
  rintro e t (⟨-, fell⟩ | ⟨s, u, -, -, run⟩ | ⟨-, run⟩)
  · exact fell rfl
  · exact never none u run
  · exact never e t run

/-- A part that never falls can be written twice. -/
theorem seq_self {p : Behaviour B T} (never : NeverFalls p) : seq p p = p := by
  apply behaviour_ext
  intro e t x
  constructor
  · rintro (⟨run, -⟩ | ⟨s, u, -, run, -⟩ | ⟨-, run⟩)
    · exact run
    · exact absurd run (never e s)
    · exact run
  · intro run
    refine .inl ⟨run, ?_⟩
    rintro rfl
    exact never e t run

theorem tests_seq (m : Machine B T) (p q r : Behaviour B T) (cs : List (T × Bool))
    (t : List (Event B T)) (x : Exit B) :
    ((tests m (p none) (q none) cs t x ∧ x ≠ .fall) ∨
        ∃ s u, t = s ++ u ∧ tests m (p none) (q none) cs s .fall ∧ r none u x) ↔
      tests m (seq p r none) (seq q r none) cs t x := by
  have start (p : Behaviour B T) (t : List (Event B T)) : seq p r none t x ↔
      (p none t x ∧ x ≠ .fall) ∨ ∃ s u, t = s ++ u ∧ p none s .fall ∧ r none u x := by
    simp [seq]
  induction cs generalizing t with
  | nil => simp only [tests, start]
  | cons c cs ih =>
    obtain ⟨c, wanted⟩ := c
    simp only [tests]
    constructor
    · rintro (⟨⟨rfl, ended⟩ | ⟨live, held, u, rfl, run⟩, fell⟩ |
        ⟨s, v, rfl, ⟨-, ended⟩ | ⟨live, held, u, rfl, run⟩, last⟩)
      · exact .inl ⟨rfl, ended⟩
      · refine .inr ⟨live, held, u, rfl, ?_⟩
        split at run <;> rename_i same
        · exact (if_pos same).symm ▸ (ih u).mp (.inl ⟨run, fell⟩)
        · exact (if_neg same).symm ▸ (start q u).mpr (.inl ⟨run, fell⟩)
      · rcases ended with ended | ⟨-, ended⟩ <;> cases ended
      · refine .inr ⟨live, held, u ++ v, rfl, ?_⟩
        split at run <;> rename_i same
        · exact (if_pos same).symm ▸ (ih (u ++ v)).mp (.inr ⟨u, v, rfl, run, last⟩)
        · exact (if_neg same).symm ▸ (start q (u ++ v)).mpr (.inr ⟨u, v, rfl, run, last⟩)
    · rintro (⟨rfl, ended⟩ | ⟨live, held, u, rfl, run⟩)
      · refine .inl ⟨.inl ⟨rfl, ended⟩, ?_⟩
        rcases ended with rfl | ⟨-, rfl⟩ <;> nofun
      · split at run <;> rename_i same
        · rcases (ih u).mpr run with ⟨run, fell⟩ | ⟨s, v, rfl, run, last⟩
          · exact .inl ⟨.inr ⟨live, held, u, rfl, (if_pos same).symm ▸ run⟩, fell⟩
          · exact .inr ⟨.tested c held :: s, v, rfl,
              .inr ⟨live, held, s, rfl, (if_pos same).symm ▸ run⟩, last⟩
        · rcases (start q u).mp run with ⟨run, fell⟩ | ⟨s, v, rfl, run, last⟩
          · exact .inl ⟨.inr ⟨live, held, u, rfl, (if_neg same).symm ▸ run⟩, fell⟩
          · exact .inr ⟨.tested c held :: s, v, rfl,
              .inr ⟨live, held, s, rfl, (if_neg same).symm ▸ run⟩, last⟩

theorem branch_seq (m : Machine B T) (cs : List (T × Bool)) (p q r : Behaviour B T) :
    seq (branch m cs p q) r = branch m cs (seq p r) (seq q r) := by
  apply behaviour_ext
  intro e t x
  cases e with
  | none =>
    rw [show branch m cs (seq p r) (seq q r) none t x
      = tests m (seq p r none) (seq q r none) cs t x from rfl, ← tests_seq]
    simp [seq, branch]
  | some b =>
    simp only [seq, branch, ne_eq, reduceCtorEq, not_false_eq_true, true_and]
    constructor
    · rintro (⟨run | run, fell⟩ | ⟨s, u, rfl, run | run, last⟩ | run)
      · exact .inl (.inl ⟨run, fell⟩)
      · exact .inr (.inl ⟨run, fell⟩)
      · exact .inl (.inr (.inl ⟨s, u, rfl, run, last⟩))
      · exact .inr (.inr (.inl ⟨s, u, rfl, run, last⟩))
      · exact .inl (.inr (.inr run))
    · rintro ((⟨run, fell⟩ | ⟨s, u, rfl, run, last⟩ | run) |
        (⟨run, fell⟩ | ⟨s, u, rfl, run, last⟩ | run))
      · exact .inl ⟨.inl run, fell⟩
      · exact .inr (.inl ⟨s, u, rfl, .inl run, last⟩)
      · exact .inr (.inr run)
      · exact .inl ⟨.inr run, fell⟩
      · exact .inr (.inl ⟨s, u, rfl, .inr run, last⟩)
      · exact .inr (.inr run)

theorem drop_else (m : Machine B T) (cs : List (T × Bool)) {p : Behaviour B T}
    (q : Behaviour B T) (never : NeverFalls p) :
    seq (branch m cs p skip) q = branch m cs p q := by
  rw [branch_seq, skip_seq]
  have alone : seq p q none = p none := by
    funext t x
    refine propext ⟨?_, fun run => .inl ⟨run, ?_⟩⟩
    · rintro (⟨run, -⟩ | ⟨s, u, -, run, -⟩ | ⟨inside, -⟩)
      · exact run
      · exact absurd run (never none s)
      · exact absurd rfl inside
    · rintro rfl
      exact never none t run
  apply behaviour_ext
  intro e t x
  cases e with
  | none => simp only [branch, alone]
  | some b =>
    simp only [branch, seq]
    constructor
    · rintro ((⟨run, -⟩ | ⟨s, u, -, run, -⟩ | ⟨-, run⟩) | run)
      · exact .inl run
      · exact absurd run (never _ s)
      · exact .inr run
      · exact .inr run
    · rintro (run | run)
      · refine .inl (.inl ⟨run, ?_⟩)
        rintro rfl
        exact never _ t run
      · exact .inr run

theorem branch_append (m : Machine B T) (cs ds : List (T × Bool)) (p q : Behaviour B T) :
    branch m (cs ++ ds) p q = branch m cs (branch m ds p q) q := by
  funext e
  cases e with
  | none =>
    simp only [branch]
    induction cs with
    | nil => rfl
    | cons c cs ih => simp only [List.cons_append, tests, ih]
  | some b =>
    funext t x
    simp only [branch, or_assoc, or_self]

theorem branch_not (m : Machine B T) (c : T) (wanted : Bool) (p q : Behaviour B T) :
    branch m [(c, !wanted)] p q = branch m [(c, wanted)] q p := by
  apply behaviour_ext
  intro e t x
  cases e with
  | some b => exact or_comm
  | none =>
    have arms (held : Bool) (u : List (Event B T)) :
        (if held = !wanted then p none u x else q none u x) ↔
          if held = wanted then q none u x else p none u x := by
      cases held <;> cases wanted <;> simp
    simp only [branch, tests, arms]

variable {m : Machine B T} {b : B}

theorem neverFalls_block (stops : m.stops b = true) : NeverFalls (block m b) := by
  rintro e t ⟨-, ⟨-, ended⟩ | ⟨-, ended⟩⟩
  · cases ended
  · rw [stops] at ended
    cases ended

theorem closed_block (unlabelled : ¬ m.labels b) : Closed (block m b) := by
  rintro c t x ⟨entered | ⟨-, labelled⟩, -⟩
  · cases entered
  · exact unlabelled labelled

theorem block_branch (m : Machine B T) (b : B) (c : T) (wanted : Bool) (cs : List (T × Bool))
    (p q : Behaviour B T) (hidden : m.shown b = false) (unlabelled : ¬ m.labels b)
    (same : m.dead c = m.stops b) :
    seq (block m b) (branch m ((c, wanted) :: cs) p q) = branch m ((c, wanted) :: cs) p q := by
  apply behaviour_ext
  intro e t x
  simp only [seq, block, hidden, Bool.false_eq_true, if_false]
  constructor
  · rintro (⟨⟨rfl | ⟨-, labelled⟩, ⟨rfl, rfl⟩ | ⟨rfl, rfl⟩⟩, fell⟩ |
      ⟨s, u, rfl, ⟨rfl | ⟨-, labelled⟩, ⟨-, ended⟩ | ⟨rfl, goes⟩⟩, run⟩ | ⟨-, run⟩)
    · exact .inl ⟨rfl, .inl rfl⟩
    · cases stopped : m.stops b with
      | true => exact .inl ⟨rfl, .inr ⟨same.trans stopped, by simp⟩⟩
      | false => simp [stopped] at fell
    · exact absurd labelled unlabelled
    · exact absurd labelled unlabelled
    · cases ended
    · exact run
    · exact absurd labelled unlabelled
    · exact absurd labelled unlabelled
    · exact run
  · intro run
    cases e with
    | none =>
      cases stopped : m.stops b with
      | true =>
        rcases run with ⟨rfl, rfl | ⟨-, rfl⟩⟩ | ⟨live, -⟩
        · exact .inl ⟨⟨.inl rfl, .inl ⟨rfl, rfl⟩⟩, nofun⟩
        · exact .inl ⟨⟨.inl rfl, .inr ⟨rfl, by simp⟩⟩, nofun⟩
        · rw [same, stopped] at live
          cases live
      | false => exact .inr (.inl ⟨[], t, rfl, ⟨.inl rfl, .inr ⟨rfl, by simp⟩⟩, run⟩)
    | some b => exact .inr (.inr ⟨nofun, run⟩)

variable {t : List (Event B T)} {x : Exit B}

theorem tests_cases {cs : List (T × Bool)} {p : List (Event B T) → Exit B → Prop}
    {q q' : List (Event B T) → Exit B → Prop} (run : tests m p q cs t x) :
    tests m p q' cs t x ∨
      ∃ s u, t = s ++ u ∧ q u x ∧ ∀ q' u' x', q' u' x' → tests m p q' cs (s ++ u') x' := by
  induction cs generalizing t with
  | nil => exact .inl run
  | cons c cs ih =>
    obtain ⟨c, wanted⟩ := c
    rcases run with ended | ⟨live, held, u, rfl, run⟩
    · exact .inl (.inl ended)
    · by_cases same : held = wanted
      · rw [if_pos same] at run
        rcases ih run with kept | ⟨s, v, rfl, last, again⟩
        · exact .inl (.inr ⟨live, held, u, rfl, by rwa [if_pos same]⟩)
        · refine .inr ⟨.tested c held :: s, v, rfl, last, fun q' u' x' there => ?_⟩
          exact .inr ⟨live, held, s ++ u', rfl, by rw [if_pos same]; exact again q' u' x' there⟩
      · rw [if_neg same] at run
        refine .inr ⟨[.tested c held], u, rfl, run, fun q' u' x' there => ?_⟩
        exact .inr ⟨live, held, u', rfl, by rwa [if_neg same]⟩

theorem thread_jump {cs : List (T × Bool)} {p s : Behaviour B T} {l : B} (target : ∀ t x, p (some l) t x ↔ s none t x)
    (within : ∀ b t x, s (some b) t x → p (some b) t x) (starts : ∃ t x, s none t x) (e : Option B)
    (t : List (Event B T)) (x : Exit B) :
    Executes (branch m cs p s) e t x ↔ Executes (branch m cs p (leave (.goto l))) e t x := by
  have entered (b : B) (t : List (Event B T)) (x : Exit B) :
      branch m cs p s (some b) t x ↔ branch m cs p (leave (.goto l)) (some b) t x := by
    simp only [branch, leave, reduceCtorEq, false_and, or_false, or_iff_left_iff_imp]
    exact within b t x
  have inside (u : List (Event B T)) (y : Exit B) :
      branch m cs p s (some l) u y ↔ s none u y := by
    rw [entered, ← target]
    simp [branch, leave]
  -- a run from the start either takes the first arm in both, or fails its tests
  have first (e : Option B) (t : List (Event B T)) (x : Exit B) :
      branch m cs p s e t x → branch m cs p (leave (.goto l)) e t x ∨
        ∃ s' u, t = s' ++ u ∧ branch m cs p (leave (.goto l)) e s' (.goto l) ∧ s none u x := by
    intro run
    cases e with
    | some b => exact .inl ((entered b t x).mp run)
    | none =>
      rcases tests_cases run with kept | ⟨s', u, rfl, last, again⟩
      · exact .inl kept
      · refine .inr ⟨s', u, rfl, ?_, last⟩
        have failed := again (leave (.goto l) none) [] (.goto l) ⟨rfl, rfl, rfl⟩
        rwa [List.append_nil] at failed
  have second (e : Option B) (t : List (Event B T)) (x : Exit B) :
      branch m cs p (leave (.goto l)) e t x → branch m cs p s e t x ∨
        x = .goto l ∧ ∀ u y, s none u y → branch m cs p s e (t ++ u) y := by
    intro run
    cases e with
    | some b => exact .inl ((entered b t x).mpr run)
    | none =>
      rcases tests_cases run with kept | ⟨s', u, rfl, ⟨-, rfl, rfl⟩, again⟩
      · exact .inl kept
      · refine .inr ⟨rfl, fun u y there => ?_⟩
        rw [List.append_nil]
        exact again (s none) u y there
  constructor
  · intro run
    induction run with
    | @done e t x last missing =>
      have missing' (b : B) (goes : x = .goto b) (s' : List (Event B T)) (y : Exit B) :
          ¬ branch m cs p (leave (.goto l)) (some b) s' y := fun run =>
        missing b goes s' y ((entered b s' y).mpr run)
      rcases first e t x last with kept | ⟨s', u, rfl, jumps, last⟩
      · exact .done kept missing'
      · exact .jump jumps (.done ((entered l u x).mp ((inside u x).mpr last)) missing')
    | @jump e t b u x run _ ih =>
      rcases first e t (.goto b) run with kept | ⟨s', v, rfl, jumps, last⟩
      · exact .jump kept ih
      · rw [List.append_assoc]
        exact .jump jumps (.jump ((entered l v _).mp ((inside v _).mpr last)) ih)
  · intro run
    induction run with
    | @done e t x last missing =>
      rcases second e t x last with kept | ⟨rfl, -⟩
      · exact .done kept fun b goes s' y run => missing b goes s' y ((entered b s' y).mp run)
      · obtain ⟨u, y, there⟩ := starts
        exact absurd ((entered l u y).mp ((inside u y).mpr there)) (missing l rfl u y)
    | @jump e t b u x run _ ih =>
      rcases second e t (.goto b) run with kept | ⟨goes, threads⟩
      · exact .jump kept ih
      · obtain rfl : b = l := by cases goes; rfl
        -- the jump lands at the start of what stands in its place
        cases ih with
        | done last missing => exact .done (threads _ _ ((inside _ _).mp last)) missing
        | jump next later =>
          rw [← List.append_assoc]
          exact .jump (threads _ _ ((inside _ _).mp next)) later

/-- The same runs from the start and from the blocks of a set. -/
def Agree (L : B → Prop) (p q : Behaviour B T) : Prop :=
  ∀ e, (∀ b, e = some b → L b) → p e = q e

/-- Every jump out of the part goes to a block of a set. -/
def Jumps (L : B → Prop) (p : Behaviour B T) : Prop := ∀ e t b, p e t (.goto b) → L b

variable {L : B → Prop} {p q p' q' : Behaviour B T}

theorem Agree.refl (p : Behaviour B T) : Agree L p p := fun _ _ => rfl

theorem Agree.symm (agree : Agree L p q) : Agree L q p := fun e entered => (agree e entered).symm

theorem agree_block (all : ∀ b, m.labels b) (b : B) : Agree L (block { m with labels := L } b) (block m b) := by
  intro e entered
  funext t x
  simp only [block, all, and_true]
  cases e with
  | none => simp
  | some c =>
    have labelled := entered c rfl
    simp only [reduceCtorEq, Option.some.injEq, false_or, eq_iff_iff]
    constructor
    · rintro ⟨⟨rfl, -⟩, run⟩
      exact ⟨rfl, run⟩
    · rintro ⟨rfl, run⟩
      exact ⟨⟨rfl, labelled⟩, run⟩

theorem Agree.seq (first : Agree L p p') (second : Agree L q q') :
    Agree L (seq p q) (seq p' q') := by
  intro e entered
  funext t x
  simp only [JumpPrograms.seq, first e entered, second e entered, second none (fun _ h => nomatch h)]

theorem Agree.branch (cs : List (T × Bool)) (first : Agree L p p') (second : Agree L q q') :
    Agree L (branch m cs p q) (branch m cs p' q') := by
  intro e entered
  cases e with
  | none => simp only [JumpPrograms.branch, first none entered, second none entered]
  | some b => simp only [JumpPrograms.branch, first _ entered, second _ entered]

theorem Agree.turns (agree : Agree L p q) {e : Option B} (run : Turns p e t x) (entered : ∀ b, e = some b → L b) :
    Turns q e t x := by
  induction run with
  | again first goes _ ih =>
    exact .again (agree _ entered ▸ first) goes (ih (fun _ h => nomatch h))
  | broke last => exact .broke (agree _ entered ▸ last)
  | left last fell went broke => exact .left (agree _ entered ▸ last) fell went broke

theorem Agree.loop (agree : Agree L p q) : Agree L (loop p) (loop q) := by
  intro e entered
  funext t x
  exact propext ⟨fun run => agree.turns run entered, fun run => agree.symm.turns run entered⟩

theorem Agree.scope (agree : Agree L p q) : Agree L (scope p) (scope q) := by
  intro e entered
  funext t x
  simp only [JumpPrograms.scope, agree e entered]

theorem Jumps.leave {y : Exit B} (target : ∀ b, y = .goto b → L b) :
    Jumps (T := T) L (leave y) := by
  rintro e t b ⟨-, -, goes⟩
  exact target b goes.symm

theorem jumps_block (m : Machine B T) (b : B) : Jumps L (block m b) := by
  rintro e t c ⟨-, ⟨-, goes⟩ | ⟨-, goes⟩⟩
  · cases goes
  · split at goes <;> cases goes

theorem Jumps.seq (first : Jumps L p) (second : Jumps L q) : Jumps L (seq p q) := by
  rintro e t b (⟨run, -⟩ | ⟨s, u, -, -, run⟩ | ⟨-, run⟩)
  · exact first e t b run
  · exact second none u b run
  · exact second e t b run

theorem Jumps.branch (cs : List (T × Bool)) (first : Jumps L p) (second : Jumps L q) : Jumps L (branch m cs p q) := by
  rintro (_ | e) t b run
  · simp only [JumpPrograms.branch] at run
    induction cs generalizing t with
    | nil => exact first none t b run
    | cons c cs ih =>
      rcases run with ⟨-, goes | ⟨-, goes⟩⟩ | ⟨-, held, u, -, run⟩
      · cases goes
      · cases goes
      · split at run
        · exact ih u run
        · exact second none u b run
  · rcases run with run | run
    · exact first _ t b run
    · exact second _ t b run

theorem Jumps.loop (jumps : Jumps L p) : Jumps L (loop p) := by
  intro e t b run
  generalize ended : Exit.goto b = x at run
  induction run with
  | again _ _ _ ih => exact ih ended
  | broke _ => cases ended
  | left last _ _ _ => exact jumps _ _ b (ended ▸ last)

theorem Jumps.scope (jumps : Jumps L p) : Jumps L (scope p) := by
  rintro e t b (⟨goes, -⟩ | ⟨-, run⟩)
  · cases goes
  · exact jumps e t b run

/-- The part is entered only at the blocks of a set. -/
def Entries (L : B → Prop) (p : Behaviour B T) : Prop := ∀ b t x, p (some b) t x → L b

theorem entries_leave (y : Exit B) : Entries (T := T) L (leave y) := fun _ _ _ run => nomatch run.1

theorem entries_block (there : L b) : Entries L (block m b) := by
  rintro c t x ⟨entered | ⟨entered, -⟩, -⟩
  · cases entered
  · cases entered
    exact there

theorem Entries.seq (first : Entries L p) (second : Entries L q) : Entries L (seq p q) := by
  rintro b t x (⟨run, -⟩ | ⟨s, u, -, run, -⟩ | ⟨-, run⟩)
  · exact first b t x run
  · exact first b s .fall run
  · exact second b t x run

theorem Entries.branch (cs : List (T × Bool)) (first : Entries L p) (second : Entries L q) :
    Entries L (branch m cs p q) :=
  fun b t x run => run.elim (first b t x) (second b t x)

theorem Entries.loop (entries : Entries L p) : Entries L (loop p) := by
  intro b t x run
  cases run with
  | again first _ _ => exact entries b _ _ first
  | broke last => exact entries b _ _ last
  | left last _ _ _ => exact entries b _ _ last

theorem Entries.scope (entries : Entries L p) : Entries L (scope p) := by
  rintro b t x (⟨-, run⟩ | ⟨-, run⟩)
  · exact entries b t .brk run
  · exact entries b t x run

theorem Agree.executes_of (agree : Agree L p q) (jumps : Jumps L p) {e : Option B} (run : Executes p e t x)
    (entered : ∀ b, e = some b → L b) : Executes q e t x := by
  induction run with
  | @done e t x last missing =>
    refine .done (agree e entered ▸ last) fun b goes s y inside => missing b goes s y ?_
    have labelled : L b := jumps e t b (goes ▸ last)
    rw [agree (some b) (fun c same => Option.some.inj same ▸ labelled)]
    exact inside
  | @jump e s b u x first _ ih =>
    have labelled : L b := jumps e s b first
    exact .jump (agree e entered ▸ first) (ih fun c same => Option.some.inj same ▸ labelled)

/-- A program that only jumps to the blocks of a set runs the same when only these can be
entered. -/
theorem executes_agree (agree : Agree L p q) (first : Jumps L p) (second : Jumps L q)
    (t : List (Event B T)) (x : Exit B) : Executes p none t x ↔ Executes q none t x :=
  ⟨fun run => agree.executes_of first run nofun, fun run => agree.symm.executes_of second run nofun⟩

end E5r.JumpPrograms
