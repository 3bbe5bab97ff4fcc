import E5r.JumpPrograms

/-!
# Region trees

The structured form of a function that its control flow graph is turned into, the blocks a tree
writes and jumps to, and what it runs.
-/

namespace E5r.RegionTrees

open JumpPrograms

/-- A recovered region. An `If` or a `Switch` names its head; the head's statements are written
by the block beside it. -/
inductive Region where
  | block (addr : ℕ)
  | seq (parts : List Region)
  | ifElse (head : ℕ) (invert : Bool) (arm : Region) (otherwise : Option Region)
  | whileLoop (head : ℕ) (invert : Bool) (body : Region)
  | infinite (head : ℕ) (body : Region)
  | goto (addr : ℕ)
  | brk
  | cont
  | switch (head : ℕ) (cases : List (List ℕ × Region)) (default : Option Region)
  | empty

mutual
def same (p q : Region) : Bool :=
  match p, q with
  | .block a, .block b => a == b
  | .seq ps, .seq qs => sameAll ps qs
  | .ifElse h i p o, .ifElse h' i' q o' => h == h' && i == i' && same p q && sameElse o o'
  | .whileLoop h i p, .whileLoop h' i' q => h == h' && i == i' && same p q
  | .infinite h p, .infinite h' q => h == h' && same p q
  | .goto a, .goto b => a == b
  | .brk, .brk => true
  | .cont, .cont => true
  | .switch h cs d, .switch h' cs' d' => h == h' && sameCases cs cs' && sameElse d d'
  | .empty, .empty => true
  | _, _ => false
termination_by structural p

def sameAll (ps qs : List Region) : Bool :=
  match ps, qs with
  | [], [] => true
  | p :: ps, q :: qs => same p q && sameAll ps qs
  | _, _ => false
termination_by structural ps

def sameElse (o o' : Option Region) : Bool :=
  match o, o' with
  | none, none => true
  | some p, some q => same p q
  | _, _ => false
termination_by structural o

def sameCases (cs ds : List (List ℕ × Region)) : Bool :=
  match cs, ds with
  | [], [] => true
  | (v, p) :: cs, (w, q) :: ds => v == w && same p q && sameCases cs ds
  | _, _ => false
termination_by structural cs
end

mutual
theorem same_iff : ∀ p q : Region, same p q = true ↔ p = q
  | .block _, q => by cases q <;> simp [same]
  | .seq ps, q => by cases q <;> simp [same, sameAll_iff ps]
  | .ifElse _ _ p o, q => by cases q <;> simp [same, same_iff p, sameElse_iff o, and_assoc]
  | .whileLoop _ _ p, q => by cases q <;> simp [same, same_iff p, and_assoc]
  | .infinite _ p, q => by cases q <;> simp [same, same_iff p]
  | .goto _, q => by cases q <;> simp [same]
  | .brk, q => by cases q <;> simp [same]
  | .cont, q => by cases q <;> simp [same]
  | .switch _ cs d, q => by cases q <;> simp [same, sameCases_iff cs, sameElse_iff d, and_assoc]
  | .empty, q => by cases q <;> simp [same]

theorem sameAll_iff : ∀ ps qs : List Region, sameAll ps qs = true ↔ ps = qs
  | [], qs => by cases qs <;> simp [sameAll]
  | p :: ps, qs => by cases qs <;> simp [sameAll, same_iff p, sameAll_iff ps]

theorem sameElse_iff : ∀ o o' : Option Region, sameElse o o' = true ↔ o = o'
  | none, o' => by cases o' <;> simp [sameElse]
  | some p, o' => by cases o' <;> simp [sameElse, same_iff p]

theorem sameCases_iff : ∀ cs ds : List (List ℕ × Region), sameCases cs ds = true ↔ cs = ds
  | [], ds => by cases ds <;> simp [sameCases]
  | _ :: _, [] => by simp [sameCases]
  | (_, p) :: cs, (_, q) :: ds => by simp [sameCases, same_iff p q, sameCases_iff cs ds]
end

instance : DecidableEq Region := fun p q => decidable_of_iff _ (same_iff p q)

mutual
/-- The blocks whose statements a tree writes, once for each time it writes them. -/
def written : Region → List ℕ
  | .block b => [b]
  | .seq parts => writtenAll parts
  | .ifElse _ _ arm otherwise => written arm ++ writtenElse otherwise
  | .whileLoop head _ body => head :: written body
  | .infinite head body => head :: written body
  | .switch _ cases default => writtenCases cases ++ writtenElse default
  | .goto _ | .brk | .cont | .empty => []

def writtenAll : List Region → List ℕ
  | [] => []
  | p :: ps => written p ++ writtenAll ps

def writtenElse : Option Region → List ℕ
  | none => []
  | some p => written p

def writtenCases : List (List ℕ × Region) → List ℕ
  | [] => []
  | (_, p) :: cs => written p ++ writtenCases cs
end

mutual
/-- The blocks a tree jumps to. -/
def gotos : Region → List ℕ
  | .goto b => [b]
  | .seq parts => gotosAll parts
  | .ifElse _ _ arm otherwise => gotos arm ++ gotosElse otherwise
  | .whileLoop _ _ body => gotos body
  | .infinite _ body => gotos body
  | .switch _ cases default => gotosCases cases ++ gotosElse default
  | .block _ | .brk | .cont | .empty => []

def gotosAll : List Region → List ℕ
  | [] => []
  | p :: ps => gotos p ++ gotosAll ps

def gotosElse : Option Region → List ℕ
  | none => []
  | some p => gotos p

def gotosCases : List (List ℕ × Region) → List ℕ
  | [] => []
  | (_, p) :: cs => gotos p ++ gotosCases cs
end

theorem writtenAll_append (ps qs : List Region) :
    writtenAll (ps ++ qs) = writtenAll ps ++ writtenAll qs := by
  induction ps with
  | nil => rfl
  | cons p ps ih => simp [writtenAll, ih]

theorem gotosAll_append (ps qs : List Region) :
    gotosAll (ps ++ qs) = gotosAll ps ++ gotosAll qs := by
  induction ps with
  | nil => rfl
  | cons p ps ih => simp [gotosAll, ih]

/-- What a head decides: its condition, or whether its value is one of an arm's. -/
inductive Test where
  | holds (head : ℕ)
  | among (head : ℕ) (values : List ℕ)
  deriving DecidableEq

def Test.head : Test → ℕ
  | holds head | among head _ => head

mutual
def runs (m : Machine ℕ Test) : Region → Behaviour ℕ Test
  | .block b => block m b
  | .seq parts => runsAll m parts
  | .ifElse head invert arm otherwise =>
    branch m [(.holds head, !invert)] (runs m arm) (runsElse m otherwise)
  | .whileLoop head invert body =>
    -- the head's statements compute the condition, so they run on every turn
    loop (seq (block m head) (branch m [(.holds head, !invert)] (runs m body) (leave .brk)))
  | .infinite head body => loop (seq (block m head) (runs m body))
  | .goto b => leave (.goto b)
  | .brk => leave .brk
  | .cont => leave .cont
  | .switch head cases default => scope (runsCases m head (runsElse m default) cases)
  | .empty => skip

def runsAll (m : Machine ℕ Test) : List Region → Behaviour ℕ Test
  | [] => skip
  | p :: ps => seq (runs m p) (runsAll m ps)

def runsElse (m : Machine ℕ Test) : Option Region → Behaviour ℕ Test
  | none => skip
  | some p => runs m p

def runsCases (m : Machine ℕ Test) (head : ℕ) (default : Behaviour ℕ Test) :
    List (List ℕ × Region) → Behaviour ℕ Test
  | [] => default
  | (values, p) :: cs =>
    branch m [(.among head values, true)] (runs m p) (runsCases m head default cs)
end

theorem runsAll_append (m : Machine ℕ Test) (ps qs : List Region) :
    runsAll m (ps ++ qs) = seq (runsAll m ps) (runsAll m qs) := by
  induction ps with
  | nil => simp [runsAll]
  | cons p ps ih => rw [List.cons_append, runsAll, runsAll, ih, seq_assoc]

mutual
theorem runs_agree {m : Machine ℕ Test} {L : ℕ → Prop} (all : ∀ b, m.labels b) :
    ∀ r : Region, Agree L (runs { m with labels := L } r) (runs m r)
  | .block b => agree_block all b
  | .seq parts => runsAll_agree all parts
  | .ifElse _ _ arm otherwise => (runs_agree all arm).branch _ (runsElse_agree all otherwise)
  | .whileLoop head _ body =>
    ((agree_block all head).seq ((runs_agree all body).branch _ (Agree.refl _))).loop
  | .infinite head body => ((agree_block all head).seq (runs_agree all body)).loop
  | .goto _ | .brk | .cont | .empty => Agree.refl _
  | .switch head cases default => (runsCases_agree all head (runsElse_agree all default) cases).scope

theorem runsAll_agree {m : Machine ℕ Test} {L : ℕ → Prop} (all : ∀ b, m.labels b) :
    ∀ ps, Agree L (runsAll { m with labels := L } ps) (runsAll m ps)
  | [] => Agree.refl _
  | p :: ps => (runs_agree all p).seq (runsAll_agree all ps)

theorem runsElse_agree {m : Machine ℕ Test} {L : ℕ → Prop} (all : ∀ b, m.labels b) :
    ∀ o, Agree L (runsElse { m with labels := L } o) (runsElse m o)
  | none => Agree.refl _
  | some p => runs_agree all p

theorem runsCases_agree {m : Machine ℕ Test} {L : ℕ → Prop} (all : ∀ b, m.labels b) (head : ℕ)
    {d d' : Behaviour ℕ Test} (default : Agree L d d') :
    ∀ cs, Agree L (runsCases { m with labels := L } head d cs) (runsCases m head d' cs)
  | [] => default
  | (_, p) :: cs => (runs_agree all p).branch _ (runsCases_agree all head default cs)
end

mutual
theorem runs_jumps {L : ℕ → Prop} (m : Machine ℕ Test) :
    ∀ r : Region, (∀ b ∈ gotos r, L b) → Jumps L (runs m r)
  | .block b, _ => jumps_block m b
  | .seq parts, targets => runsAll_jumps m parts targets
  | .ifElse _ _ arm otherwise, targets =>
    (runs_jumps m arm fun b in_arm => targets b (List.mem_append_left _ in_arm)).branch _
      (runsElse_jumps m otherwise fun b in_else => targets b (List.mem_append_right _ in_else))
  | .whileLoop head _ body, targets =>
    ((jumps_block m head).seq ((runs_jumps m body targets).branch _ (.leave (y := .brk) nofun))).loop
  | .infinite head body, targets => ((jumps_block m head).seq (runs_jumps m body targets)).loop
  | .goto b, targets => .leave fun c goes => by cases goes; exact targets b (List.mem_singleton_self b)
  | .brk, _ | .cont, _ | .empty, _ => .leave nofun
  | .switch head cases default, targets =>
    (runsCases_jumps m head
      (runsElse_jumps m default fun b in_else => targets b (List.mem_append_right _ in_else)) cases
      fun b in_cases => targets b (List.mem_append_left _ in_cases)).scope

theorem runsAll_jumps {L : ℕ → Prop} (m : Machine ℕ Test) :
    ∀ ps : List Region, (∀ b ∈ gotosAll ps, L b) → Jumps L (runsAll m ps)
  | [], _ => .leave nofun
  | p :: ps, targets =>
    (runs_jumps m p fun b first => targets b (List.mem_append_left _ first)).seq
      (runsAll_jumps m ps fun b later => targets b (List.mem_append_right _ later))

theorem runsElse_jumps {L : ℕ → Prop} (m : Machine ℕ Test) :
    ∀ o : Option Region, (∀ b ∈ gotosElse o, L b) → Jumps L (runsElse m o)
  | none, _ => .leave nofun
  | some p, targets => runs_jumps m p targets

theorem runsCases_jumps {L : ℕ → Prop} (m : Machine ℕ Test) (head : ℕ) {d : Behaviour ℕ Test}
    (default : Jumps L d) :
    ∀ cs : List (List ℕ × Region), (∀ b ∈ gotosCases cs, L b) → Jumps L (runsCases m head d cs)
  | [], _ => default
  | (_, p) :: cs, targets =>
    (runs_jumps m p fun b first => targets b (List.mem_append_left _ first)).branch _
      (runsCases_jumps m head default cs fun b later => targets b (List.mem_append_right _ later))
end

mutual
/-- A tree is only entered at the blocks it writes. -/
theorem runs_entries {L : ℕ → Prop} (m : Machine ℕ Test) :
    ∀ r : Region, (∀ b ∈ written r, L b) → Entries L (runs m r)
  | .block b, inside => entries_block (inside b (List.mem_singleton_self b))
  | .seq parts, inside => runsAll_entries m parts inside
  | .ifElse _ _ arm otherwise, inside =>
    (runs_entries m arm fun b in_arm => inside b (List.mem_append_left _ in_arm)).branch _
      (runsElse_entries m otherwise fun b in_else => inside b (List.mem_append_right _ in_else))
  | .whileLoop head _ body, inside =>
    ((entries_block (inside head List.mem_cons_self)).seq
      ((runs_entries m body fun b there => inside b (List.mem_cons_of_mem _ there)).branch _
        (entries_leave .brk))).loop
  | .infinite head body, inside =>
    ((entries_block (inside head List.mem_cons_self)).seq
      (runs_entries m body fun b there => inside b (List.mem_cons_of_mem _ there))).loop
  | .goto _, _ | .brk, _ | .cont, _ | .empty, _ => entries_leave _
  | .switch head cases default, inside =>
    (runsCases_entries m head
      (runsElse_entries m default fun b in_else => inside b (List.mem_append_right _ in_else)) cases
      fun b in_cases => inside b (List.mem_append_left _ in_cases)).scope

theorem runsAll_entries {L : ℕ → Prop} (m : Machine ℕ Test) :
    ∀ ps : List Region, (∀ b ∈ writtenAll ps, L b) → Entries L (runsAll m ps)
  | [], _ => entries_leave _
  | p :: ps, inside =>
    (runs_entries m p fun b first => inside b (List.mem_append_left _ first)).seq
      (runsAll_entries m ps fun b later => inside b (List.mem_append_right _ later))

theorem runsElse_entries {L : ℕ → Prop} (m : Machine ℕ Test) :
    ∀ o : Option Region, (∀ b ∈ writtenElse o, L b) → Entries L (runsElse m o)
  | none, _ => entries_leave _
  | some p, inside => runs_entries m p inside

theorem runsCases_entries {L : ℕ → Prop} (m : Machine ℕ Test) (head : ℕ) {d : Behaviour ℕ Test}
    (default : Entries L d) :
    ∀ cs : List (List ℕ × Region), (∀ b ∈ writtenCases cs, L b) → Entries L (runsCases m head d cs)
  | [], _ => default
  | (_, p) :: cs, inside =>
    (runs_entries m p fun b first => inside b (List.mem_append_left _ first)).branch _
      (runsCases_entries m head default cs fun b later => inside b (List.mem_append_right _ later))
end

theorem executes_labels {m : Machine ℕ Test} (all : ∀ b, m.labels b) {L : ℕ → Prop} (r : Region)
    (targets : ∀ b ∈ gotos r, L b) (t : List (Event ℕ Test)) (x : Exit ℕ) :
    Executes (runs { m with labels := L } r) none t x ↔ Executes (runs m r) none t x :=
  executes_agree (runs_agree all r) (runs_jumps _ r targets) (runs_jumps m r targets) t x

end E5r.RegionTrees
