import E5r.ElementGrammar

/-!
The precedence that the parser is documented with and the one it is built on give a
text the same meaning exactly where no shift stands beside `+`, `-` or `*`.
-/
namespace E5r.ElementPrecedence
open ElementModel ElementTokens ElementGrammar

/-! ### Shifts beside sums and products -/

/-- What stands before a token: whether it is an operand, which operators the operand of
    `|`, `^` or `&` around it has so far, the same for the parentheses around that, and
    whether a shift and one of `+ - *` were in one such operand. -/
structure Scan where
  operand : Bool
  shift : Bool
  arith : Bool
  outer : List (Bool × Bool)
  mixed : Bool
deriving DecidableEq

def Scan.step (s : Scan) : Token → Scan
  | .word _ => { s with operand := true }
  | .tilde | .other _ => s
  | .opening => ⟨false, false, false, (s.shift, s.arith) :: s.outer, s.mixed⟩
  | .closing =>
    match s.outer with
    | [] => s
    | (shift, arith) :: outer => ⟨true, shift, arith, outer, s.mixed || (s.shift && s.arith)⟩
  | .op o =>
    if !s.operand then s
    else
      match o with
      | .or | .xor | .and => ⟨false, false, false, s.outer, s.mixed || (s.shift && s.arith)⟩
      | .shl | .shr => { s with operand := false, shift := true }
      | .add | .sub | .mul => { s with operand := false, arith := true }

/-- In some operand of `|`, `^` or `&`, or in the whole of a text or of what stands in
    parentheses, a shift and one of `+ - *` occur side by side. -/
def mixes (ts : List Token) : Bool :=
  let s := ts.foldl Scan.step ⟨false, false, false, [], false⟩
  s.mixed || (s.shift && s.arith)

/-- The tokens of an operand of `|`, `^` or `&`: whether it has shifts, whether it has
    sums or products, and whether they are mixed inside its parentheses. -/
def Segment (a b m : Bool) (ts : List Token) : Prop :=
  ∀ s : Scan, s.operand = false → ts.foldl Scan.step s = ⟨true, s.shift || a, s.arith || b, s.outer, s.mixed || m⟩

/-- The tokens of an expression, and whether they mix. -/
def Chain (m : Bool) (ts : List Token) : Prop :=
  ∃ a b m', m = (m' || (a && b)) ∧ ∀ outer mixed,
    ts.foldl Scan.step ⟨false, false, false, outer, mixed⟩ = ⟨true, a, b, outer, mixed || m'⟩

def isShift : Op → Bool
  | .shl | .shr => true
  | _ => false

def isArith : Op → Bool
  | .add | .sub | .mul => true
  | _ => false

variable {a b m m' : Bool}

theorem Segment.unique {a' b' : Bool} {ts : List Token} (first : Segment a b m ts) (second : Segment a' b' m' ts) :
    a = a' ∧ b = b' ∧ m = m' := by
  have same := (first ⟨false, false, false, [], false⟩ rfl).symm.trans (second ⟨false, false, false, [], false⟩ rfl)
  simpa using same

theorem mixes_of_chain {ts : List Token} (chain : Chain m ts) : mixes ts = m := by
  obtain ⟨a, b, m', rfl, scans⟩ := chain
  unfold mixes
  simp [scans]

theorem Segment.word (w : List Char) : Segment false false false [.word w] := by
  intro s before
  simp [Scan.step]

theorem Segment.not {ts : List Token} (segment : Segment a b m ts) : Segment a b m (.tilde :: ts) := segment

theorem Segment.neg {ts : List Token} (segment : Segment a b m ts) : Segment a b m (.op .sub :: ts) := by
  intro s before
  rw [List.foldl_cons, show s.step (.op .sub) = s by simp [Scan.step, before]]
  exact segment s before

theorem Segment.paren {ts : List Token} (chain : Chain m ts) :
    Segment false false m (.opening :: (ts ++ [.closing])) := by
  obtain ⟨a, b, m', rfl, scans⟩ := chain
  intro s before
  rw [List.foldl_cons, List.foldl_append]
  show [Token.closing].foldl Scan.step (ts.foldl Scan.step ⟨false, false, false, (s.shift, s.arith) :: s.outer, s.mixed⟩) = _
  rw [scans]
  simp [Scan.step, Bool.or_assoc]

variable {o : Op}

/-- A shift, sum or product of two operands. -/
theorem Segment.join {a' b' : Bool} {ts us : List Token} (left : Segment a b m ts) (right : Segment a' b' m' us)
    (tight : isShift o || isArith o) :
    Segment (a || isShift o || a') (b || isArith o || b') (m || m') (ts ++ .op o :: us) := by
  intro s before
  rw [List.foldl_append, left s before, List.foldl_cons]
  cases o with
  | or | xor | and => cases tight
  | _ =>
    rw [right _ rfl]
    simp [Scan.step, isShift, isArith, Bool.or_assoc]

theorem Segment.chain {ts : List Token} (segment : Segment a b m ts) : Chain (m || (a && b)) ts := by
  refine ⟨a, b, m, rfl, ?_⟩
  intro outer mixed
  rw [segment _ rfl]
  simp

/-- `|`, `^` or `&` of two expressions. -/
theorem Chain.join {ts us : List Token} (left : Chain m ts) (right : Chain m' us)
    (loose : (isShift o || isArith o) = false) : Chain (m || m') (ts ++ .op o :: us) := by
  obtain ⟨a, b, k, rfl, first⟩ := left
  obtain ⟨a', b', k', rfl, second⟩ := right
  refine ⟨a', b', k || (a && b) || k', by simp [Bool.or_assoc], ?_⟩
  intro outer mixed
  rw [List.foldl_append, first, List.foldl_cons]
  cases o with
  | or | xor | and =>
    show us.foldl Scan.step ⟨false, false, false, outer, _⟩ = _
    rw [second]
    simp [Bool.or_assoc]
  | _ => cases loose

/-! ### Tables of precedences -/

/-- A table with the same loose levels, in which shifts stand either below sums and
    products or above them. -/
structure Layered (prec : Op → ℕ) : Prop where
  or : prec .or = 0
  xor : prec .xor = 1
  and : prec .and = 2
  sub : prec .sub = prec .add
  mul : prec .mul = prec .add + 1
  shr : prec .shr = prec .shl
  segment : prec .shl = 3 ∧ prec .add = 4 ∨ prec .shl = 5 ∧ prec .add = 3

theorem layered_documented : Layered documented := ⟨rfl, rfl, rfl, rfl, rfl, rfl, .inl ⟨rfl, rfl⟩⟩
theorem layered_built : Layered built := ⟨rfl, rfl, rfl, rfl, rfl, rfl, .inr ⟨rfl, rfl⟩⟩

section
variable {p : Parser} {P Q : Op → ℕ}

variable {o : Op}

theorem Layered.loose (table : Layered P) (loose : (isShift o || isArith o) = false) : P o < 3 := by
  cases o with
  | or => rw [table.or]; decide
  | xor => rw [table.xor]; decide
  | and => rw [table.and]; decide
  | _ => cases loose

theorem Layered.tight (table : Layered P) (tight : isShift o || isArith o) : 3 ≤ P o := by
  have := table.segment
  have := table.sub
  have := table.mul
  have := table.shr
  cases o with
  | or | xor | and => cases tight
  | _ => omega

theorem Layered.le (table : Layered P) (o : Op) : P o ≤ 5 := by
  have := table.segment
  have := table.sub
  have := table.mul
  have := table.shr
  cases o with
  | or => rw [table.or]; decide
  | xor => rw [table.xor]; decide
  | and => rw [table.and]; decide
  | _ => omega

theorem Layered.agree (tableP : Layered P) (tableQ : Layered Q) (loose : (isShift o || isArith o) = false) :
    P o = Q o := by
  cases o with
  | or => rw [tableP.or, tableQ.or]
  | xor => rw [tableP.xor, tableQ.xor]
  | and => rw [tableP.and, tableQ.and]
  | _ => cases loose

theorem loosen {n m : ℕ} {ts : List Token} {e : Expr} (derives : Derives p P m ts e) (le : n ≤ m) (level : m ≤ 6) :
    Derives p P n ts e := by
  induction le using Nat.decreasingInduction with
  | self => exact derives
  | of_succ k below ih => exact .tighter (by omega) ih

theorem combine_not_lit {l r : Expr} {k : ℕ} : combine o l r ≠ some (.lit k) := by
  intro joins
  cases o with
  | shl | shr =>
    cases r with
    | lit c =>
      unfold combine at joins
      dsimp only at joins
      split at joins
      · cases joins
      · cases joins
    | _ => cases joins
  | _ => cases joins

theorem built_shift (shifts : isShift o = true) : built o = 5 := by
  cases o with
  | shl | shr => rfl
  | _ => cases shifts

theorem literal {lvl : ℕ} {ts : List Token} {e : Expr} (derives : Derives p P lvl ts e) :
    ∀ {k : ℕ}, e = .lit k → Segment false false false ts ∧ Derives p Q 6 ts e := by
  induction derives with
  | word named => exact fun _ => ⟨.word _, .word named⟩
  | not inner => exact nofun
  | neg inner => exact nofun
  | paren inner ih =>
    intro k is
    obtain ⟨segment, same⟩ := ih is
    exact ⟨.paren segment.chain, .paren (loosen same (by decide) (by decide))⟩
  | tighter below inner ih => exact ih
  | bin left right joins =>
    rintro k rfl
    exact absurd joins combine_not_lit

/-- What a sentence of a segment is over another table, unless it mixes. -/
def Carried (p : Parser) (P Q : Op → ℕ) (lvl : ℕ) (ts : List Token) (e : Expr) : Prop :=
  ∃ a b m, Segment a b m ts ∧ (a = true → lvl ≤ P .shl) ∧ (b = true → lvl ≤ P .mul) ∧
    (m = false → (a && b) = false →
      (a = false → b = false → Derives p Q 6 ts e) ∧ (a = true → Derives p Q (Q .shl) ts e) ∧
        (b = true → Derives p Q (Q .add) ts e ∧ (P .add < lvl → Derives p Q (Q .mul) ts e)))

theorem Carried.operand {ts : List Token} {e : Expr} {m : Bool} (segment : Segment false false m ts)
    (same : m = false → Derives p Q 6 ts e) : Carried p P Q 6 ts e :=
  ⟨false, false, m, segment, nofun, nofun, fun clean _ => ⟨fun _ _ => same clean, nofun, nofun⟩⟩

theorem Carried.tighter {lvl : ℕ} {ts : List Token} {e : Expr} (carried : Carried p P Q (lvl + 1) ts e) :
    Carried p P Q lvl ts e := by
  obtain ⟨a, b, m, segment, shifts, sums, same⟩ := carried
  refine ⟨a, b, m, segment, fun has => ?_, fun has => ?_, fun clean apart => ?_⟩
  · have := shifts has
    omega
  · have := sums has
    omega
  · obtain ⟨bare, shift, arith⟩ := same clean apart
    exact ⟨bare, shift, fun has => ⟨(arith has).1, fun above => (arith has).2 (by omega)⟩⟩

theorem Carried.bare {lvl : ℕ} {ts : List Token} {e : Expr} (tableQ : Layered Q) (carried : Carried p P Q lvl ts e) :
    ∃ m, Chain m ts ∧ (m = false → Derives p Q 3 ts e) := by
  obtain ⟨a, b, m, segment, -, -, same⟩ := carried
  have := tableQ.segment
  refine ⟨m || (a && b), segment.chain, ?_⟩
  intro clean
  obtain ⟨clean, apart⟩ := Bool.or_eq_false_iff.mp clean
  obtain ⟨bare, shift, arith⟩ := same clean apart
  cases a with
  | true => exact loosen (shift rfl) (by omega) (by omega)
  | false =>
    cases b with
    | true => exact loosen (arith rfl).1 (by omega) (by omega)
    | false => exact loosen (bare rfl rfl) (by omega) (by omega)

theorem Carried.bareOperand {ts : List Token} {e : Expr} (tableP : Layered P) (carried : Carried p P Q 6 ts e) :
    ∃ m, Segment false false m ts ∧ (m = false → Derives p Q 6 ts e) := by
  obtain ⟨a, b, m, segment, shifts, sums, same⟩ := carried
  have := tableP.segment
  have := tableP.mul
  cases a with
  | true =>
    have := shifts rfl
    omega
  | false =>
    cases b with
    | true =>
      have := sums rfl
      omega
    | false => exact ⟨m, segment, fun clean => (same clean rfl).1 rfl rfl⟩

section
variable (tableP : Layered P) (tableQ : Layered Q) {ts us : List Token} {l r e : Expr}
include tableP tableQ

theorem Carried.shift {o : Op} (shifts : isShift o = true) (left : Carried p P Q (P o) ts l)
    (right : Derives p P (P o + 1) us r) (joins : combine o l r = some e) : Carried p P Q (P o) (ts ++ .op o :: us) e := by
  obtain ⟨c, -, rfl, -⟩ := combine_shift (built_shift shifts) joins
  obtain ⟨amount, lit⟩ := literal (Q := Q) right rfl
  obtain ⟨a, b, m, segment, -, sums, same⟩ := left
  have := tableP.shr
  have := tableQ.shr
  have := tableQ.segment
  have levelP : P o = P .shl := by cases o <;> first | rfl | assumption | cases shifts
  have levelQ : Q o = Q .shl := by cases o <;> first | rfl | assumption | cases shifts
  have noArith : isArith o = false := by cases o <;> first | rfl | cases shifts
  refine ⟨_, _, _, segment.join amount (by simp [shifts]), fun _ => levelP.le, ?_, ?_⟩
  · intro has
    simp only [noArith, Bool.or_false] at has
    exact sums has
  · intro clean apart
    simp only [Bool.or_false] at clean
    simp only [shifts, noArith, Bool.or_true, Bool.or_false, Bool.true_and] at apart
    subst apart
    obtain ⟨bare, shift, -⟩ := same clean (Bool.and_false a)
    refine ⟨fun none => by simp [shifts] at none, fun _ => ?_, fun has => by simp [noArith] at has⟩
    have first : Derives p Q (Q o) ts l := by
      rw [levelQ]
      cases a with
      | true => exact shift rfl
      | false => exact loosen (bare rfl rfl) (by omega) (by omega)
    rw [← levelQ]
    exact .bin first (loosen lit (by omega) (by omega)) joins

theorem Carried.sum {o : Op} (sum : o = .add ∨ o = .sub) (left : Carried p P Q (P o) ts l)
    (right : Carried p P Q (P o + 1) us r) (joins : combine o l r = some e) :
    Carried p P Q (P o) (ts ++ .op o :: us) e := by
  obtain ⟨a, b, m, segment, shifts, sums, same⟩ := left
  obtain ⟨a', b', m', segment', shifts', sums', same'⟩ := right
  have := tableQ.segment
  have := tableQ.mul
  have := tableP.mul
  have levelP : P o = P .add := by
    rcases sum with rfl | rfl
    · rfl
    · exact tableP.sub
  have levelQ : Q o = Q .add := by
    rcases sum with rfl | rfl
    · rfl
    · exact tableQ.sub
  have noShift : isShift o = false := by rcases sum with rfl | rfl <;> rfl
  have arith : isArith o = true := by rcases sum with rfl | rfl <;> rfl
  refine ⟨_, _, _, segment.join segment' (by simp [arith]), ?_, fun _ => by omega, ?_⟩
  · intro has
    rw [noShift, Bool.or_false, Bool.or_eq_true] at has
    rcases has with has | has
    · exact shifts has
    · have := shifts' has
      omega
  · intro clean apart
    simp only [noShift, arith, Bool.or_false, Bool.or_true, Bool.true_or, Bool.and_true, Bool.or_eq_false_iff] at clean apart
    obtain ⟨rfl, rfl⟩ := apart
    obtain ⟨bare, -, more⟩ := same clean.1 rfl
    obtain ⟨bare', -, more'⟩ := same' clean.2 rfl
    refine ⟨fun _ none => by simp [arith] at none, fun has => by simp [noShift] at has, fun _ => ⟨?_, fun above => by omega⟩⟩
    have first : Derives p Q (Q o) ts l := by
      rw [levelQ]
      cases b with
      | true => exact (more rfl).1
      | false => exact loosen (bare rfl rfl) (by omega) (by omega)
    have second : Derives p Q (Q o + 1) us r := by
      cases b' with
      | true => exact loosen ((more' rfl).2 (by omega)) (by omega) (by omega)
      | false => exact loosen (bare' rfl rfl) (by omega) (by omega)
    rw [← levelQ]
    exact .bin first second joins

theorem Carried.product (left : Carried p P Q (P .mul) ts l) (right : Carried p P Q (P .mul + 1) us r)
    (joins : combine .mul l r = some e) : Carried p P Q (P .mul) (ts ++ .op .mul :: us) e := by
  obtain ⟨a, b, m, segment, shifts, sums, same⟩ := left
  obtain ⟨a', b', m', segment', shifts', sums', same'⟩ := right
  have := tableQ.segment
  have := tableQ.mul
  have := tableP.mul
  refine ⟨_, _, _, segment.join segment' rfl, ?_, fun _ => le_refl _, ?_⟩
  · intro has
    rw [show isShift .mul = false from rfl, Bool.or_false, Bool.or_eq_true] at has
    rcases has with has | has
    · exact shifts has
    · have := shifts' has
      omega
  · intro clean apart
    simp only [isShift, isArith, Bool.or_false, Bool.or_true, Bool.true_or, Bool.and_true, Bool.or_eq_false_iff] at clean apart
    obtain ⟨rfl, rfl⟩ := apart
    obtain ⟨bare, -, more⟩ := same clean.1 rfl
    obtain ⟨bare', -, -⟩ := same' clean.2 rfl
    have first : Derives p Q (Q .mul) ts l := by
      cases b with
      | true => exact (more rfl).2 (by omega)
      | false => exact loosen (bare rfl rfl) (by omega) (by omega)
    have second : Derives p Q (Q .mul + 1) us r := by
      cases b' with
      | true =>
        have := sums' rfl
        omega
      | false => exact loosen (bare' rfl rfl) (by omega) (by omega)
    have whole := Derives.bin first second joins
    refine ⟨fun _ none => by simp [isArith] at none, fun has => by simp [isShift] at has, fun _ => ⟨?_, fun _ => whole⟩⟩
    exact loosen whole (by omega) (by omega)

/-- A sentence over one table that does not mix is one over the other table, with the
    same expression. -/
theorem carried {lvl : ℕ} (derives : Derives p P lvl ts e) :
    (3 ≤ lvl → Carried p P Q lvl ts e) ∧ ∃ m, Chain m ts ∧ (m = false → Derives p Q (min lvl 3) ts e) := by
  have both : ∀ {lvl ts e}, 3 ≤ lvl → Carried p P Q lvl ts e →
      (3 ≤ lvl → Carried p P Q lvl ts e) ∧ ∃ m, Chain m ts ∧ (m = false → Derives p Q (min lvl 3) ts e) := by
    intro lvl ts e segment carried
    rw [Nat.min_eq_right segment]
    exact ⟨fun _ => carried, carried.bare tableQ⟩
  induction derives with
  | word named => exact both (by decide) (.operand (.word _) fun _ => .word named)
  | not inner ih =>
    obtain ⟨m, segment, same⟩ := (ih.1 (by decide)).bareOperand tableP
    exact both (by decide) (.operand segment.not fun clean => .not (same clean))
  | neg inner ih =>
    obtain ⟨m, segment, same⟩ := (ih.1 (by decide)).bareOperand tableP
    exact both (by decide) (.operand segment.neg fun clean => .neg (same clean))
  | paren inner ih =>
    obtain ⟨m, chain, same⟩ := ih.2
    exact both (by decide) (.operand (.paren chain) fun clean => .paren (same clean))
  | @tighter n ts e below inner ih =>
    by_cases segment : 3 ≤ n
    · exact both segment (ih.1 (by omega)).tighter
    · obtain ⟨m, chain, same⟩ := ih.2
      refine ⟨fun more => absurd more segment, m, chain, fun clean => ?_⟩
      exact loosen (same clean) (by omega) (by omega)
  | @bin o ts us l r e left right joins ihLeft ihRight =>
    by_cases tight : isShift o || isArith o
    · have segment := tableP.tight tight
      apply both segment
      have first := ihLeft.1 segment
      cases o with
      | shl | shr => exact .shift tableP tableQ rfl first right joins
      | add => exact .sum tableP tableQ (.inl rfl) first (ihRight.1 (by omega)) joins
      | sub => exact .sum tableP tableQ (.inr rfl) first (ihRight.1 (by omega)) joins
      | mul => exact .product tableP tableQ first (ihRight.1 (by omega)) joins
      | or | xor | and => cases tight
    · rw [Bool.not_eq_true] at tight
      have loose := tableP.loose tight
      have agree := tableP.agree tableQ tight
      obtain ⟨m, chain, same⟩ := ihLeft.2
      obtain ⟨m', chain', same'⟩ := ihRight.2
      refine ⟨fun more => absurd more (by omega), _, chain.join chain' tight, fun clean => ?_⟩
      obtain ⟨clean, clean'⟩ := Bool.or_eq_false_iff.mp clean
      have first := same clean
      have second := same' clean'
      rw [Nat.min_eq_left (by omega), agree] at first second
      rw [Nat.min_eq_left (by omega), agree]
      exact .bin first second joins
end
end

/-! ### Where two sentences with one expression split -/

/-- The tokens of a sentence that its expression shows. -/
def weight (ts : List Token) : ℕ := ts.countP fun t => t ≠ .opening ∧ t ≠ .closing

/-- The names, literals and operators of an expression. -/
def size : Expr → ℕ
  | .not e | .neg e => size e + 1
  | .bin _ l r => size l + 1 + size r
  | .shl e _ | .shr e _ => size e + 2
  | _ => 1

/-- The operator of an expression and its operands. -/
def decode : Expr → Option (Op × Expr × Expr)
  | .bin '|' l r => some (.or, l, r)
  | .bin '^' l r => some (.xor, l, r)
  | .bin '&' l r => some (.and, l, r)
  | .bin '+' l r => some (.add, l, r)
  | .bin '-' l r => some (.sub, l, r)
  | .bin '*' l r => some (.mul, l, r)
  | .shl l k => some (.shl, l, .lit k)
  | .shr l k => some (.shr, l, .lit k)
  | _ => none

theorem decode_combine {l r e : Expr} (joins : combine o l r = some e) : decode e = some (o, l, r) := by
  cases o with
  | shl | shr =>
    cases r with
    | lit c =>
      unfold combine at joins
      dsimp only at joins
      split at joins
      · cases joins
        rfl
      · cases joins
    | _ => cases joins
  | _ =>
    cases joins
    rfl

theorem size_combine {l r e : Expr} (joins : combine o l r = some e) : size e = size l + 1 + size r := by
  cases o with
  | shl | shr =>
    cases r with
    | lit c =>
      unfold combine at joins
      dsimp only at joins
      split at joins
      · cases joins
        rfl
      · cases joins
    | _ => cases joins
  | _ =>
    cases joins
    rfl

section
variable {p : Parser} {P Q : Op → ℕ}

theorem size_operand {w : List Char} {e : Expr} (named : p.operand w = .ok e) : size e = 1 := by
  unfold Parser.operand at named
  dsimp only at named
  split at named
  · split at named
    · cases named
    · split at named
      · cases named
        rfl
      · cases named
  · split at named
    · cases named
      rfl
    · split at named
      · cases named
        rfl
      · cases named

variable {lvl : ℕ}

theorem weight_eq {ts : List Token} {e : Expr} (derives : Derives p P lvl ts e) : weight ts = size e := by
  induction derives with
  | word named => exact (size_operand named).symm
  | not inner ih => simpa [weight, size] using ih
  | neg inner ih => simpa [weight, size] using ih
  | paren inner ih => simpa [weight] using ih
  | tighter below inner ih => exact ih
  | @bin o ts us l r e left right joins ihLeft ihRight =>
    rw [size_combine joins, ← ihLeft, ← ihRight]
    simp [weight]
    omega

variable {o : Op}

theorem split_unique {ts ts' us us' : List Token} {o' : Op} (same : ts ++ .op o :: us = ts' ++ .op o' :: us')
    (weights : weight ts = weight ts') : ts = ts' ∧ o = o' ∧ us = us' := by
  rcases List.append_eq_append_iff.mp same with ⟨between, rfl, rest⟩ | ⟨between, rfl, rest⟩
  · cases between with
    | nil =>
      cases rest
      exact ⟨(List.append_nil ts).symm, rfl, rfl⟩
    | cons t between =>
      cases rest
      simp [weight] at weights
  · cases between with
    | nil =>
      cases rest
      exact ⟨List.append_nil ts', rfl, rfl⟩
    | cons t between =>
      cases rest
      simp [weight] at weights

/-- Every parenthesis that closes has been opened, and all are closed at the end. -/
def Balanced (ts : List Token) : Prop :=
  ts.count .opening = ts.count .closing ∧ ∀ n, (ts.take n).count .closing ≤ (ts.take n).count .opening

theorem Balanced.cons {t : Token} {ts : List Token} (opens : t ≠ .opening) (closes : t ≠ .closing)
    (balanced : Balanced ts) : Balanced (t :: ts) := by
  obtain ⟨whole, each⟩ := balanced
  refine ⟨?_, ?_⟩
  · rw [List.count_cons_of_ne opens, List.count_cons_of_ne closes, whole]
  · intro n
    cases n with
    | zero => exact le_refl _
    | succ n =>
      rw [List.take_succ_cons, List.count_cons_of_ne opens, List.count_cons_of_ne closes]
      exact each n

theorem Balanced.append {ts us : List Token} (left : Balanced ts) (right : Balanced us) : Balanced (ts ++ us) := by
  obtain ⟨whole, each⟩ := left
  obtain ⟨whole', each'⟩ := right
  refine ⟨by rw [List.count_append, List.count_append, whole, whole'], ?_⟩
  intro n
  rw [List.take_append, List.count_append, List.count_append]
  exact Nat.add_le_add (each n) (each' _)

theorem Balanced.paren {ts : List Token} (balanced : Balanced ts) : Balanced (.opening :: (ts ++ [.closing])) := by
  obtain ⟨whole, each⟩ := balanced
  refine ⟨?_, ?_⟩
  · simp [whole]
  · intro n
    cases n with
    | zero => exact le_refl _
    | succ n =>
      have inner := each n
      have last : (([.closing] : List Token).take (n - ts.length)).count .closing ≤ 1 :=
        (List.Sublist.count_le _ (List.take_sublist _ _)).trans (le_refl 1)
      simp only [List.take_succ_cons, List.take_append, List.count_append, List.count_cons]
      simp
      omega

theorem balanced_of_derives {ts : List Token} {e : Expr} (derives : Derives p P lvl ts e) : Balanced ts := by
  have empty : Balanced [] := ⟨rfl, fun n => by simp⟩
  induction derives with
  | word named => exact empty.cons nofun nofun
  | not inner ih => exact ih.cons nofun nofun
  | neg inner ih => exact ih.cons nofun nofun
  | paren inner ih => exact ih.paren
  | tighter below inner ih => exact ih
  | bin left right joins ihLeft ihRight => exact ihLeft.append (ihRight.cons nofun nofun)

theorem paren_no_split {ts us vs : List Token} (inner : Balanced ts) (left : Balanced us) (nonempty : us ≠ [])
    (same : .opening :: (ts ++ [.closing]) = us ++ .op o :: vs) : False := by
  cases us with
  | nil => exact nonempty rfl
  | cons t us =>
    obtain ⟨rfl, rest⟩ := List.cons.inj same
    change ts ++ [.closing] = us ++ .op o :: vs at rest
    have short : us.length ≤ ts.length := by
      have := congrArg List.length rest
      simp at this
      omega
    have front : us = ts.take us.length := by
      have := congrArg (List.take us.length) rest
      rwa [List.take_append_of_le_length short, List.take_left' rfl, eq_comm] at this
    have closed := inner.2 us.length
    rw [← front] at closed
    have whole := left.1
    have other : (Token.opening :: us).count .closing = us.count .closing := List.count_cons_of_ne (by decide)
    rw [List.count_cons_self, other] at whole
    omega

theorem derives_ne_nil {ts : List Token} {e : Expr} (derives : Derives p P lvl ts e) : ts ≠ [] := by
  induction derives with
  | tighter below inner ih => exact ih
  | bin => simp
  | _ => exact List.cons_ne_nil _ _

/-- The last rule of a sentence. -/
inductive Root (p : Parser) (P : Op → ℕ) : List Token → Expr → Prop where
  | word {w : List Char} {e : Expr} (named : p.operand w = .ok e) : Root p P [.word w] e
  | not {ts : List Token} {e : Expr} (inner : Derives p P 6 ts e) : Root p P (.tilde :: ts) (.not e)
  | neg {ts : List Token} {e : Expr} (inner : Derives p P 6 ts e) : Root p P (.op .sub :: ts) (.neg e)
  | paren {ts : List Token} {e : Expr} (inner : Derives p P 0 ts e) : Root p P (.opening :: (ts ++ [.closing])) e
  | bin {o : Op} {ts us : List Token} {l r e : Expr} (left : Derives p P (P o) ts l) (right : Derives p P (P o + 1) us r)
    (joins : combine o l r = some e) : Root p P (ts ++ .op o :: us) e

theorem root_of_derives {ts : List Token} {e : Expr} (derives : Derives p P lvl ts e) : Root p P ts e := by
  induction derives with
  | word named => exact .word named
  | not inner => exact .not inner
  | neg inner => exact .neg inner
  | paren inner => exact .paren inner
  | tighter below inner ih => exact ih
  | bin left right joins => exact .bin left right joins

theorem Root.not_inner {us : List Token} {e : Expr} (root : Root p P us (.not e)) {ts : List Token}
    (tokens : us = .tilde :: ts) : Derives p P 6 ts e := by
  cases root with
  | word named => cases tokens
  | not inner =>
    cases tokens
    exact inner
  | paren inner => cases tokens
  | bin left right joins => cases decode_combine joins

theorem Root.neg_inner {us : List Token} {e : Expr} (root : Root p P us (.neg e)) {ts : List Token}
    (tokens : us = .op .sub :: ts) : Derives p P 6 ts e := by
  cases root with
  | word named => cases tokens
  | neg inner =>
    cases tokens
    exact inner
  | paren inner => cases tokens
  | bin left right joins => cases decode_combine joins

theorem Root.paren_inner {us : List Token} {e : Expr} (root : Root p P us e) {ts : List Token} (inner : Balanced ts)
    (tokens : us = .opening :: (ts ++ [.closing])) : Derives p P 0 ts e := by
  cases root with
  | word named => cases tokens
  | not inner => cases tokens
  | neg inner => cases tokens
  | paren derives =>
    obtain rfl := List.append_cancel_right (List.cons.inj tokens).2
    exact derives
  | bin left right joins => exact (paren_no_split inner (balanced_of_derives left) (derives_ne_nil left) tokens.symm).elim

theorem Root.bin_inner {vs : List Token} {e : Expr} (root : Root p Q vs e) {ts us : List Token} {l r : Expr}
    (left : Derives p P (P o) ts l) (joins : combine o l r = some e) (tokens : vs = ts ++ .op o :: us) :
    Derives p Q (Q o) ts l ∧ Derives p Q (Q o + 1) us r := by
  have nonempty := derives_ne_nil left
  cases root with
  | word named =>
    cases ts with
    | nil => exact absurd rfl nonempty
    | cons t ts => simp at tokens
  | not inner => cases decode_combine joins
  | neg inner => cases decode_combine joins
  | paren inner => exact (paren_no_split (balanced_of_derives inner) (balanced_of_derives left) nonempty tokens).elim
  | bin left' right' joins' =>
    obtain ⟨rfl, rfl, rfl⟩ : _ = o ∧ _ = l ∧ _ = r := by
      simpa using (decode_combine joins').symm.trans (decode_combine joins)
    obtain ⟨rfl, -, rfl⟩ := split_unique tokens ((weight_eq left').trans (weight_eq left).symm)
    exact ⟨left', right'⟩
theorem no_shift {ts : List Token} {e : Expr} {a b m : Bool} (table : Layered P) (derives : Derives p P lvl ts e)
    (segment : Segment a b m ts) (inside : 3 ≤ lvl) (above : P .shl < lvl) : a = false := by
  obtain ⟨a', b', m', segment', shifts, -⟩ := (carried table table derives).1 inside
  obtain ⟨rfl, -, -⟩ := segment.unique segment'
  cases a with
  | false => rfl
  | true => exact absurd (shifts rfl) (by omega)

theorem no_arith {ts : List Token} {e : Expr} {a b m : Bool} (table : Layered P) (derives : Derives p P lvl ts e)
    (segment : Segment a b m ts) (inside : 3 ≤ lvl) (above : P .mul < lvl) : b = false := by
  obtain ⟨a', b', m', segment', -, sums, -⟩ := (carried table table derives).1 inside
  obtain ⟨-, rfl, -⟩ := segment.unique segment'
  cases b with
  | false => rfl
  | true => exact absurd (sums rfl) (by omega)

theorem apart_of_both {ts : List Token} {e : Expr} (derives : Derives p built lvl ts e) :
    ∀ {lvl'}, Derives p documented lvl' ts e →
      (3 ≤ lvl → ∃ a b, Segment a b false ts ∧ (a && b) = false) ∧ Chain false ts := by
  have both : ∀ {lvl a b ts}, Segment a b false ts → (a && b) = false →
      (3 ≤ lvl → ∃ a b, Segment a b false ts ∧ (a && b) = false) ∧ Chain false ts := by
    intro lvl a b ts segment apart
    have chain := segment.chain
    rw [apart, Bool.or_false] at chain
    exact ⟨fun _ => ⟨a, b, segment, apart⟩, chain⟩
  induction derives with
  | word named => exact fun _ => both (.word _) rfl
  | not inner ih =>
    intro lvl' other
    obtain ⟨a, b, segment, apart⟩ := (ih ((root_of_derives other).not_inner rfl)).1 (by decide)
    exact both segment.not apart
  | neg inner ih =>
    intro lvl' other
    obtain ⟨a, b, segment, apart⟩ := (ih ((root_of_derives other).neg_inner rfl)).1 (by decide)
    exact both segment.neg apart
  | paren inner ih =>
    intro lvl' other
    have chain := (ih ((root_of_derives other).paren_inner (balanced_of_derives inner) rfl)).2
    exact both (.paren chain) rfl
  | tighter below inner ih =>
    intro lvl' other
    obtain ⟨segment, chain⟩ := ih other
    exact ⟨fun inside => segment (by omega), chain⟩
  | @bin o ts us l r e left right joins ihLeft ihRight =>
    intro lvl' other
    obtain ⟨left', right'⟩ := (root_of_derives other).bin_inner left joins rfl
    obtain ⟨segments, chain⟩ := ihLeft left'
    obtain ⟨segments', chain'⟩ := ihRight right'
    by_cases tight : isShift o || isArith o
    · have inside := layered_built.tight tight
      have inside' := layered_documented.tight tight
      obtain ⟨a, b, segment, apart⟩ := segments inside
      obtain ⟨a', b', segment', apart'⟩ := segments' (by omega)
      have whole := segment.join segment' tight
      by_cases shift : isShift o = true
      · -- built on: the left operand of a shift has no sum, and its amount is a literal
        obtain ⟨c, -, rfl, -⟩ := combine_shift (built_shift shift) joins
        obtain ⟨-, rfl, -⟩ := segment'.unique (literal (Q := built) right rfl).1
        obtain rfl := no_arith layered_built left segment inside (by rw [built_shift shift]; decide)
        have noArith : isArith o = false := by cases o <;> first | rfl | cases shift
        rw [noArith] at whole
        exact both whole (Bool.and_false _)
      · -- documented: neither operand of a sum or product has a shift
        have noShift : isShift o = false := by simpa using shift
        have above : documented .shl < documented o := by
          cases o with
          | or | xor | and => cases tight
          | shl | shr => exact absurd rfl shift
          | _ => decide
        obtain rfl := no_shift layered_documented left' segment inside' above
        obtain rfl := no_shift layered_documented right' segment' (by omega) (by omega)
        rw [noShift] at whole
        exact both whole rfl
    · rw [Bool.not_eq_true] at tight
      have loose := layered_built.loose tight
      exact ⟨fun inside => absurd inside (by omega), chain.join chain' tight⟩

/-! ### Sentences without precedence -/

/-- The tokens are operands joined by operators, each shift with a literal below 32 after
    it: a sentence with all operators on one level. -/
def Sentence (p : Parser) (ts : List Token) : Prop := ∃ e, Derives p (fun _ => 0) 0 ts e

theorem combine_left {l r e : Expr} (joins : combine o l r = some e) (l' : Expr) : ∃ e', combine o l' r = some e' := by
  cases o with
  | shl | shr =>
    cases r with
    | lit c =>
      obtain ⟨c, small, ⟨⟩, -⟩ := combine_shift rfl joins
      exact ⟨_, if_pos small⟩
    | _ => cases joins
  | _ => exact ⟨_, rfl⟩

theorem combine_any (noShift : isShift o = false) (l r : Expr) : ∃ e, combine o l r = some e := by
  cases o with
  | shl | shr => cases noShift
  | _ => exact ⟨_, rfl⟩

theorem flat_join {us : List Token} {r : Expr} (right : Derives p (fun _ => 0) lvl us r) (noShift : isShift o = false)
    {ts : List Token} {l : Expr} (left : Derives p (fun _ => 0) 0 ts l) :
    ∃ e, Derives p (fun _ => 0) 0 (ts ++ .op o :: us) e := by
  have operand : ∀ {us r}, Derives p (fun _ => 0) 6 us r → ∃ e, Derives p (fun _ => 0) 0 (ts ++ .op o :: us) e := by
    intro us r derives
    obtain ⟨e, joins⟩ := combine_any noShift l r
    exact ⟨e, .bin left (loosen derives (by decide) (by decide)) joins⟩
  induction right with
  | word named => exact operand (.word named)
  | not inner => exact operand (.not inner)
  | neg inner => exact operand (.neg inner)
  | paren inner => exact operand (.paren inner)
  | tighter below inner ih => exact ih
  | @bin o' us vs l' r' e' left' right' joins' ih =>
    obtain ⟨first, derives⟩ := ih
    obtain ⟨e, joins⟩ := combine_left joins' first
    have whole := Derives.bin derives right' joins
    rw [List.append_assoc] at whole
    exact ⟨e, whole⟩

theorem sentence_of_derives {ts : List Token} {e : Expr} (table : Layered P) (derives : Derives p P lvl ts e) :
    Sentence p ts := by
  have operand : ∀ {ts e}, Derives p (fun _ => 0) 6 ts e → Sentence p ts :=
    fun derives => ⟨_, loosen derives (by decide) (by decide)⟩
  have both : Sentence p ts ∧ (lvl = 6 → ∃ e, Derives p (fun _ => 0) 6 ts e) := by
    induction derives with
    | word named => exact ⟨operand (.word named), fun _ => ⟨_, .word named⟩⟩
    | not inner ih =>
      obtain ⟨e, derives⟩ := ih.2 rfl
      exact ⟨operand (.not derives), fun _ => ⟨_, .not derives⟩⟩
    | neg inner ih =>
      obtain ⟨e, derives⟩ := ih.2 rfl
      exact ⟨operand (.neg derives), fun _ => ⟨_, .neg derives⟩⟩
    | paren inner ih =>
      obtain ⟨e, derives⟩ := ih.1
      exact ⟨operand (.paren derives), fun _ => ⟨_, .paren derives⟩⟩
    | tighter below inner ih => exact ⟨ih.1, fun last => by omega⟩
    | @bin o ts us l r e left right joins ihLeft ihRight =>
      obtain ⟨l', left'⟩ := ihLeft.1
      obtain ⟨r', right'⟩ := ihRight.1
      have level := table.le o
      refine ⟨?_, fun last => by omega⟩
      by_cases shift : isShift o = true
      · obtain ⟨c, -, rfl, -⟩ := combine_shift (built_shift shift) joins
        obtain ⟨e, joins⟩ := combine_left joins l'
        have amount : Derives p (fun _ => 0) 1 us (.lit c) := loosen (literal right rfl).2 (by decide) (by decide)
        exact ⟨e, .bin left' amount joins⟩
      · exact flat_join right' (by simpa using shift) left'
  exact both.1

theorem built_join {ts us : List Token} {l r : Expr} (left : Derives p built lvl ts l) (within : lvl ≤ built o)
    (right : Derives p built 6 us r) (joins : ∀ l, ∃ e, combine o l r = some e) :
    ∃ e, Derives p built lvl (ts ++ .op o :: us) e := by
  have level := built_le o
  induction left with
  | word | not | neg | paren => omega
  | @tighter n ts l below inner ih =>
    by_cases here : n = built o
    · obtain ⟨e, joins⟩ := joins l
      subst here
      exact ⟨e, .bin (.tighter below inner) (loosen right (by omega) (by omega)) joins⟩
    · obtain ⟨e, derives⟩ := ih (by omega)
      exact ⟨e, .tighter below derives⟩
  | @bin o' ts vs l' r' e' left' right' joins' ihLeft ihRight =>
    by_cases here : built o' = built o
    · obtain ⟨e, joins⟩ := joins e'
      have first := Derives.bin left' right' joins'
      rw [here] at first ⊢
      exact ⟨e, .bin first (loosen right (by omega) (by omega)) joins⟩
    · obtain ⟨second, derives⟩ := ihRight (by omega)
      have noShift : isShift o' = false := by
        by_contra shift
        have := built_shift (by simpa using shift)
        omega
      obtain ⟨e, joins⟩ := combine_any noShift l' second
      have whole := Derives.bin left' derives joins
      rw [List.append_assoc]
      exact ⟨e, whole⟩

theorem derives_of_sentence {ts : List Token} {e : Expr} (derives : Derives p (fun _ => 0) lvl ts e) :
    (∃ e, Derives p built 0 ts e) ∧ (0 < lvl → ∃ e, Derives p built 6 ts e) := by
  have operand : ∀ {lvl ts e}, Derives p built 6 ts e →
      (∃ e, Derives p built 0 ts e) ∧ (0 < lvl → ∃ e, Derives p built 6 ts e) :=
    fun derives => ⟨⟨_, loosen derives (by decide) (by decide)⟩, fun _ => ⟨_, derives⟩⟩
  induction derives with
  | word named => exact operand (.word named)
  | not inner ih =>
    obtain ⟨e, derives⟩ := ih.2 (by decide)
    exact operand (.not derives)
  | neg inner ih =>
    obtain ⟨e, derives⟩ := ih.2 (by decide)
    exact operand (.neg derives)
  | paren inner ih =>
    obtain ⟨e, derives⟩ := ih.1
    exact operand (.paren derives)
  | @tighter n ts e below inner ih => exact ⟨ih.1, fun _ => ih.2 (by omega)⟩
  | @bin o ts us l r e left right joins ihLeft ihRight =>
    refine ⟨?_, fun more => absurd more (by decide)⟩
    obtain ⟨l', left'⟩ := ihLeft.1
    by_cases shift : isShift o = true
    · obtain ⟨c, small, rfl, -⟩ := combine_shift (built_shift shift) joins
      exact built_join left' (Nat.zero_le _) (literal (Q := built) right rfl).2 (combine_left joins)
    · obtain ⟨r', right'⟩ := ihRight.2 (by decide)
      exact built_join left' (Nat.zero_le _) right' fun l => combine_any (by simpa using shift) l r'
end

/-! ### The documented meaning -/

/-- The parser gives a text the expression of the documented precedence, and accepts the
    sentences of that grammar and no other text. -/
def Meets (p : Parser) : Prop := ∀ e, p.parse = some (.ok e) ↔ Derives p documented 0 (tokens p.t) e

private theorem apart_of_meets {s : String} {arrays scalars : List String} (meets : Meets (Parser.new s arrays scalars))
    (sentence : Sentence (Parser.new s arrays scalars) (tokens s.toList)) : mixes (tokens s.toList) = false := by
  obtain ⟨e, flat⟩ := sentence
  obtain ⟨e, derives⟩ := (derives_of_sentence flat).1
  have other := (meets e).mp ((parse_iff s arrays scalars e).mpr derives)
  exact mixes_of_chain (apart_of_both derives other).2

/-- The parser has the documented precedence exactly on the texts that are no sentences
    and on those where no shift stands beside a sum or a product. -/
theorem documented_iff (s : String) (arrays scalars : List String) :
    Meets (Parser.new s arrays scalars) ↔
      (Sentence (Parser.new s arrays scalars) (tokens s.toList) → mixes (tokens s.toList) = false) := by
  constructor
  · exact apart_of_meets
  · intro apart e
    rw [parse_iff]
    constructor
    · intro derives
      obtain ⟨m, chain, same⟩ := (carried layered_built layered_documented derives).2
      have := (mixes_of_chain chain).symm.trans (apart (sentence_of_derives layered_built derives))
      exact same this
    · intro derives
      obtain ⟨m, chain, same⟩ := (carried layered_documented layered_built derives).2
      have := (mixes_of_chain chain).symm.trans (apart (sentence_of_derives layered_documented derives))
      exact same this

/-- `a + b << 1` is read as `a + (b << 1)`. -/
theorem documented_misses : ¬Meets (Parser.new "a + b << 1" ["a", "b"] []) := by
  have toks : tokens "a + b << 1".toList =
      [.word ['a']] ++ .op .add :: [.word ['b']] ++ .op .shl :: [.word ['1']] := by decide
  have word : ∀ {w e}, (Parser.new "a + b << 1" ["a", "b"] []).operand w = .ok e →
      ∀ n ≤ 6, Derives (Parser.new "a + b << 1" ["a", "b"] []) (fun _ => 0) n [.word w] e :=
    fun named n le => loosen (.word named) le (le_refl 6)
  intro meets
  have apart := apart_of_meets meets
  rw [toks] at apart
  have sum := Derives.bin (o := .add) (word (w := ['a']) (e := .arr "a") rfl 0 (by decide))
    (word (w := ['b']) (e := .arr "b") (by simp [Parser.operand, Parser.new, PtxLexer.isAsciiDigit]) 1 (by decide)) rfl
  have shift := Derives.bin (o := .shl) sum (word (w := ['1']) (e := .lit 1) rfl 1 (by decide)) rfl
  exact absurd (apart ⟨_, shift⟩) (by decide)

end E5r.ElementPrecedence
