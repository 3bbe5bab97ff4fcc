import E5r.ElementTokens
import E5r.Fallible
import Mathlib.Tactic.IntervalCases

/-!
The grammar of element texts over a table of precedences, and the table that the
parser is built on: it accepts the sentences of that grammar and gives their
expressions.
-/
namespace E5r.ElementGrammar
open ElementModel ElementTokens Fallible

/-- The expression of an operator and its operands. A shift takes a literal below
    32. -/
def combine (o : Op) (l r : Expr) : Option Expr :=
  match o, r with
  | .or, r => some (.bin '|' l r)
  | .xor, r => some (.bin '^' l r)
  | .and, r => some (.bin '&' l r)
  | .add, r => some (.bin '+' l r)
  | .sub, r => some (.bin '-' l r)
  | .mul, r => some (.bin '*' l r)
  | .shl, .lit k => if k < 32 then some (.shl l k) else none
  | .shr, .lit k => if k < 32 then some (.shr l k) else none
  | .shl, _ => none
  | .shr, _ => none

/-- Sentences by level, the loosest level first. An operator joins a left operand of
    its own level with a right operand of the next one, so that it associates to the
    left. Level 6 holds the operands of all operators. -/
inductive Derives (p : Parser) (prec : Op → ℕ) : ℕ → List Token → Expr → Prop where
  | word {w : List Char} {e : Expr} (named : p.operand w = .ok e) : Derives p prec 6 [.word w] e
  | not {ts : List Token} {e : Expr} (inner : Derives p prec 6 ts e) : Derives p prec 6 (.tilde :: ts) (.not e)
  | neg {ts : List Token} {e : Expr} (inner : Derives p prec 6 ts e) : Derives p prec 6 (.op .sub :: ts) (.neg e)
  | paren {ts : List Token} {e : Expr} (inner : Derives p prec 0 ts e) :
    Derives p prec 6 (.opening :: (ts ++ [.closing])) e
  | tighter {n : ℕ} {ts : List Token} {e : Expr} (below : n < 6) (inner : Derives p prec (n + 1) ts e) :
    Derives p prec n ts e
  | bin {o : Op} {ts us : List Token} {l r e : Expr} (left : Derives p prec (prec o) ts l)
    (right : Derives p prec (prec o + 1) us r) (joins : combine o l r = some e) :
    Derives p prec (prec o) (ts ++ .op o :: us) e

/-- The precedence that the parser is documented with: `| ^ & (<< >>) (+ -) *`, loosest
    first. -/
def documented : Op → ℕ
  | .or => 0
  | .xor => 1
  | .and => 2
  | .shl => 3
  | .shr => 3
  | .add => 4
  | .sub => 4
  | .mul => 5

/-- The precedence of the levels that the parser descends. -/
def built : Op → ℕ
  | .or => 0
  | .xor => 1
  | .and => 2
  | .add => 3
  | .sub => 3
  | .mul => 4
  | .shl => 5
  | .shr => 5

/-- The operators of a level of `Parser.bin`. -/
def levelOps (lvl : ℕ) : List Op := [[.or], [.xor], [.and], [.add, .sub], [.mul]].getD lvl []

theorem ops_eq {lvl : ℕ} (below : lvl < 5) : Parser.OPS.getD lvl [] = (levelOps lvl).map Op.text := by
  interval_cases lvl <;> rfl

theorem mem_levelOps {lvl : ℕ} (below : lvl < 5) (o : Op) : o ∈ levelOps lvl ↔ built o = lvl := by
  interval_cases lvl <;> cases o <;> decide

theorem mem_shifts (o : Op) : o ∈ [Op.shl, Op.shr] ↔ built o = 5 := by
  cases o <;> decide

theorem built_le (o : Op) : built o ≤ 5 := by
  cases o <;> decide

theorem combine_sign {o : Op} (loose : built o < 5) (l r : Expr) :
    combine o l r = some (.bin (o.text.toList.headD ' ') l r) := by
  cases o with
  | shl | shr => exact absurd loose (by decide)
  | _ => rfl

theorem combine_shift {o : Op} {l r e : Expr} (shifts : built o = 5) (joins : combine o l r = some e) :
    ∃ c < 32, r = .lit c ∧ e = if o.text = "<<" then .shl l c else .shr l c := by
  cases o with
  | shl | shr =>
    cases r with
    | lit c =>
      by_cases small : c < 32
      · obtain rfl : _ = e := Option.some.inj ((if_pos small).symm.trans joins)
        exact ⟨c, small, rfl, rfl⟩
      · cases (if_neg small).symm.trans joins
    | _ => cases joins
  | _ => exact absurd shifts (by decide)

section
variable {p : Parser}

/-- A reading from a position to a later one takes a sentence of a level. -/
def Reads (p : Parser) (lvl i : ℕ) (e : Expr) (j : ℕ) : Prop :=
  i ≤ j ∧ ∃ ts, toks p i = ts ++ toks p j ∧ Derives p built lvl ts e

/-- A reading goes on with the operators of its level. -/
def Continues (p : Parser) (lvl : ℕ) (l : Expr) (i : ℕ) (e : Expr) (j : ℕ) : Prop :=
  i ≤ j ∧ ∃ ts, toks p i = ts ++ toks p j ∧ ∀ us, Derives p built lvl us l → Derives p built lvl (us ++ ts) e

variable {lvl i j : ℕ} {l e : Expr}

theorem Reads.continues {k : ℕ} (reads : Reads p lvl i l j) (more : Continues p lvl l j e k) : Reads p lvl i e k := by
  obtain ⟨first, ts, here, derives⟩ := reads
  obtain ⟨second, us, there, extends_⟩ := more
  exact ⟨first.trans second, ts ++ us, by rw [here, there, List.append_assoc], extends_ ts derives⟩

theorem Reads.tighter {lvl i j : ℕ} {e : Expr} (below : lvl < 6) (reads : Reads p (lvl + 1) i e j) : Reads p lvl i e j := by
  obtain ⟨later, ts, here, derives⟩ := reads
  exact ⟨later, ts, here, .tighter below derives⟩

theorem Reads.from {i' : ℕ} (same : toks p i = toks p i') (before : i' ≤ i) (reads : Reads p lvl i e j) :
    Reads p lvl i' e j := by
  obtain ⟨later, ts, here, derives⟩ := reads
  exact ⟨before.trans later, ts, by rw [← same, here], derives⟩

/-- No more operators of the level follow. -/
theorem Continues.stop (same : toks p j = toks p i) (later : i ≤ j) : Continues p lvl l i l j :=
  ⟨later, [], by rw [same]; rfl, fun us derives => by rwa [List.append_nil]⟩

/-- An operator, its right operand and what follows. -/
theorem Continues.step {i j k m : ℕ} {o : Op} {l r e e' : Expr} (starts : toks p i = .op o :: toks p j) (later : i ≤ j)
    (right : Reads p (built o + 1) j r k) (joins : combine o l r = some e) (more : Continues p (built o) e k e' m) :
    Continues p (built o) l i e' m := by
  obtain ⟨second, ts, here, derives⟩ := right
  obtain ⟨third, us, there, extends_⟩ := more
  refine ⟨by omega, .op o :: ts ++ us, by rw [starts, here, there]; simp, ?_⟩
  intro vs left
  rw [← List.append_assoc]
  exact extends_ _ (.bin left derives joins)

/-! ### Every result is a reading -/

/-- What a bound on the recursion gives to a parser's functions. -/
structure Sound (p : Parser) (fuel : ℕ) : Prop where
  bin : ∀ {lvl i j e}, lvl ≤ 5 → p.bin fuel lvl i = some (.ok (e, j)) → Reads p lvl i e j
  binLoop : ∀ {lvl l i j e}, lvl < 5 → p.binLoop fuel lvl l i = some (.ok (e, j)) → Continues p lvl l i e j
  shift : ∀ {i j e}, p.shift fuel i = some (.ok (e, j)) → Reads p 5 i e j
  shiftLoop : ∀ {l i j e}, p.shiftLoop fuel l i = some (.ok (e, j)) → Continues p 5 l i e j
  unary : ∀ {i j e}, p.unary fuel i = some (.ok (e, j)) → Reads p 6 i e j

variable {fuel : ℕ} (sound : Sound p fuel)
include sound

theorem bin_sound (level : lvl ≤ 5) (ran : p.bin (fuel + 1) lvl i = some (.ok (e, j))) : Reads p lvl i e j := by
  rw [Parser.bin] at ran
  by_cases last : lvl = 5
  · rw [if_pos last] at ran
    rw [last]
    exact sound.shift ran
  · rw [if_neg last, bind_some_ok_iff] at ran
    obtain ⟨⟨l, k⟩, left, loop⟩ := ran
    exact ((sound.bin (by omega) left).tighter (by omega)).continues (sound.binLoop (by omega) loop)

theorem binLoop_sound (level : lvl < 5) (ran : p.binLoop (fuel + 1) lvl l i = some (.ok (e, j))) :
    Continues p lvl l i e j := by
  rw [Parser.binLoop, ops_eq level] at ran
  rcases eatOp_cases p (levelOps lvl) i with ⟨o, member, k, eats, starts, further, -⟩ | ⟨k, none, same, later, -⟩
  · obtain rfl := (mem_levelOps level o).mp member
    rw [eats] at ran
    dsimp only at ran
    rw [bind_some_ok_iff] at ran
    obtain ⟨⟨r, m⟩, right, loop⟩ := ran
    exact .step starts further.le (sound.bin (by omega) right) (combine_sign level l r) (sound.binLoop level loop)
  · rw [none] at ran
    cases ran
    exact .stop same later

theorem shift_sound (ran : p.shift (fuel + 1) i = some (.ok (e, j))) : Reads p 5 i e j := by
  rw [Parser.shift, bind_some_ok_iff] at ran
  obtain ⟨⟨l, k⟩, left, loop⟩ := ran
  exact ((sound.unary left).tighter (by omega)).continues (sound.shiftLoop loop)

theorem shiftLoop_sound (ran : p.shiftLoop (fuel + 1) l i = some (.ok (e, j))) : Continues p 5 l i e j := by
  rw [Parser.shiftLoop] at ran
  rcases eatOp_cases p [.shl, .shr] i with ⟨o, member, k, eats, starts, further, -⟩ | ⟨k, none, same, later, -⟩
  · rw [show [Op.shl, Op.shr].map Op.text = ["<<", ">>"] from rfl] at eats
    rw [eats] at ran
    dsimp only at ran
    rw [bind_some_ok_iff] at ran
    obtain ⟨⟨r, m⟩, amount, loop⟩ := ran
    have right : Reads p 6 k r m := (sound.unary amount).from (toks_ws p k) (le_ws p k)
    cases r with
    | lit c =>
      dsimp only at loop
      by_cases small : c < 32
      · rw [if_pos small] at loop
        rcases List.mem_pair.mp member with rfl | rfl
        · exact .step (o := .shl) starts further.le right (if_pos small) (sound.shiftLoop loop)
        · exact .step (o := .shr) starts further.le right (if_pos small) (sound.shiftLoop loop)
      · rw [if_neg small] at loop
        cases loop
    | _ => cases loop
  · rw [show [Op.shl, Op.shr].map Op.text = ["<<", ">>"] from rfl] at none
    rw [none] at ran
    cases ran
    exact .stop same later

theorem unary_sound (ran : p.unary (fuel + 1) i = some (.ok (e, j))) : Reads p 6 i e j := by
  rw [Parser.unary] at ran
  rcases eat_cases p .tilde i with ⟨k, eats, starts, further, -⟩ | ⟨i₁, eats, same₁, later₁, -⟩
  · rw [eats] at ran
    dsimp only at ran
    rw [bind_some_ok_iff] at ran
    obtain ⟨⟨inner, m⟩, operand, done⟩ := ran
    cases done
    obtain ⟨second, ts, here, derives⟩ := sound.unary operand
    exact ⟨by omega, .tilde :: ts, by rw [starts, here]; rfl, .not derives⟩
  rw [eats] at ran
  dsimp only at ran
  rcases eat_cases p (.op .sub) i₁ with ⟨k, eats, starts, further, -⟩ | ⟨i₂, eats, same₂, later₂, -⟩
  · rw [show Op.sub.text = "-" from rfl] at eats
    rw [eats] at ran
    dsimp only at ran
    rw [bind_some_ok_iff] at ran
    obtain ⟨⟨inner, m⟩, operand, done⟩ := ran
    cases done
    obtain ⟨second, ts, here, derives⟩ := sound.unary operand
    exact ⟨by omega, .op .sub :: ts, by rw [← same₁, starts, here]; rfl, .neg derives⟩
  rw [show Op.sub.text = "-" from rfl] at eats
  rw [eats] at ran
  dsimp only at ran
  rcases eat_cases p .opening i₂ with ⟨k, eats, starts, further, -⟩ | ⟨i₃, eats, same₃, later₃, -⟩
  · rw [eats] at ran
    dsimp only at ran
    rw [bind_some_ok_iff] at ran
    obtain ⟨⟨inner, m⟩, inside, done⟩ := ran
    obtain ⟨second, ts, here, derives⟩ := sound.bin (by omega) inside
    dsimp only at done
    rcases eat_cases p .closing m with ⟨n, eats, ends, third, -⟩ | ⟨n, eats, -⟩
    · rw [eats] at done
      cases done
      refine ⟨by omega, .opening :: (ts ++ [.closing]), ?_, .paren derives⟩
      rw [← same₁, ← same₂, starts, here, ends]
      simp
    · rw [eats] at done
      cases done
  rw [eats] at ran
  dsimp only at ran
  rcases word_cases p i₃ with ⟨empty, -⟩ | ⟨w, here, nonempty, starts, later, -⟩
  · rw [empty, if_pos rfl] at ran
    cases ran
  · rw [here, if_neg nonempty] at ran
    cases named : p.operand w with
    | error e =>
      rw [named] at ran
      cases ran
    | ok e' =>
      rw [named] at ran
      cases ran
      refine ⟨by omega, [.word w], ?_, .word named⟩
      rw [← same₁, ← same₂, ← same₃, starts]
      rfl

end

theorem sound_all (p : Parser) (fuel : ℕ) : Sound p fuel := by
  induction fuel with
  | zero =>
    constructor
    case bin =>
      intro lvl i j e level ran
      rw [Parser.bin] at ran
      cases ran
    case binLoop =>
      intro lvl l i j e level ran
      rw [Parser.binLoop] at ran
      cases ran
    case shift =>
      intro i j e ran
      rw [Parser.shift] at ran
      cases ran
    case shiftLoop =>
      intro l i j e ran
      rw [Parser.shiftLoop] at ran
      cases ran
    case unary =>
      intro i j e ran
      rw [Parser.unary] at ran
      cases ran
  | succ fuel ih => exact ⟨bin_sound ih, binLoop_sound ih, shift_sound ih, shiftLoop_sound ih, unary_sound ih⟩

/-! ### Every sentence is read -/

section
variable {p : Parser}

/-- The bound that a reading at a position and a level needs. -/
def cost (p : Parser) (lvl i : ℕ) : ℕ := 16 * (p.t.length - i) + (16 - 2 * lvl)

def parseAt (p : Parser) (fuel lvl i : ℕ) : Parse (Expr × ℕ) := if lvl = 6 then p.unary fuel i else p.bin fuel lvl i

/-- The parser's loop over the operators of a level. -/
def loopAt (p : Parser) (fuel lvl : ℕ) (l : Expr) (i : ℕ) : Parse (Expr × ℕ) :=
  if lvl = 6 then pure (l, i) else if lvl = 5 then p.shiftLoop fuel l i else p.binLoop fuel lvl l i

def Above (lvl : ℕ) (rest : List Token) : Prop := ∀ o ts, rest = .op o :: ts → built o ≤ lvl

/-- No operator of a level comes next. -/
def Ends (lvl : ℕ) (rest : List Token) : Prop := ∀ o ts, rest = .op o :: ts → built o ≠ lvl

variable {lvl i : ℕ}

/-- The operators of a level, where there are none. -/
theorem loopAt_ends (level : lvl ≤ 6) (l : Expr) (ends : Ends lvl (toks p i)) :
    ∃ j, toks p j = toks p i ∧ i ≤ j ∧ ∀ fuel, 0 < fuel → loopAt p fuel lvl l i = some (.ok (l, j)) := by
  unfold loopAt
  by_cases tightest : lvl = 6
  · refine ⟨i, rfl, le_refl i, ?_⟩
    intro fuel positive
    rw [if_pos tightest]
    rfl
  simp only [if_neg tightest]
  by_cases shifts : lvl = 5
  · simp only [if_pos shifts]
    rcases eatOp_cases p [.shl, .shr] i with ⟨o, member, k, -, starts, -⟩ | ⟨k, none, same, later, -⟩
    · exact absurd (shifts ▸ (mem_shifts o).mp member) (ends o _ starts)
    · refine ⟨k, same, later, ?_⟩
      intro fuel positive
      obtain ⟨fuel, rfl⟩ : ∃ m, fuel = m + 1 := ⟨fuel - 1, by omega⟩
      rw [show [Op.shl, Op.shr].map Op.text = ["<<", ">>"] from rfl] at none
      rw [Parser.shiftLoop, none]
      rfl
  · simp only [if_neg shifts]
    rcases eatOp_cases p (levelOps lvl) i with ⟨o, member, k, -, starts, -⟩ | ⟨k, none, same, later, -⟩
    · exact absurd ((mem_levelOps (by omega) o).mp member) (ends o _ starts)
    · refine ⟨k, same, later, ?_⟩
      intro fuel positive
      obtain ⟨fuel, rfl⟩ : ∃ m, fuel = m + 1 := ⟨fuel - 1, by omega⟩
      rw [Parser.binLoop, ops_eq (by omega), none]
      rfl

/-- A sentence of a level is read, and the operators of the level after it are next. -/
def Found (p : Parser) (lvl : ℕ) (ts : List Token) (e : Expr) : Prop :=
  ∀ i rest, toks p i = ts ++ rest → Above lvl rest →
    ∃ j, toks p j = rest ∧ i ≤ j ∧
      ∀ fuel, cost p lvl i ≤ fuel → ∃ left, 16 * (p.t.length - j) < left ∧ parseAt p fuel lvl i = loopAt p left lvl e j

variable {ts : List Token} {e : Expr}

theorem Found.ends (found : Found p lvl ts e) (level : lvl ≤ 6) {rest : List Token} (here : toks p i = ts ++ rest)
    (above : Above lvl rest) (ends : Ends lvl rest) :
    ∃ j, toks p j = rest ∧ i ≤ j ∧ ∀ fuel, cost p lvl i ≤ fuel → parseAt p fuel lvl i = some (.ok (e, j)) := by
  obtain ⟨j, after, further, runs⟩ := found i rest here above
  obtain ⟨k, same, later, stops⟩ := loopAt_ends level e (after.symm ▸ ends)
  refine ⟨k, same.trans after, by omega, ?_⟩
  intro fuel enough
  obtain ⟨left, positive, goes⟩ := runs fuel enough
  exact goes.trans (stops left (Nat.zero_lt_of_lt positive))

/-- The levels below the operands go through the next tighter one. -/
theorem parseAt_succ {fuel : ℕ} (below : lvl < 6) (enough : cost p lvl i ≤ fuel) :
    ∃ inner, cost p (lvl + 1) i ≤ inner ∧ 16 * (p.t.length - i) < inner ∧
      parseAt p fuel lvl i = parseAt p inner (lvl + 1) i >>= fun r => loopAt p inner lvl r.1 r.2 := by
  unfold cost at enough ⊢
  unfold parseAt loopAt
  rw [if_neg (by omega)]
  simp only [if_neg (show lvl ≠ 6 by omega)]
  by_cases last : lvl = 5
  · subst last
    obtain ⟨fuel, rfl⟩ : ∃ m, fuel = m + 2 := ⟨fuel - 2, by omega⟩
    refine ⟨fuel, by omega, by omega, ?_⟩
    rw [if_pos rfl, Parser.bin, if_pos rfl, Parser.shift]
    rfl
  · obtain ⟨fuel, rfl⟩ : ∃ m, fuel = m + 1 := ⟨fuel - 1, by omega⟩
    refine ⟨fuel, by omega, by omega, ?_⟩
    rw [if_neg (by omega), Parser.bin, if_neg last]
    simp only [if_neg last]
theorem found_tighter (below : lvl < 6) (found : Found p (lvl + 1) ts e) : Found p lvl ts e := by
  intro i rest here above
  have aboveNext : Above (lvl + 1) rest := fun o us next => (above o us next).trans (Nat.le_succ lvl)
  have ends : Ends (lvl + 1) rest := fun o us next => by
    have := above o us next
    omega
  obtain ⟨j, after, later, runs⟩ := found.ends (by omega) here aboveNext ends
  refine ⟨j, after, later, ?_⟩
  intro fuel enough
  obtain ⟨inner, affords, positive, parts⟩ := parseAt_succ below enough
  refine ⟨inner, by omega, ?_⟩
  rw [parts, bind_ok _ (runs inner affords)]

theorem loopAt_step {o : Op} {us rest : List Token} {l r : Expr} (found : Found p (built o + 1) us r)
    (joins : combine o l r = some e) (here : toks p i = .op o :: us ++ rest) (above : Above (built o) rest) :
    ∃ j, toks p j = rest ∧ i ≤ j ∧ ∀ fuel, 16 * (p.t.length - i) < fuel →
      ∃ left, 16 * (p.t.length - j) < left ∧ loopAt p fuel (built o) l i = loopAt p left (built o) e j := by
  have aboveNext : Above (built o + 1) rest := fun o' us next => (above o' us next).trans (Nat.le_succ _)
  have ends : Ends (built o + 1) rest := fun o' us next => by
    have := above o' us next
    omega
  have level := built_le o
  simp only [loopAt, if_neg (show built o ≠ 6 by omega)]
  by_cases shifts : built o = 5
  · simp only [if_pos shifts]
    have eats := eatOp_cases p [.shl, .shr] i
    rw [show [Op.shl, Op.shr].map Op.text = ["<<", ">>"] from rfl] at eats
    rcases eats with ⟨o', member, k, eats, starts, further, inside⟩ | ⟨-, -, -, -, none⟩
    · rw [here] at starts
      obtain ⟨⟨⟩, later⟩ := List.cons.inj starts
      rw [shifts] at found aboveNext ends
      obtain ⟨j, after, beyond, amount⟩ := found.ends (le_refl 6) ((toks_ws p k).trans later.symm) aboveNext ends
      obtain ⟨c, small, rfl, rfl⟩ := combine_shift shifts joins
      have skipped := le_ws p k
      refine ⟨j, after, by omega, ?_⟩
      intro fuel enough
      obtain ⟨fuel, rfl⟩ : ∃ m, fuel = m + 1 := ⟨fuel - 1, by omega⟩
      have affords : cost p 6 (p.ws k) ≤ fuel := by
        unfold cost
        omega
      refine ⟨fuel, by omega, ?_⟩
      rw [Parser.shiftLoop, eats]
      exact (bind_ok _ (amount fuel affords)).trans (if_pos small)
    · exact absurd here (none o ((mem_shifts o).mpr shifts) _)
  · simp only [if_neg shifts]
    have eats := eatOp_cases p (levelOps (built o)) i
    rw [← ops_eq (by omega)] at eats
    rcases eats with ⟨o', member, k, eats, starts, further, inside⟩ | ⟨-, -, -, -, none⟩
    · rw [here] at starts
      obtain ⟨⟨⟩, later⟩ := List.cons.inj starts
      obtain ⟨j, after, beyond, operand⟩ := found.ends (by omega) later.symm aboveNext ends
      obtain rfl : e = _ := Option.some.inj (joins.symm.trans (combine_sign (by omega) l r))
      refine ⟨j, after, by omega, ?_⟩
      intro fuel enough
      obtain ⟨fuel, rfl⟩ : ∃ m, fuel = m + 1 := ⟨fuel - 1, by omega⟩
      have affords : cost p (built o + 1) k ≤ fuel := by
        unfold cost
        omega
      refine ⟨fuel, by omega, ?_⟩
      have right : p.bin fuel (built o + 1) k = some (.ok (r, j)) := by
        rw [← operand fuel affords]
        unfold parseAt
        rw [if_neg (by omega)]
      rw [Parser.binLoop, eats]
      exact bind_ok _ right
    · exact absurd here (none o ((mem_levelOps (by omega) o).mpr rfl) _)

theorem found_bin {o : Op} {us : List Token} {l r : Expr} (left : Found p (built o) ts l)
    (right : Found p (built o + 1) us r) (joins : combine o l r = some e) :
    Found p (built o) (ts ++ .op o :: us) e := by
  intro i rest here above
  have before : toks p i = ts ++ (.op o :: us ++ rest) := by rw [here, List.append_assoc]
  obtain ⟨j, next, later, runs⟩ := left i _ before (fun o' vs same => by cases same; exact le_refl _)
  obtain ⟨k, after, last, loops⟩ := loopAt_step right joins next above
  refine ⟨k, after, later.trans last, ?_⟩
  intro fuel enough
  obtain ⟨inner, affords, goes⟩ := runs fuel enough
  obtain ⟨rest', remains, steps⟩ := loops inner affords
  exact ⟨rest', remains, goes.trans steps⟩
theorem cost_pos {fuel : ℕ} (enough : cost p 6 i ≤ fuel) : ∃ m, fuel = m + 1 ∧ 16 * (p.t.length - i) + 3 ≤ m := by
  unfold cost at enough
  exact ⟨fuel - 1, by omega, by omega⟩

theorem Found.operand
    (reads : ∀ i rest, toks p i = ts ++ rest → ∃ j, toks p j = rest ∧ i ≤ j ∧
      ∀ fuel, 16 * (p.t.length - i) + 3 ≤ fuel → p.unary (fuel + 1) i = some (.ok (e, j))) : Found p 6 ts e := by
  intro i rest here above
  obtain ⟨j, after, later, runs⟩ := reads i rest here
  refine ⟨j, after, later, ?_⟩
  intro fuel enough
  obtain ⟨fuel, rfl, affords⟩ := cost_pos enough
  exact ⟨16 * (p.t.length - j) + 1, by omega, runs fuel affords⟩

theorem aboveOperand (rest : List Token) : Above 6 rest := fun o _ _ => (built_le o).trans (by decide)

theorem endsOperand (rest : List Token) : Ends 6 rest := fun o _ _ => by
  have := built_le o
  omega

theorem cost_after {k fuel : ℕ} (further : i < k) (inside : k ≤ p.t.length) (lvl : ℕ)
    (affords : 16 * (p.t.length - i) + 3 ≤ fuel) : cost p lvl k ≤ fuel := by
  unfold cost
  omega

theorem found_not (found : Found p 6 ts e) : Found p 6 (.tilde :: ts) (.not e) := by
  apply Found.operand
  intro i rest here
  obtain ⟨k, eats, after, further, inside⟩ := eat_mark p .tilde here
  obtain ⟨j, beyond, later, runs⟩ := found.ends (le_refl 6) after (aboveOperand rest) (endsOperand rest)
  refine ⟨j, beyond, by omega, ?_⟩
  intro fuel affords
  rw [Parser.unary, eats]
  exact bind_ok _ (runs fuel (cost_after further inside 6 affords))

theorem found_neg (found : Found p 6 ts e) : Found p 6 (.op .sub :: ts) (.neg e) := by
  apply Found.operand
  intro i rest here
  have first := eat_other p .tilde (i := i) (fun us same => by cases here.symm.trans same)
  obtain ⟨k, eats, after, further, inside⟩ := eat_mark p (.op .sub) (i := p.ws i) ((toks_ws p i).trans here)
  obtain ⟨j, beyond, later, runs⟩ := found.ends (le_refl 6) after (aboveOperand rest) (endsOperand rest)
  have skipped := le_ws p i
  refine ⟨j, beyond, by omega, ?_⟩
  intro fuel affords
  rw [Parser.unary, first]
  dsimp only
  rw [show Op.sub.text = "-" from rfl] at eats
  rw [eats]
  exact bind_ok _ (runs fuel (cost_after (by omega : i < k) inside 6 affords))

theorem found_paren (found : Found p 0 ts e) : Found p 6 (.opening :: (ts ++ [.closing])) e := by
  apply Found.operand
  intro i rest here
  have first := eat_other p .tilde (i := i) (fun us same => by cases here.symm.trans same)
  have second := eat_other p (.op .sub) (i := p.ws i) (fun us same => by cases here.symm.trans ((toks_ws p i).symm.trans same))
  have same : toks p (p.ws (p.ws i)) = .opening :: (ts ++ .closing :: rest) := by
    rw [toks_ws, toks_ws, here]
    simp
  obtain ⟨k, eats, after, further, inside⟩ := eat_mark p .opening same
  obtain ⟨m, beyond, later, runs⟩ := found.ends (by omega) after (fun o us next => by cases next) (fun o us next => by cases next)
  obtain ⟨j, closes, last, past, -⟩ := eat_mark p .closing beyond
  have skipped := le_ws p i
  have skipped' := le_ws p (p.ws i)
  refine ⟨j, last, by omega, ?_⟩
  intro fuel affords
  have body : p.bin fuel 0 k = some (.ok (e, m)) := runs fuel (cost_after (by omega : i < k) inside 0 affords)
  rw [show Op.sub.text = "-" from rfl] at second
  rw [Parser.unary, first]
  dsimp only
  rw [second]
  dsimp only
  rw [eats]
  refine (bind_ok _ body).trans ?_
  dsimp only
  rw [closes]
  rfl

theorem found_word {w : List Char} (named : p.operand w = .ok e) : Found p 6 [.word w] e := by
  apply Found.operand
  intro i rest here
  have first := eat_other p .tilde (i := i) (fun us same => by cases here.symm.trans same)
  have second := eat_other p (.op .sub) (i := p.ws i) (fun us same => by cases here.symm.trans ((toks_ws p i).symm.trans same))
  have there : toks p (p.ws (p.ws i)) = .word w :: rest := by
    rw [toks_ws, toks_ws, here]
    rfl
  have third := eat_other p .opening (i := p.ws (p.ws i)) (fun us same => by cases there.symm.trans same)
  have starts : toks p (p.ws (p.ws (p.ws i))) = .word w :: rest := (toks_ws p _).trans there
  rcases word_cases p (p.ws (p.ws (p.ws i))) with ⟨-, none⟩ | ⟨w', taken, nonempty, begins, later, -⟩
  · exact absurd starts (none w rest)
  · rw [starts] at begins
    obtain ⟨⟨⟩, after⟩ := List.cons.inj begins
    have skipped := le_ws p i
    have skipped' := le_ws p (p.ws i)
    have skipped'' := le_ws p (p.ws (p.ws i))
    refine ⟨_, after.symm, by omega, ?_⟩
    intro fuel affords
    rw [show Op.sub.text = "-" from rfl] at second
    rw [Parser.unary, first]
    dsimp only
    rw [second]
    dsimp only
    rw [third]
    dsimp only
    rw [taken, if_neg nonempty, named]
    rfl

theorem found_of_derives (derives : Derives p built lvl ts e) : Found p lvl ts e := by
  induction derives with
  | word named => exact found_word named
  | not inner ih => exact found_not ih
  | neg inner ih => exact found_neg ih
  | paren inner ih => exact found_paren ih
  | tighter below inner ih => exact found_tighter below ih
  | bin left right joins ihLeft ihRight => exact found_bin ihLeft ihRight joins
end

/-! ### The bound is large enough -/

/-- The functions return whatever they find, within their cost. -/
structure Enough (p : Parser) (fuel : ℕ) : Prop where
  bin : ∀ {lvl i}, lvl ≤ 5 → cost p lvl i ≤ fuel → ∃ r, p.bin fuel lvl i = some r
  binLoop : ∀ {lvl l i}, lvl < 5 → 16 * (p.t.length - i) < fuel → ∃ r, p.binLoop fuel lvl l i = some r
  shift : ∀ {i}, 16 * (p.t.length - i) + 5 ≤ fuel → ∃ r, p.shift fuel i = some r
  shiftLoop : ∀ {l i}, 16 * (p.t.length - i) < fuel → ∃ r, p.shiftLoop fuel l i = some r
  unary : ∀ {i}, 16 * (p.t.length - i) + 4 ≤ fuel → ∃ r, p.unary fuel i = some r

section
variable {p : Parser} {fuel : ℕ} (enough : Enough p fuel)
include enough

variable {i : ℕ}

theorem bin_enough {lvl : ℕ} (level : lvl ≤ 5) (affords : cost p lvl i ≤ fuel + 1) :
    ∃ r, p.bin (fuel + 1) lvl i = some r := by
  unfold cost at affords
  rw [Parser.bin]
  by_cases last : lvl = 5
  · rw [if_pos last]
    exact enough.shift (by omega)
  · rw [if_neg last]
    have inner : cost p (lvl + 1) i ≤ fuel := by
      unfold cost
      omega
    obtain ⟨r, left⟩ := enough.bin (by omega) inner
    cases r with
    | error err => exact ⟨_, bind_some_iff.mpr (.inl ⟨err, left, rfl⟩)⟩
    | ok a =>
      have later := ((sound_all p fuel).bin (by omega) left).1
      obtain ⟨r, loop⟩ := @Enough.binLoop _ _ enough lvl a.1 a.2 (by omega) (by omega)
      exact ⟨r, (bind_ok _ left).trans loop⟩

theorem binLoop_enough {lvl : ℕ} {l : Expr} (level : lvl < 5) (affords : 16 * (p.t.length - i) < fuel + 1) :
    ∃ r, p.binLoop (fuel + 1) lvl l i = some r := by
  rw [Parser.binLoop, ops_eq level]
  rcases eatOp_cases p (levelOps lvl) i with ⟨o, -, k, eats, -, further, inside⟩ | ⟨k, none, -⟩
  · rw [eats]
    dsimp only
    have inner : cost p (lvl + 1) k ≤ fuel := by
      unfold cost
      omega
    obtain ⟨r, right⟩ := enough.bin (by omega) inner
    cases r with
    | error err => exact ⟨_, bind_some_iff.mpr (.inl ⟨err, right, rfl⟩)⟩
    | ok a =>
      have later := ((sound_all p fuel).bin (by omega) right).1
      obtain ⟨r, loop⟩ := enough.binLoop (l := .bin (o.text.toList.headD ' ') l a.1) (i := a.2) level (by omega)
      exact ⟨r, (bind_ok _ right).trans loop⟩
  · rw [none]
    exact ⟨_, rfl⟩

theorem shift_enough (affords : 16 * (p.t.length - i) + 5 ≤ fuel + 1) : ∃ r, p.shift (fuel + 1) i = some r := by
  rw [Parser.shift]
  obtain ⟨r, left⟩ := enough.unary (i := i) (by omega)
  cases r with
  | error err => exact ⟨_, bind_some_iff.mpr (.inl ⟨err, left, rfl⟩)⟩
  | ok a =>
    have later := ((sound_all p fuel).unary left).1
    obtain ⟨r, loop⟩ := enough.shiftLoop (l := a.1) (i := a.2) (by omega)
    exact ⟨r, (bind_ok _ left).trans loop⟩

theorem shiftLoop_enough {l : Expr} (affords : 16 * (p.t.length - i) < fuel + 1) :
    ∃ r, p.shiftLoop (fuel + 1) l i = some r := by
  have eats := eatOp_cases p [.shl, .shr] i
  rw [show [Op.shl, Op.shr].map Op.text = ["<<", ">>"] from rfl] at eats
  rw [Parser.shiftLoop]
  rcases eats with ⟨o, -, k, eats, -, further, inside⟩ | ⟨k, none, -⟩
  · rw [eats]
    dsimp only
    have skipped := le_ws p k
    obtain ⟨r, amount⟩ := enough.unary (i := p.ws k) (by omega)
    cases r with
    | error err => exact ⟨_, bind_some_iff.mpr (.inl ⟨err, amount, rfl⟩)⟩
    | ok a =>
      obtain ⟨e, m⟩ := a
      have later := ((sound_all p fuel).unary amount).1
      rw [bind_ok _ amount]
      cases e with
      | lit c =>
        dsimp only
        by_cases small : c < 32
        · rw [if_pos small]
          exact enough.shiftLoop (by omega)
        · rw [if_neg small]
          exact ⟨_, rfl⟩
      | _ => exact ⟨_, rfl⟩
  · rw [none]
    exact ⟨_, rfl⟩

theorem unary_enough (affords : 16 * (p.t.length - i) + 4 ≤ fuel + 1) : ∃ r, p.unary (fuel + 1) i = some r := by
  rw [Parser.unary]
  rcases eat_cases p .tilde i with ⟨k, eats, -, further, inside⟩ | ⟨i₁, eats, -, later₁, -⟩
  · rw [eats]
    dsimp only
    obtain ⟨r, operand⟩ := enough.unary (i := k) (by omega)
    cases r with
    | error err => exact ⟨_, bind_some_iff.mpr (.inl ⟨err, operand, rfl⟩)⟩
    | ok a => exact ⟨_, bind_ok _ operand⟩
  rw [eats]
  dsimp only
  rcases eat_cases p (.op .sub) i₁ with ⟨k, eats, -, further, inside⟩ | ⟨i₂, eats, -, later₂, -⟩
  · rw [show Op.sub.text = "-" from rfl] at eats
    rw [eats]
    dsimp only
    obtain ⟨r, operand⟩ := enough.unary (i := k) (by omega)
    cases r with
    | error err => exact ⟨_, bind_some_iff.mpr (.inl ⟨err, operand, rfl⟩)⟩
    | ok a => exact ⟨_, bind_ok _ operand⟩
  rw [show Op.sub.text = "-" from rfl] at eats
  rw [eats]
  dsimp only
  rcases eat_cases p .opening i₂ with ⟨k, eats, -, further, inside⟩ | ⟨i₃, eats, -, later₃, -⟩
  · rw [eats]
    dsimp only
    have inner : cost p 0 k ≤ fuel := by
      unfold cost
      omega
    obtain ⟨r, body⟩ := enough.bin (by omega) inner
    cases r with
    | error err => exact ⟨_, bind_some_iff.mpr (.inl ⟨err, body, rfl⟩)⟩
    | ok a =>
      rw [bind_ok _ body]
      split
      · exact ⟨_, rfl⟩
      · exact ⟨_, rfl⟩
  rw [eats]
  dsimp only
  split
  · exact ⟨_, rfl⟩
  · split
    · exact ⟨_, rfl⟩
    · exact ⟨_, rfl⟩
end

theorem enough_all (p : Parser) (fuel : ℕ) : Enough p fuel := by
  induction fuel with
  | zero =>
    constructor
    case bin =>
      intro lvl i level affords
      unfold cost at affords
      omega
    all_goals
      intros
      omega
  | succ fuel ih => exact ⟨bin_enough ih, binLoop_enough ih, shift_enough ih, shiftLoop_enough ih, unary_enough ih⟩

/-! ### The parser -/

section
variable (s : String) (arrays scalars : List String)

theorem first_eq_none {cs : List Char} (reads : first cs = none) : cs = [] := by
  unfold first at reads
  split at reads
  · rfl
  · cases reads
  · cases reads
  · split at reads
    · cases reads
    · cases reads

/-- White space is all that is left where no token is. -/
theorem rest_ws_eq_nil (p : Parser) (i : ℕ) : p.rest (p.ws i) = [] ↔ toks p i = [] := by
  rw [toks_eq, ← rest_ws]
  constructor
  · intro empty
    rw [empty]
    rfl
  · intro none
    cases reads : first (p.rest (p.ws i)) with
    | none => exact first_eq_none reads
    | some r =>
      rw [reads] at none
      cases none

theorem parse_new : (Parser.new s arrays scalars).parse =
    ((Parser.new s arrays scalars).bin (Parser.new s arrays scalars).bound 0 0 >>= fun (e, i) =>
      match (Parser.new s arrays scalars).rest ((Parser.new s arrays scalars).ws i) with
      | [] => pure e
      | c :: _ => throw (.unexpected c ((Parser.new s arrays scalars).ws i))) := rfl

theorem cost_bound (p : Parser) : cost p 0 0 ≤ p.bound := by
  unfold cost Parser.bound
  omega

/-- The parser gives the expressions of the sentences over its own levels, and refuses
    every other text. -/
theorem parse_iff (e : Expr) : (Parser.new s arrays scalars).parse = some (.ok e) ↔
    Derives (Parser.new s arrays scalars) built 0 (tokens s.toList) e := by
  rw [parse_new, bind_some_ok_iff]
  constructor
  · rintro ⟨⟨e', j⟩, ran, done⟩
    obtain ⟨-, ts, here, derives⟩ := (sound_all _ _).bin (by decide) ran
    dsimp only at done
    cases left : (Parser.new s arrays scalars).rest ((Parser.new s arrays scalars).ws j) with
    | nil =>
      rw [left] at done
      cases done
      rw [(rest_ws_eq_nil _ j).mp left, List.append_nil] at here
      rw [show tokens s.toList = ts from here]
      exact derives
    | cons c cs =>
      rw [left] at done
      cases done
  · intro derives
    obtain ⟨j, after, -, runs⟩ := (found_of_derives derives).ends (by decide) (i := 0) (List.append_nil _).symm
      nofun nofun
    refine ⟨(e, j), runs _ (cost_bound _), ?_⟩
    dsimp only
    rw [(rest_ws_eq_nil _ j).mpr after]
    rfl
end

end E5r.ElementGrammar
