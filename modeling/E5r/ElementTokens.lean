import E5r.ElementModel

/-!
The tokens of an element text. A word takes every word character that follows,
and white space only separates tokens. What the parser reads at a position is read
off the tokens from that position on.
-/
namespace E5r.ElementTokens
open RustText ElementModel

/-- The binary operators. `sub` is the sign of a negation, too. -/
inductive Op where
  | or | xor | and | add | sub | mul | shl | shr
deriving DecidableEq

inductive Token where
  | word (w : List Char)
  | op (o : Op)
  | tilde | opening | closing
  | other (c : Char)
deriving DecidableEq

def Op.text : Op → String
  | or => "|"
  | xor => "^"
  | and => "&"
  | add => "+"
  | sub => "-"
  | mul => "*"
  | shl => "<<"
  | shr => ">>"

/-- The token of one character that is in no word. -/
def mark (c : Char) : Token :=
  match c with
  | '|' => .op .or
  | '^' => .op .xor
  | '&' => .op .and
  | '+' => .op .add
  | '-' => .op .sub
  | '*' => .op .mul
  | '~' => .tilde
  | '(' => .opening
  | ')' => .closing
  | c => .other c

/-- The first token of a text that starts with no white space, and the text after
    it. -/
def first : List Char → Option (Token × List Char)
  | [] => none
  | '<' :: '<' :: cs => some (.op .shl, cs)
  | '>' :: '>' :: cs => some (.op .shr, cs)
  | c :: cs =>
    if wordChar c then some (.word ((c :: cs).takeWhile wordChar), (c :: cs).dropWhile wordChar)
    else some (mark c, cs)

def tokensFrom : ℕ → List Char → List Token
  | 0, _ => []
  | fuel + 1, s =>
    match first (trimStart s) with
    | none => []
    | some (t, rest) => t :: tokensFrom fuel rest

/-- The tokens of a text. Each takes at least one character. -/
def tokens (s : List Char) : List Token := tokensFrom s.length s

theorem first_length {s rest : List Char} {t : Token} (reads : first s = some (t, rest)) : rest.length < s.length := by
  unfold first at reads
  split at reads
  · cases reads
  · cases reads
    simp only [List.length_cons]
    omega
  · cases reads
    simp only [List.length_cons]
    omega
  · next c cs _ _ =>
    split at reads
    · next inside =>
      cases reads
      rw [List.dropWhile_cons_of_pos inside]
      exact Nat.lt_succ_of_le (List.dropWhile_suffix wordChar).length_le
    · cases reads
      exact Nat.lt_succ_self _

theorem tokensFrom_fuel (fuel : ℕ) : ∀ {s : List Char}, s.length ≤ fuel → tokensFrom (fuel + 1) s = tokensFrom fuel s := by
  induction fuel with
  | zero =>
    intro s short
    obtain rfl : s = [] := List.eq_nil_of_length_eq_zero (Nat.le_zero.mp short)
    rfl
  | succ fuel ih =>
    intro s short
    rw [tokensFrom, tokensFrom]
    split
    · rfl
    · next t rest reads =>
      have := first_length reads
      have := length_trimStart_le s
      rw [ih (by omega)]

theorem tokensFrom_enough {s : List Char} {fuel : ℕ} (enough : s.length ≤ fuel) : tokensFrom fuel s = tokens s := by
  induction fuel, enough using Nat.le_induction with
  | base => rfl
  | succ fuel enough ih => rw [tokensFrom_fuel fuel enough, ih]

theorem tokens_eq (s : List Char) : tokens s =
    match first (trimStart s) with
    | none => []
    | some (t, rest) => t :: tokens rest := by
  rw [← tokensFrom_enough (Nat.le_succ s.length), tokensFrom]
  split
  · rfl
  · next t rest reads =>
    have := first_length reads
    have := length_trimStart_le s
    rw [tokensFrom_enough (by omega)]

theorem trimStart_idem (s : List Char) : trimStart (trimStart s) = trimStart s := List.dropWhile_idempotent _ _

theorem tokens_trimStart (s : List Char) : tokens (trimStart s) = tokens s := by
  rw [tokens_eq, trimStart_idem, ← tokens_eq]

/-- The characters of a mark that the parser looks for, and its token. -/
inductive Mark : String → Token → Prop where
  | op (o : Op) : Mark o.text (.op o)
  | tilde : Mark "~" .tilde
  | opening : Mark "(" .opening
  | closing : Mark ")" .closing

theorem first_single {c : Char} (plain : wordChar c = false) (noShl : c ≠ '<') (noShr : c ≠ '>') (cs : List Char) :
    first (c :: cs) = some (mark c, cs) := by
  unfold first
  split
  · next same => cases same
  · next same =>
    cases same
    exact absurd rfl noShl
  · next same =>
    cases same
    exact absurd rfl noShr
  · next same =>
    cases same
    rw [if_neg (by simp [plain])]

theorem first_mark {s : String} {t : Token} (is : Mark s t) (cs : List Char) :
    first (s.toList ++ cs) = some (t, cs) := by
  cases is with
  | op o =>
    cases o with
    | shl | shr => rfl
    | _ => exact first_single (by decide) (by decide) (by decide) cs
  | _ => exact first_single (by decide) (by decide) (by decide) cs

theorem mark_of_first {s : String} {t : Token} (is : Mark s t) {cs rest : List Char} (reads : first cs = some (t, rest)) :
    cs = s.toList ++ rest := by
  unfold first at reads
  split at reads
  · cases reads
  · cases reads
    cases is with
    | op o => rfl
  · cases reads
    cases is with
    | op o => rfl
  · next c cs _ _ =>
    split at reads
    · cases reads
      cases is
    · obtain ⟨same, rfl⟩ := Prod.mk.inj (Option.some.inj reads)
      subst same
      unfold mark at is
      split at is
      case h_10 => cases is
      all_goals
        cases is
        rfl

section
variable (p : Parser)

/-- The tokens from a position on. -/
def toks (i : ℕ) : List Token := tokens (p.rest i)

theorem rest_skip (f : Char → Bool) (i : ℕ) : p.rest (p.skip f i) = (p.rest i).dropWhile f := by
  have parts : (p.rest i).takeWhile f ++ (p.rest i).dropWhile f = p.rest i := List.takeWhile_append_dropWhile
  show p.t.drop (i + _) = _
  rw [← List.drop_drop]
  show (p.rest i).drop _ = _
  exact (congrArg (List.drop ((p.rest i).takeWhile f).length) parts.symm).trans (List.drop_left' rfl)

theorem rest_ws (i : ℕ) : p.rest (p.ws i) = trimStart (p.rest i) := rest_skip p isWhitespace i

theorem toks_ws (i : ℕ) : toks p (p.ws i) = toks p i := by
  unfold toks
  rw [rest_ws, tokens_trimStart]

theorem le_ws (i : ℕ) : i ≤ p.ws i := Nat.le_add_right ..

/-- A text that is not empty starts before its end. -/
theorem lt_of_rest {i : ℕ} (more : p.rest i ≠ []) : i < p.t.length := by
  by_contra past
  exact more (List.drop_eq_nil_of_le (by omega))

/-- The first token at a position. -/
theorem toks_eq (i : ℕ) : toks p i =
    match first (trimStart (p.rest i)) with
    | none => []
    | some (t, rest) => t :: tokens rest := tokens_eq _

theorem eat_mark {s : String} {t : Token} (is : Mark s t) {i : ℕ} {ts : List Token} (starts : toks p i = t :: ts) :
    ∃ j, p.eat s i = (true, j) ∧ toks p j = ts ∧ i < j ∧ j ≤ p.t.length := by
  rw [toks_eq] at starts
  cases reads : first (trimStart (p.rest i)) with
  | none =>
    rw [reads] at starts
    cases starts
  | some r =>
    obtain ⟨t', rest⟩ := r
    rw [reads] at starts
    cases starts
    have here := mark_of_first is reads
    rw [← rest_ws] at here
    have after : p.rest (p.ws i + s.toList.length) = rest := by
      show p.t.drop (p.ws i + s.toList.length) = rest
      rw [← List.drop_drop]
      show (p.rest (p.ws i)).drop _ = rest
      rw [here, List.drop_left' rfl]
    have nonempty : 0 < s.toList.length := by
      cases is with
      | op o => cases o <;> decide
      | _ => decide
    have inside : p.ws i + s.toList.length ≤ p.t.length := by
      have := congrArg List.length here
      rw [List.length_append] at this
      have : (p.rest (p.ws i)).length = p.t.length - p.ws i := List.length_drop
      omega
    have := le_ws p i
    refine ⟨p.ws i + s.toList.length, ?_, ?_, by omega, inside⟩
    · unfold Parser.eat
      rw [if_pos]
      rw [here]
      exact List.prefix_append _ _
    · unfold toks
      rw [after]

/-- A mark is not eaten where another token, or none, is the first one. -/
theorem eat_other {s : String} {t : Token} (is : Mark s t) {i : ℕ} (other : ∀ ts, toks p i ≠ t :: ts) :
    p.eat s i = (false, p.ws i) := by
  unfold Parser.eat
  rw [if_neg]
  rintro ⟨cs, here⟩
  rw [rest_ws] at here
  apply other (tokens cs)
  rw [toks_eq, ← here, first_mark is]

theorem eat_cases {s : String} {t : Token} (is : Mark s t) (i : ℕ) :
    (∃ j, p.eat s i = (true, j) ∧ toks p i = t :: toks p j ∧ i < j ∧ j ≤ p.t.length) ∨
      ∃ j, p.eat s i = (false, j) ∧ toks p j = toks p i ∧ i ≤ j ∧ ∀ ts, toks p i ≠ t :: ts := by
  by_cases starts : ∃ ts, toks p i = t :: ts
  · obtain ⟨ts, starts⟩ := starts
    obtain ⟨j, eats, after, further, inside⟩ := eat_mark p is starts
    exact .inl ⟨j, eats, by rw [starts, after], further, inside⟩
  · have other : ∀ ts, toks p i ≠ t :: ts := fun ts same => starts ⟨ts, same⟩
    exact .inr ⟨p.ws i, eat_other p is other, toks_ws p i, le_ws p i, other⟩

theorem mark_not_word (c : Char) (w : List Char) : mark c ≠ .word w := by
  unfold mark
  split <;> exact nofun

theorem first_word {c : Char} (inside : wordChar c = true) (cs : List Char) :
    first (c :: cs) = some (.word ((c :: cs).takeWhile wordChar), (c :: cs).dropWhile wordChar) := by
  unfold first
  split
  · next same => cases same
  · next same =>
    cases same
    exact absurd inside (by decide)
  · next same =>
    cases same
    exact absurd inside (by decide)
  · next same =>
    cases same
    rw [if_pos inside]

theorem first_not_word {c : Char} (outside : wordChar c = false) (cs : List Char) {w rest : List Char} :
    first (c :: cs) ≠ some (.word w, rest) := by
  intro reads
  unfold first at reads
  split at reads
  · cases reads
  · cases reads
  · cases reads
  · next same =>
    cases same
    rw [if_neg (by simp [outside])] at reads
    exact mark_not_word c w (Prod.mk.inj (Option.some.inj reads)).1

theorem word_cases (i : ℕ) :
    (p.word wordChar (p.ws i) = [] ∧ ∀ w ts, toks p i ≠ .word w :: ts) ∨
      ∃ w, p.word wordChar (p.ws i) = w ∧ w ≠ [] ∧ toks p i = .word w :: toks p (p.ws i + w.length) ∧
        i ≤ p.ws i ∧ p.ws i < p.t.length := by
  unfold Parser.word
  cases text : p.rest (p.ws i) with
  | nil =>
    refine .inl ⟨rfl, ?_⟩
    intro w ts
    rw [toks_eq, ← rest_ws, text]
    exact nofun
  | cons c cs =>
    by_cases inside : wordChar c = true
    · refine .inr ⟨(c :: cs).takeWhile wordChar, rfl, ?_, ?_, le_ws p i, ?_⟩
      · rw [List.takeWhile_cons_of_pos inside]
        exact List.cons_ne_nil _ _
      · have after := rest_skip p wordChar (p.ws i)
        unfold Parser.skip at after
        rw [text] at after
        rw [toks_eq, ← rest_ws, text, first_word inside]
        show _ = Token.word _ :: tokens (p.rest (p.ws i + ((c :: cs).takeWhile wordChar).length))
        rw [after]
      · apply lt_of_rest
        rw [text]
        exact List.cons_ne_nil _ _
    · refine .inl ⟨List.takeWhile_cons_of_neg inside, ?_⟩
      intro w ts
      rw [toks_eq, ← rest_ws, text]
      cases reads : first (c :: cs) with
      | none => exact nofun
      | some r =>
        obtain ⟨t, rest⟩ := r
        rintro ⟨⟩
        exact first_not_word (by simpa using inside) cs reads

theorem eatOp_cases (ops : List Op) : ∀ i : ℕ,
    (∃ o ∈ ops, ∃ j, p.eatOp (ops.map Op.text) i = (some o.text, j) ∧ toks p i = .op o :: toks p j ∧ i < j ∧
      j ≤ p.t.length) ∨
      ∃ j, p.eatOp (ops.map Op.text) i = (none, j) ∧ toks p j = toks p i ∧ i ≤ j ∧
        ∀ o ∈ ops, ∀ ts, toks p i ≠ .op o :: ts := by
  induction ops with
  | nil => exact fun i => .inr ⟨i, rfl, rfl, le_refl i, nofun⟩
  | cons o ops ih =>
    intro i
    rw [List.map_cons]
    unfold Parser.eatOp
    rcases eat_cases p (.op o) i with ⟨j, eats, starts, further, inside⟩ | ⟨j, eats, same, later, other⟩
    · rw [eats]
      exact .inl ⟨o, List.mem_cons_self, j, rfl, starts, further, inside⟩
    · rw [eats]
      dsimp only
      rcases ih j with ⟨o', member, k, found, starts, further, inside⟩ | ⟨k, none, same', later', others⟩
      · exact .inl ⟨o', List.mem_cons_of_mem _ member, k, found, same ▸ starts, by omega, inside⟩
      · refine .inr ⟨k, none, same'.trans same, later.trans later', ?_⟩
        intro o' member
        rcases List.mem_cons.mp member with rfl | member
        · exact other
        · exact same ▸ others o' member
end

end E5r.ElementTokens
