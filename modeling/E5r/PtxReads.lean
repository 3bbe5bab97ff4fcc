import E5r.PtxParser
import E5r.PtxForms

/-!
What the parser reads. A parser that succeeds has consumed the tokens of its
result, and it succeeds with the same result on any tokens that differ in their
lines only.
-/
namespace E5r.PtxReads
open PtxSyntax PtxLexer PtxParser PtxForms

/-- The tokens that are left. -/
def rest (p : P) : List Tok := (toks p.toks).drop p.pos

def SameTokens (p q : P) : Prop := toks q.toks = toks p.toks ∧ q.pos = p.pos

/-- Started where `pre` holds of the tokens left, which the lexer gave, a
    successful run gives a result that `R` relates to the tokens it consumed, and
    runs alike on the same tokens. -/
def Reads {α : Type} (pre : List Tok → Prop) (x : Parser α) (R : α → List Tok → Prop) : Prop :=
  ∀ p a p', pre (rest p) → (∀ t ∈ rest p, Valid t) → x p = .ok (a, p') →
    ∃ ts, R a ts ∧ p'.toks = p.toks ∧ p'.pos = p.pos + ts.length ∧ rest p = ts ++ rest p' ∧
      ∀ q, SameTokens p q → x q = .ok (a, ⟨q.toks, p'.pos⟩)

/-- No condition on the tokens left. -/
abbrev anywhere : List Tok → Prop := fun _ => True

section
variable {α β : Type} {pre : List Tok → Prop} {x : Parser α} {f : α → Parser β} {R : α → List Tok → Prop}
  {S : β → List Tok → Prop}

theorem SameTokens.rest_eq {p q : P} (same : SameTokens p q) : rest q = rest p := by rw [rest, rest, same.1, same.2]

theorem reads_pure {a : α} (holds : R a []) : Reads pre (pure a) R := by
  intro p b p' _ _ executed
  obtain ⟨rfl, rfl⟩ : a = b ∧ p = p' := by
    have : (a, p) = (b, p') := Except.ok.inj executed
    exact Prod.mk.inj this
  refine ⟨[], holds, rfl, rfl, rfl, ?_⟩
  rintro ⟨qtoks, qpos⟩ ⟨-, position⟩
  obtain rfl : qpos = p.pos := position
  rfl

theorem bind_ok {p : P} {b : β} {p' : P} (executed : (x >>= f) p = .ok (b, p')) :
    ∃ a q, x p = .ok (a, q) ∧ f a q = .ok (b, p') := by
  have unfolded : (x p >>= fun r => f r.1 r.2) = .ok (b, p') := executed
  cases result : x p with
  | error e =>
    rw [result] at unfolded
    cases unfolded
  | ok r =>
    rw [result] at unfolded
    exact ⟨r.1, r.2, rfl, unfolded⟩

theorem bind_of_ok {p q : P} {a : α} (first : x p = .ok (a, q)) : (x >>= f) p = f a q := by
  show (x p >>= fun r => f r.1 r.2) = f a q
  rw [first]
  rfl

theorem reads_bind (first : Reads pre x R)
    (second : ∀ a ts, R a ts → Reads anywhere (f a) (fun b us => S b (ts ++ us))) : Reads pre (x >>= f) S := by
  intro p b p' holds valid executed
  obtain ⟨a, q, head, tail⟩ := bind_ok executed
  obtain ⟨ts, related, toksQ, posQ, restP, againX⟩ := first p a q holds valid head
  obtain ⟨us, both, toksP', posP', restQ, againF⟩ := second a ts related q b p' trivial
    (fun t member => valid t (by rw [restP]; exact List.mem_append_right ts member)) tail
  refine ⟨ts ++ us, both, toksP'.trans toksQ, ?_, ?_, ?_⟩
  · rw [posP', posQ, List.length_append, Nat.add_assoc]
  · rw [restP, restQ, List.append_assoc]
  · intro r same
    rw [bind_of_ok (againX r same)]
    exact againF ⟨r.toks, q.pos⟩ ⟨by rw [toksQ]; exact same.1, rfl⟩

theorem Reads.mono {R' : α → List Tok → Prop} {pre' : List Tok → Prop} (reads : Reads pre x R)
    (stronger : ∀ r, pre' r → pre r) (weaker : ∀ a ts, R a ts → R' a ts) : Reads pre' x R' := by
  intro p a p' holds valid executed
  obtain ⟨ts, related, others⟩ := reads p a p' (stronger _ holds) valid executed
  exact ⟨ts, weaker a ts related, others⟩

theorem Reads.weaken {R' : α → List Tok → Prop} (reads : Reads anywhere x R) (weaker : ∀ a ts, R a ts → R' a ts) :
    Reads pre x R' := reads.mono (fun _ _ => trivial) weaker

theorem reads_err {msg : String} : Reads pre (err msg : Parser α) R := by
  intro p a p' _ _ executed
  cases executed

theorem reads_errBack {msg : String} : Reads pre (errBack msg : Parser α) R := by
  intro p a p' _ _ executed
  cases executed

/-- Looking at the next token consumes nothing, and the rest may rely on it. -/
theorem reads_peek {f : Option Tok → Parser β} (then_ : ∀ t, Reads (fun r => pre r ∧ r.head? = t) (f t) S) :
    Reads pre (peek >>= f) S := by
  intro p b p' holds valid executed
  have head (q : P) : peek q = .ok ((rest q).head?, q) := by
    simp [peek, rest, toks, List.head?_drop]
  rw [bind_of_ok (head p)] at executed
  obtain ⟨ts, related, toksP, posP, restP, again⟩ := then_ _ p b p' ⟨holds, rfl⟩ valid executed
  refine ⟨ts, related, toksP, posP, restP, ?_⟩
  intro q same
  rw [bind_of_ok (head q), same.rest_eq]
  exact again q same

theorem reads_peekSecond {f : Option Tok → Parser β} (then_ : ∀ t, Reads (fun r => pre r ∧ r[1]? = t) (f t) S) :
    Reads pre (peekSecond >>= f) S := by
  intro p b p' holds valid executed
  have second (q : P) : peekSecond q = .ok ((rest q)[1]?, q) := by
    simp [peekSecond, rest, toks]
  rw [bind_of_ok (second p)] at executed
  obtain ⟨ts, related, toksP, posP, restP, again⟩ := then_ _ p b p' ⟨holds, rfl⟩ valid executed
  refine ⟨ts, related, toksP, posP, restP, ?_⟩
  intro q same
  rw [bind_of_ok (second q), same.rest_eq]
  exact again q same

theorem reads_skip {n : ℕ} {ts : List Tok} (length : ts.length = n) (known : ∀ r, pre r → ts <+: r) :
    Reads pre (skip n) (fun _ us => us = ts) := by
  rintro p ⟨⟩ p' holds _ executed
  obtain rfl : { p with pos := p.pos + n } = p' := (Prod.mk.inj (Except.ok.inj executed)).2
  refine ⟨ts, rfl, rfl, by rw [length], ?_, ?_⟩
  · obtain ⟨tail, split⟩ := known _ holds
    have after : rest { p with pos := p.pos + n } = (rest p).drop n := by simp [rest, List.drop_drop]
    rw [after, ← split, ← length, List.drop_left]
  · rintro q ⟨-, position⟩
    show Except.ok ((), { q with pos := q.pos + n }) = _
    rw [position]

theorem reads_next : Reads pre next (fun t ts => ts = [t] ∧ Valid t) := by
  intro p t p' _ valid executed
  have step (q : P) : next q = match (rest q).head? with
      | some t => .ok (t, { q with pos := q.pos + 1 })
      | none => err "unexpected end of input" q := by
    simp only [next, rest, toks, List.head?_drop, List.getElem?_map]
    cases q.toks[q.pos]? <;> rfl
  rw [step] at executed
  cases head : (rest p).head? with
  | none =>
    rw [head] at executed
    cases executed
  | some u =>
    rw [head] at executed
    obtain ⟨rfl, rfl⟩ : u = t ∧ { p with pos := p.pos + 1 } = p' := Prod.mk.inj (Except.ok.inj executed)
    obtain ⟨tail, split⟩ := List.head?_eq_some_iff.mp head
    refine ⟨[u], ⟨rfl, valid u (by rw [split]; exact List.mem_cons_self)⟩, rfl, rfl, ?_, ?_⟩
    · have after : rest { p with pos := p.pos + 1 } = (rest p).tail := by simp [rest, List.tail_drop]
      rw [after, split]
      rfl
    · intro q same
      rw [step, same.rest_eq, head]
      simp only [same.2]

theorem reads_isPunct {c : Char} {f : Bool → Parser β} (found : Reads (fun r => pre r ∧ r.head? = some (.punct c)) (f true) S)
    (other : Reads pre (f false) S) : Reads pre (isPunct c >>= f) S := by
  have unfolded : (isPunct c >>= f) = peek >>= fun t => f (decide (t = some (.punct c))) := by
    rw [isPunct, bind_assoc]
    simp only [pure_bind]
  rw [unfolded]
  apply reads_peek
  intro t
  by_cases is : t = some (.punct c)
  · rw [decide_eq_true is, is]
    exact found
  · rw [decide_eq_false is]
    exact other.mono (fun _ both => both.1) (fun _ _ same => same)

theorem reads_rounds : Reads pre rounds (fun _ ts => ts = []) := by
  intro p n p' _ _ executed
  obtain ⟨rfl, rfl⟩ : p.toks.length + 1 = n ∧ p = p' := Prod.mk.inj (Except.ok.inj executed)
  refine ⟨[], rfl, rfl, rfl, rfl, ?_⟩
  rintro ⟨qtoks, qpos⟩ ⟨tokens, position⟩
  obtain rfl : qpos = p.pos := position
  have : qtoks.length = p.toks.length := by simpa [toks] using congrArg List.length tokens
  show Except.ok (qtoks.length + 1, _) = _
  rw [this]
end

theorem head_prefix {t : Tok} {r : List Tok} (head : r.head? = some t) : [t] <+: r := by
  obtain ⟨tail, rfl⟩ := List.head?_eq_some_iff.mp head
  exact ⟨tail, rfl⟩

theorem reads_skipSeen {α : Type} {pre : List Tok → Prop} {t : Tok} {f : Unit → Parser α} {S : α → List Tok → Prop}
    (then_ : Reads anywhere (f ()) (fun b us => S b ([t] ++ us))) :
    Reads (fun r => pre r ∧ r.head? = some t) (skip 1 >>= f) S := by
  refine reads_bind (reads_skip rfl (fun r both => head_prefix both.2)) ?_
  rintro _ ts rfl
  exact then_

section
variable {pre : List Tok → Prop}

theorem reads_punct {c : Char} : Reads pre (punct c) (fun _ ts => ts = [.punct c]) := by
  refine reads_bind reads_next ?_
  rintro t ts ⟨rfl, -⟩
  by_cases is : t = .punct c
  · simp only [is, if_true]
    exact reads_pure rfl
  · simp only [is, if_false]
    exact reads_errBack

theorem reads_comma : Reads pre comma (fun _ ts => ts = [.punct ',']) := reads_punct

theorem reads_word : Reads pre word (fun w ts => ts = [.word w] ∧ IsWord w.toList) := by
  refine reads_bind reads_next ?_
  rintro t ts ⟨rfl, valid⟩
  cases t with
  | word w => exact reads_pure ⟨rfl, valid⟩
  | int v => exact reads_errBack
  | num s => exact reads_errBack
  | float v w => exact reads_errBack
  | punct c => exact reads_errBack

theorem reads_keyword {k : String} : Reads pre (keyword k) (fun _ ts => ts = [.word k]) := by
  refine reads_bind reads_word ?_
  rintro w ts ⟨rfl, -⟩
  by_cases is : w = k
  · simp only [is, if_true]
    exact reads_pure rfl
  · simp only [is, if_false]
    exact reads_errBack

theorem reads_int : Reads pre int (fun v ts => ts = intToks v ∧ v.natAbs < 2 ^ 127) := by
  have digits {neg : Bool} {sign : List Tok} (signed : sign = if neg then [.punct '-'] else []) {f : Tok → Parser ℤ}
      (number : ∀ v, f (.int v) =
        if v = 0 ∧ neg = true then errBack "negative zero" else return (if neg = true then -v else v))
      (other : ∀ t, (∀ v, t ≠ .int v) → f t = errBack ("expected an integer, found " ++ debugTok t)) :
      Reads anywhere (next >>= f) (fun v ts => sign ++ ts = intToks v ∧ v.natAbs < 2 ^ 127) := by
    refine reads_bind reads_next ?_
    rintro t ts ⟨rfl, valid⟩
    cases t with
    | int v =>
      obtain ⟨nonneg, small⟩ : 0 ≤ v ∧ v < 2 ^ 127 := valid
      rw [number]
      split
      · exact reads_errBack
      · next nonzero =>
        refine reads_pure ?_
        cases neg with
        | false =>
          refine ⟨?_, by simp only [Bool.false_eq_true, if_false]; omega⟩
          simp [signed, intToks, not_lt.mpr nonneg]
        | true =>
          have positive : 0 < v := lt_of_le_of_ne nonneg (fun zero => nonzero ⟨zero.symm, rfl⟩)
          refine ⟨?_, by simp only [if_true]; omega⟩
          simp [signed, intToks, positive]
    | word | num | float | punct =>
      rw [other _ (by simp)]
      exact reads_errBack
  unfold int
  apply reads_isPunct
  · rw [if_pos rfl]
    refine reads_skipSeen (@digits true _ rfl _ (fun _ => rfl) fun t no => ?_)
    cases t with
    | int v => exact absurd rfl (no v)
    | word | num | float | punct => rfl
  · rw [if_neg Bool.false_ne_true]
    refine (@digits false [] rfl _ (fun _ => rfl) fun t no => ?_).weaken (fun _ _ same => same)
    cases t with
    | int v => exact absurd rfl (no v)
    | word | num | float | punct => rfl

theorem stripDot_eq {w e : String} (stripped : stripDot w = some e) : w = "." ++ e := by
  obtain ⟨cs, found, rfl⟩ := Option.map_eq_some_iff.mp stripped
  have pre : cs = w.toList.drop 1 ∧ ['.'].isPrefixOf w.toList = true := by
    simp only [RustText.stripPrefix] at found
    split at found
    · next is => exact ⟨(Option.some.inj found).symm, is⟩
    · contradiction
  obtain ⟨rest, split⟩ := List.isPrefixOf_iff_prefix.mp pre.2
  rw [← String.toList_inj, String.toList_append, String.toList_ofList, pre.1, ← split]
  simp

theorem reads_tyDirective :
    Reads pre tyDirective (fun t ts => ts = [.word ("." ++ t.name)] ∧ IsWord ("." ++ t.name).toList) := by
  refine reads_bind reads_word ?_
  rintro w ts ⟨rfl, isWord⟩
  cases known : (stripDot w).bind Ty.fromName with
  | none => exact reads_errBack
  | some t =>
    obtain ⟨e, stripped, named⟩ := Option.bind_eq_some_iff.mp known
    obtain rfl := Ty.name_of_fromName named
    obtain rfl := stripDot_eq stripped
    exact reads_pure ⟨rfl, isWord⟩

theorem dimOf_eq {d : String} {i : Dim} (known : dimOf d = some i) : PtxPrinter.dim i = d := by
  unfold dimOf at known
  split at known <;> cases known <;> rfl

theorem splitOnce_eq {c : Char} {s a b : List Char} (split : RustText.splitOnce c s = some (a, b)) :
    s = a ++ c :: b := by
  induction s generalizing a b with
  | nil => simp [RustText.splitOnce] at split
  | cons d rest ih =>
    rw [RustText.splitOnce] at split
    split at split
    · next same =>
      obtain ⟨rfl, rfl⟩ : [] = a ∧ rest = b := by simpa using split
      rw [same]
      rfl
    · obtain ⟨⟨x, y⟩, found, equal⟩ := Option.map_eq_some_iff.mp split
      obtain ⟨rfl, rfl⟩ : d :: x = a ∧ y = b := by simpa using equal
      rw [ih found]
      rfl

theorem rsplitDot_eq {w base d : String} (split : rsplitDot w = some (base, d)) : w = base ++ "." ++ d := by
  obtain ⟨⟨x, y⟩, found, equal⟩ := Option.map_eq_some_iff.mp split
  obtain ⟨rfl, rfl⟩ := Prod.mk.inj equal
  have whole := splitOnce_eq found
  rw [← String.toList_inj, String.toList_append, String.toList_append, String.toList_ofList, String.toList_ofList]
  have := congrArg List.reverse whole
  rw [List.reverse_reverse] at this
  rw [this]
  simp

theorem sreg_eq {w : String} {s : Sreg} (known : PtxParser.sreg w = some s) : PtxPrinter.sreg s = w := by
  simp only [PtxParser.sreg, Option.bind_eq_bind, Option.bind_eq_some_iff] at known
  obtain ⟨⟨base, d⟩, split, i, dim, named⟩ := known
  obtain rfl := rsplitDot_eq split
  obtain rfl := dimOf_eq dim
  simp only at named
  split at named <;> cases named <;> rfl

theorem reads_operand : Reads pre operand (fun o ts => ts = operandToks o) := by
  have integer : Reads anywhere (do return Operand.imm (← int)) (fun o ts => ts = operandToks o) := by
    refine reads_bind reads_int ?_
    rintro v ts ⟨rfl, -⟩
    exact reads_pure (List.append_nil _)
  apply reads_peek
  intro t
  split
  · exact reads_skipSeen (reads_pure rfl)
  · exact integer.weaken (fun _ _ same => same)
  · exact integer.weaken (fun _ _ same => same)
  · refine reads_bind reads_word ?_
    rintro w ts ⟨rfl, -⟩
    cases known : PtxParser.sreg w with
    | some s => exact reads_pure (by rw [operandToks, sreg_eq known]; rfl)
    | none =>
      simp only
      split
      · split
        · exact reads_errBack
        · exact reads_pure rfl
      · split
        · exact reads_errBack
        · exact reads_pure rfl

theorem reads_reg : Reads pre reg (fun r ts => ts = [.word r]) := by
  refine reads_bind reads_operand ?_
  rintro o ts rfl
  cases o with
  | reg r => exact reads_pure rfl
  | imm v => exact reads_errBack
  | sreg s => exact reads_errBack
  | sym n => exact reads_errBack
  | fimm v w => exact reads_errBack

theorem reads_offset : Reads pre offset (fun o ts => ts = offsetToks o) := by
  apply reads_isPunct
  · rw [if_pos rfl]
    apply reads_skipSeen
    refine reads_bind reads_int ?_
    rintro v ts ⟨rfl, -⟩
    exact reads_pure (by simp [offsetToks])
  · rw [if_neg Bool.false_ne_true]
    exact reads_pure rfl

theorem reads_address : Reads pre address (fun a ts => ts = addressToks a) := by
  refine reads_bind reads_punct ?_
  rintro _ ts rfl
  refine reads_bind reads_word ?_
  rintro w ts ⟨rfl, -⟩
  refine reads_bind reads_offset ?_
  rintro off ts rfl
  refine reads_bind reads_punct ?_
  rintro _ ts rfl
  split
  · split
    · exact reads_err
    · exact reads_pure (by simp [addressToks])
  · exact reads_pure (by simp [addressToks])

end
end E5r.PtxReads
