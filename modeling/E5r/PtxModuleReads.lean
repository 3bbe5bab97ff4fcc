import E5r.PtxInstrReads

/-!
The declarations, kernels and modules that the parser reads: an accepted module
is read from its own tokens, and again from any text that has them.
-/
namespace E5r.PtxModuleReads
open PtxSyntax PtxLexer PtxParser PtxForms PtxReads PtxInstrReads

section
variable {pre : List Tok → Prop}

theorem toU32_eq {v : ℤ} {n : ℕ} (fits : toU32 v = some n) : v = n := by
  unfold toU32 at fits
  split at fits
  · cases fits
    omega
  · contradiction

theorem intToks_natCast (n : ℕ) : intToks n = [.int n] := by
  rw [intToks, if_neg (by omega)]

theorem reads_regCount : Reads pre regCount (fun n ts => ts = countToks '<' '>' n) := by
  apply reads_isPunct
  · rw [if_pos rfl]
    apply reads_skipSeen
    refine reads_bind reads_int ?_
    rintro v _ ⟨rfl, -⟩
    refine reads_bind reads_punct ?_
    rintro _ _ rfl
    cases fits : toU32 v with
    | none => exact reads_err
    | some n =>
      obtain rfl := toU32_eq fits
      rw [intToks_natCast]
      exact reads_pure rfl
  · exact reads_pure rfl

theorem reads_regDecl : Reads pre PtxParser.regDecl (fun r ts => .word ".reg" :: ts = regDeclToks r) := by
  refine reads_bind reads_tyDirective ?_
  rintro t _ ⟨rfl, -⟩
  refine reads_bind reads_word ?_
  rintro name _ ⟨rfl, -⟩
  refine reads_bind reads_regCount ?_
  rintro count _ rfl
  apply reads_isPunct reads_err
  refine reads_bind reads_punct ?_
  rintro _ _ rfl
  exact reads_pure (by simp [regDeclToks])

theorem reads_sharedAlign : Reads pre sharedAlign (fun a ts => ts = alignToks a) := by
  apply reads_peek
  intro t
  split
  · next seen =>
    subst seen
    apply reads_skipSeen
    refine reads_bind reads_int ?_
    rintro v _ ⟨rfl, -⟩
    split
    · next known =>
      have positive : v = v.toNat := by
        have : ∀ a ∈ alignments, 0 ≤ a := by decide
        have := this v known
        omega
      refine reads_pure ?_
      rw [alignToks, positive, intToks_natCast]
      rfl
    · exact reads_err
  · exact reads_pure rfl

theorem reads_sharedElem : Reads pre sharedElem (fun e ts => ts = [.word ("." ++ e)]) := by
  refine reads_bind reads_word ?_
  rintro w _ ⟨rfl, -⟩
  cases stripped : stripDot w with
  | none => exact reads_errBack
  | some e =>
    simp only
    split
    · exact reads_pure (by rw [stripDot_eq stripped]; rfl)
    · exact reads_errBack

theorem reads_sharedCount : Reads pre sharedCount (fun n ts => ts = countToks '[' ']' n) := by
  apply reads_isPunct
  · rw [if_pos rfl]
    apply reads_skipSeen
    apply reads_isPunct
    · exact reads_err
    · rw [if_neg Bool.false_ne_true]
      refine reads_bind reads_int ?_
      rintro v _ ⟨rfl, -⟩
      refine reads_bind reads_punct ?_
      rintro _ _ rfl
      cases fits : toU32 v with
      | none => exact reads_err
      | some n =>
        obtain rfl := toU32_eq fits
        simp only
        split
        · rw [intToks_natCast]
          exact reads_pure rfl
        · exact reads_err
  · exact reads_pure rfl

theorem reads_sharedDecl :
    Reads pre PtxParser.sharedDecl (fun d ts => .word ".shared" :: ts = sharedDeclToks d) := by
  refine reads_bind reads_sharedAlign ?_
  rintro align _ rfl
  refine reads_bind reads_sharedElem ?_
  rintro elem _ rfl
  refine reads_bind reads_word ?_
  rintro name _ ⟨rfl, -⟩
  split
  · exact reads_errBack
  · refine reads_bind reads_sharedCount ?_
    rintro count _ rfl
    apply reads_isPunct reads_err
    apply reads_isPunct reads_err
    refine reads_bind reads_punct ?_
    rintro _ _ rfl
    simp only
    split
    · exact reads_err
    · exact reads_pure (by simp [sharedDeclToks])

/-- The declarations that a loop adds; those before them keep their indices. -/
structure DeclsOf (regs : List RegDecl) (shared : List SharedDecl) (decls : List Decl)
    (out : List RegDecl × List SharedDecl × List Decl) (ts : List Tok) : Prop where
  regs : regs <+: out.1
  shared : shared <+: out.2.1
  decls : ∃ more, out.2.2 = decls ++ more ∧ ts = more.flatMap (declToks out.1 out.2.1)

theorem prefix_snoc_get {α : Type} {xs out : List α} {x : α} (pre : xs ++ [x] <+: out) : out[xs.length]? = some x := by
  obtain ⟨rest, rfl⟩ := pre
  simp

theorem reads_declsLoop (fuel : ℕ) : ∀ {pre : List Tok → Prop} {regs : List RegDecl} {shared : List SharedDecl}
    {decls : List Decl}, Reads pre (declsLoop fuel regs shared decls) (DeclsOf regs shared decls) := by
  induction fuel with
  | zero =>
    intro pre regs shared decls
    exact reads_err
  | succ fuel ih =>
    intro pre regs shared decls
    apply reads_peek
    intro t
    split
    · next seen =>
      subst seen
      apply reads_skipSeen
      refine reads_bind reads_regDecl ?_
      intro r ts read
      refine Reads.weaken ih ?_
      rintro ⟨regs', shared', decls'⟩ us ⟨regsIn, sharedIn, more, rfl, rfl⟩
      refine ⟨(List.prefix_append _ _).trans regsIn, sharedIn, .reg regs.length :: more, by simp, ?_⟩
      simp only [List.flatMap_cons, declToks, prefix_snoc_get regsIn, Option.elim_some, ← read]
      simp
    · split
      · next seen =>
        subst seen
        apply reads_skipSeen
        refine reads_bind reads_sharedDecl ?_
        intro d ts read
        refine Reads.weaken ih ?_
        rintro ⟨regs', shared', decls'⟩ us ⟨regsIn, sharedIn, more, rfl, rfl⟩
        refine ⟨regsIn, (List.prefix_append _ _).trans sharedIn, .shared shared.length :: more, by simp, ?_⟩
        simp only [List.flatMap_cons, declToks, prefix_snoc_get sharedIn, Option.elim_some, ← read]
        simp
      · exact reads_pure ⟨List.prefix_refl _, List.prefix_refl _, [], by simp, rfl⟩

theorem reads_param : Reads pre param (fun p ts => ts = paramToks p) := by
  refine reads_bind reads_keyword ?_
  rintro _ _ rfl
  refine reads_bind reads_tyDirective ?_
  rintro t _ ⟨rfl, -⟩
  split
  · exact reads_err
  · refine reads_bind reads_word ?_
    rintro n _ ⟨rfl, -⟩
    split
    · exact reads_errBack
    · exact reads_pure rfl

theorem reads_paramsLoop (fuel : ℕ) : ∀ {pre : List Tok → Prop} {ps : List (String × Ty)},
    Reads pre (paramsLoop fuel ps) (fun out ts => ∃ more, out = ps ++ more ∧ more ≠ [] ∧ ts = paramsToks more) := by
  induction fuel with
  | zero =>
    intro pre ps
    exact reads_err
  | succ fuel ih =>
    intro pre ps
    refine reads_bind reads_param ?_
    rintro p _ rfl
    apply reads_isPunct
    · rw [if_pos rfl]
      apply reads_skipSeen
      refine ih.weaken ?_
      rintro out us ⟨more, rfl, nonempty, rfl⟩
      obtain ⟨q, more, rfl⟩ := List.exists_cons_of_ne_nil nonempty
      exact ⟨p :: q :: more, by simp, by simp, by simp [paramsToks]⟩
    · exact reads_pure ⟨[p], rfl, by simp, by simp [paramsToks]⟩

theorem reads_params : Reads pre PtxParser.params (fun ps ts => ts = paramsToks ps) := by
  apply reads_isPunct
  · exact reads_pure rfl
  · rw [if_neg Bool.false_ne_true]
    refine reads_bind reads_rounds ?_
    rintro n _ rfl
    refine (reads_paramsLoop n).weaken ?_
    rintro out ts ⟨more, rfl, -, rfl⟩
    rfl
end

/-- The statements and labels that a loop adds, with the number of lines. -/
structure BodyOf (body : List Stmt) (labels : List (String × ℕ)) (count : ℕ)
    (out : List Stmt × List (String × ℕ) × ℕ) (ts : List Tok) : Prop where
  lines : out.2.2 + body.length = count + out.1.length
  added : ∃ more new, out.1 = body ++ more ∧ out.2.1 = labels ++ new ∧
    (∀ l ∈ new, body.length ≤ l.2 ∧ l.2 ≤ out.1.length) ∧ (∀ s ∈ more, FormOk s.instr) ∧
    ts = bodyToks new body.length more ++ [.punct '}']

theorem labelsToks_empty {labels : List (String × ℕ)} {i : ℕ} (later : ∀ l ∈ labels, i < l.2) :
    labelsToks labels i = [] := by
  have none : labels.filter (fun l => l.2 = i) = [] := by
    rw [List.filter_eq_nil_iff]
    intro l member
    have := later l member
    simp only [decide_eq_true_iff]
    omega
  rw [labelsToks, none]
  rfl

theorem bodyToks_skip {w : String} {n : ℕ} {labels : List (String × ℕ)} {more : List Stmt} :
    ∀ {i : ℕ}, n < i → bodyToks ((w, n) :: labels) i more = bodyToks labels i more := by
  have labels_skip {i : ℕ} (after : n < i) : labelsToks ((w, n) :: labels) i = labelsToks labels i := by
    rw [labelsToks, List.filter_cons_of_neg (by simp only [decide_eq_true_iff]; omega), labelsToks]
  induction more with
  | nil =>
    intro i after
    exact labels_skip after
  | cons s more ih =>
    intro i after
    rw [bodyToks, bodyToks, labels_skip after, ih (by omega)]

theorem bodyToks_label {w : String} {n : ℕ} {labels : List (String × ℕ)} {more : List Stmt} :
    bodyToks ((w, n) :: labels) n more = [.word w, .punct ':'] ++ bodyToks labels n more := by
  have first : labelsToks ((w, n) :: labels) n = [.word w, .punct ':'] ++ labelsToks labels n := by
    rw [labelsToks, List.filter_cons_of_pos (by simp), labelsToks]
    rfl
  cases more with
  | nil => exact first
  | cons s more => rw [bodyToks, bodyToks, first, bodyToks_skip (Nat.lt_succ_self n), List.append_assoc, List.append_assoc,
      List.append_assoc]

def stmtsLoop : ℕ → List Stmt → List (String × ℕ) → ℕ → Parser (List Stmt × List (String × ℕ) × ℕ)
  | 0, _, _, _ => err "unexpected end of input"
  | fuel + 1, body, labels, count => do
    let t ← peek
    if t = some (.punct '}') then
      skip 1
      return (body, labels, count)
    else
      let u ← peekSecond
      match t, u with
      | some (.word w), some (.punct ':') =>
        skip 2
        stmtsLoop fuel body (labels ++ [(w, body.length)]) count
      | _, _ =>
        let s ← stmt
        stmtsLoop fuel (body ++ [s]) labels (count + 1)

def countLines (out : List Stmt × List (String × ℕ) × List ℕ) : List Stmt × List (String × ℕ) × ℕ :=
  (out.1, out.2.1, out.2.2.length)

theorem line_bind {α : Type} {x : Parser α} : (line >>= fun _ => x) = x := rfl

theorem bodyLoop_count (fuel : ℕ) : ∀ {body : List Stmt} {labels : List (String × ℕ)} {lines : List ℕ},
    countLines <$> bodyLoop fuel body labels lines = stmtsLoop fuel body labels lines.length := by
  induction fuel with
  | zero =>
    intro body labels lines
    rfl
  | succ fuel ih =>
    intro body labels lines
    rw [bodyLoop, stmtsLoop, map_bind]
    congr 1
    funext t
    split
    · rfl
    · rw [map_bind]
      congr 1
      funext u
      split
      · rw [map_bind]
        simp only [ih]
      · rw [map_bind]
        simp only [map_bind, ih, List.length_append, List.length_singleton]
        exact line_bind

theorem reads_stmtsLoop (fuel : ℕ) : ∀ {pre : List Tok → Prop} {body : List Stmt} {labels : List (String × ℕ)}
    {count : ℕ}, Reads pre (stmtsLoop fuel body labels count) (BodyOf body labels count) := by
  induction fuel with
  | zero =>
    intro pre body labels count
    exact reads_err
  | succ fuel ih =>
    intro pre body labels count
    have statement {pre : List Tok → Prop} : Reads pre (do
        let s ← stmt
        stmtsLoop fuel (body ++ [s]) labels (count + 1)) (BodyOf body labels count) := by
      refine reads_bind reads_stmt ?_
      rintro s _ ⟨rfl, form⟩
      refine ih.weaken ?_
      rintro ⟨b, l, n⟩ us ⟨lines, more, new, rfl, rfl, places, forms, rfl⟩
      simp only [List.length_append, List.length_singleton] at lines places
      refine ⟨by simp only [List.length_append, List.length_singleton]; omega, s :: more, new, by simp, rfl, ?_, ?_, ?_⟩
      · intro m member
        have := places m member
        simp only [List.length_append, List.length_singleton]
        omega
      · rintro s' member
        rcases List.mem_cons.mp member with rfl | member
        · exact form
        · exact forms s' member
      · rw [bodyToks, labelsToks_empty (fun m member => (places m member).1)]
        simp
    apply reads_peek
    intro t
    split
    · next seen =>
      subst seen
      apply reads_skipSeen
      exact reads_pure ⟨by simp, [], [], by simp, by simp, by simp, by simp, by simp [bodyToks, labelsToks]⟩
    · apply reads_peekSecond
      intro u
      split
      · next w noEnd =>
        have label : ([.word w, .punct ':'] : List Tok).length = 2 := rfl
        refine reads_bind (reads_skip label ?_) ?_
        · rintro r ⟨⟨-, first⟩, second⟩
          obtain ⟨tail, rfl⟩ := List.head?_eq_some_iff.mp first
          obtain ⟨tail, rfl⟩ := List.head?_eq_some_iff.mp (by simpa [List.head?_eq_getElem?] using second)
          exact ⟨tail, rfl⟩
        · rintro _ _ rfl
          refine ih.weaken ?_
          rintro ⟨b, l, n⟩ us ⟨lines, more, new, rfl, rfl, places, forms, rfl⟩
          refine ⟨lines, more, (w, body.length) :: new, rfl, by simp, ?_, forms, ?_⟩
          · rintro m member
            rcases List.mem_cons.mp member with rfl | member
            · exact ⟨le_refl _, by simp⟩
            · exact places m member
          · rw [bodyToks_label]
            simp
      · exact statement

theorem reads_bodyThen {α : Type} {pre : List Tok → Prop} {fuel : ℕ} {S : α → List Tok → Prop}
    {f : List Stmt × List (String × ℕ) × List ℕ → Parser α}
    (alike : ∀ b l ls ls' p r, ls.length = b.length → ls'.length = b.length → f (b, l, ls) p = .ok r →
      f (b, l, ls') p = .ok r)
    (then_ : ∀ b l ls ts, ls.length = b.length → BodyOf [] [] 0 (b, l, ls.length) ts →
      Reads anywhere (f (b, l, ls)) (fun c us => S c (ts ++ us))) :
    Reads pre (bodyLoop fuel [] [] [] >>= f) S := by
  have counted (q : P) : (countLines <$> bodyLoop fuel [] [] []) q = stmtsLoop fuel [] [] 0 q :=
    congrFun (bodyLoop_count fuel) q
  have mapped (q : P) : (countLines <$> bodyLoop fuel [] [] []) q =
      (bodyLoop fuel [] [] [] q).map (fun r => (countLines r.1, r.2)) := by
    show (bodyLoop fuel [] [] [] q >>= fun r => pure (countLines r.1, r.2)) = _
    cases bodyLoop fuel [] [] [] q <;> rfl
  intro p c p' holds valid executed
  obtain ⟨⟨b, l, ls⟩, q, loop, tail⟩ := bind_ok executed
  have stmts : stmtsLoop fuel [] [] 0 p = .ok ((b, l, ls.length), q) := by
    rw [← counted, mapped, loop]
    rfl
  obtain ⟨ts, bodyOf, toksQ, posQ, restP, again⟩ := reads_stmtsLoop fuel p _ q holds valid stmts
  have length : ls.length = b.length := by simpa using bodyOf.lines
  obtain ⟨us, both, toksP', posP', restQ, againF⟩ := then_ b l ls ts length bodyOf q c p' trivial
    (fun t member => valid t (by rw [restP]; exact List.mem_append_right ts member)) tail
  refine ⟨ts ++ us, both, toksP'.trans toksQ, ?_, ?_, ?_⟩
  · rw [posP', posQ, List.length_append, Nat.add_assoc]
  · rw [restP, restQ, List.append_assoc]
  · intro r same
    have replayed := again r same
    rw [← counted, mapped] at replayed
    cases loop' : bodyLoop fuel [] [] [] r with
    | error e =>
      rw [loop'] at replayed
      cases replayed
    | ok out =>
      obtain ⟨⟨b', l', ls'⟩, r'⟩ := out
      rw [loop'] at replayed
      obtain ⟨⟨rfl, rfl, count⟩, rfl⟩ : (b' = b ∧ l' = l ∧ ls'.length = ls.length) ∧ r' = ⟨r.toks, q.pos⟩ := by
        simpa [Except.map, countLines] using replayed
      rw [bind_of_ok loop']
      exact alike _ _ _ _ _ _ length (count.trans length) (againF _ ⟨by rw [toksQ]; exact same.1, rfl⟩)

/-- The parser and the type checker agree with every statement of a kernel. -/
structure KernelOk (k : Kernel) : Prop where
  checked : ∃ regs shared, PtxChecker.Checked k regs shared
  forms : ∀ s ∈ k.body, FormOk s.instr
  places : ∀ l ∈ k.labels, l.2 ≤ k.body.length

theorem check_ok_iff {k : Kernel} {lines : List ℕ} {p q : P} (length : lines.length = k.body.length) :
    PtxParser.check k lines p = .ok ((), q) ↔ (∃ regs shared, PtxChecker.Checked k regs shared) ∧ q = p := by
  rw [← PtxChecker.check_iff length, PtxParser.check]
  cases PtxChecker.check k lines with
  | error e => simp
  | ok u => simp [eq_comm]

section
variable {pre : List Tok → Prop}

theorem reads_check {k : Kernel} {lines : List ℕ} (length : lines.length = k.body.length) :
    Reads pre (PtxParser.check k lines)
      (fun _ ts => ts = [] ∧ ∃ regs shared, PtxChecker.Checked k regs shared) := by
  rintro p ⟨⟩ p' - - executed
  obtain ⟨accepted, rfl⟩ := (check_ok_iff length).mp executed
  refine ⟨[], ⟨rfl, accepted⟩, rfl, rfl, rfl, ?_⟩
  rintro ⟨qtoks, qpos⟩ ⟨-, position⟩
  obtain rfl : qpos = p'.pos := position
  exact (check_ok_iff length).mpr ⟨accepted, rfl⟩

theorem reads_entry {visible : Bool} : Reads pre (entry visible)
    (fun k ts => (if visible then [.word ".visible"] else []) ++ ts = kernelToks k ∧ KernelOk k) := by
  refine reads_bind reads_keyword ?_
  rintro _ _ rfl
  refine reads_bind reads_word ?_
  rintro name _ ⟨rfl, -⟩
  refine reads_bind reads_punct ?_
  rintro _ _ rfl
  refine reads_bind reads_params ?_
  rintro ps _ rfl
  refine reads_bind reads_punct ?_
  rintro _ _ rfl
  refine reads_bind reads_punct ?_
  rintro _ _ rfl
  refine reads_bind reads_rounds ?_
  rintro n _ rfl
  refine reads_bind (reads_declsLoop n) ?_
  rintro ⟨regs, shared, decls⟩ _ ⟨-, -, more, rfl, rfl⟩
  refine reads_bind reads_rounds ?_
  rintro n _ rfl
  apply reads_bodyThen
  · intro b l ls ls' p r length length' executed
    obtain ⟨_, q, checked, rest⟩ := bind_ok executed
    obtain ⟨accepted, rfl⟩ := (check_ok_iff length).mp checked
    exact (bind_of_ok ((check_ok_iff length').mpr ⟨accepted, rfl⟩)).trans rest
  · rintro b l ls ts length ⟨-, more, new, rfl, rfl, places, forms, rfl⟩
    refine reads_bind (reads_check length) ?_
    rintro _ _ ⟨rfl, accepted⟩
    refine reads_pure ⟨?_, accepted, by simpa using forms, by simpa using fun w n m => (places (w, n) m).2⟩
    simp [kernelToks]

theorem reads_kernel : Reads pre PtxParser.kernel (fun k ts => ts = kernelToks k ∧ KernelOk k) := by
  apply reads_peek
  intro t
  split
  · next seen =>
    subst seen
    apply reads_skipSeen
    exact reads_entry
  · exact reads_entry.weaken (fun _ _ same => same)

theorem reads_kernelsLoop (fuel : ℕ) : ∀ {pre : List Tok → Prop} {kernels : List Kernel},
    Reads pre (kernelsLoop fuel kernels) (fun out ts => ∃ more, out = kernels ++ more ∧
      ts = more.flatMap kernelToks ∧ ∀ k ∈ more, KernelOk k) := by
  induction fuel with
  | zero =>
    intro pre kernels
    exact reads_err
  | succ fuel ih =>
    intro pre kernels
    apply reads_peek
    intro t
    split
    · refine reads_bind reads_kernel ?_
      rintro k _ ⟨rfl, accepted⟩
      refine ih.weaken ?_
      rintro out us ⟨more, rfl, rfl, all⟩
      refine ⟨k :: more, by simp, by simp, ?_⟩
      rintro k' member
      rcases List.mem_cons.mp member with rfl | member
      · exact accepted
      · exact all k' member
    · exact reads_pure ⟨[], by simp, rfl, by simp⟩

theorem reads_version : Reads pre PtxParser.version (fun v ts => ts = [.num v]) := by
  refine reads_bind reads_next ?_
  rintro t ts ⟨rfl, -⟩
  cases t with
  | num v => exact reads_pure rfl
  | word w => exact reads_err
  | int v => exact reads_err
  | float v w => exact reads_err
  | punct c => exact reads_err

theorem reads_module : Reads pre PtxParser.module
    (fun m ts => ts = moduleToks m ∧ ∀ k ∈ m.kernels, KernelOk k) := by
  refine reads_bind reads_keyword ?_
  rintro _ _ rfl
  refine reads_bind reads_version ?_
  rintro version _ rfl
  refine reads_bind reads_keyword ?_
  rintro _ _ rfl
  refine reads_bind reads_word ?_
  rintro target _ ⟨rfl, -⟩
  apply reads_isPunct reads_err
  refine reads_bind reads_keyword ?_
  rintro _ _ rfl
  refine reads_bind reads_int ?_
  rintro size _ ⟨rfl, -⟩
  split
  · exact reads_err
  · next only =>
    obtain rfl : size = 64 := not_not.mp only
    refine reads_bind reads_rounds ?_
    rintro n _ rfl
    refine reads_bind (reads_kernelsLoop n) ?_
    rintro kernels _ ⟨more, rfl, rfl, all⟩
    split
    · exact reads_err
    · exact reads_pure ⟨by simp [moduleToks, intToks], by simpa using all⟩

end

theorem kernelsLoop_end (fuel : ℕ) : ∀ {kernels out : List Kernel} {p p' : P},
    kernelsLoop fuel kernels p = .ok (out, p') → rest p' = [] := by
  induction fuel with
  | zero =>
    intro kernels out p p' executed
    cases executed
  | succ fuel ih =>
    intro kernels out p p' executed
    obtain ⟨t, q, looked, executed⟩ := bind_ok executed
    obtain ⟨rfl, rfl⟩ : (p.toks[p.pos]?).map Token.tok = t ∧ p = q := Prod.mk.inj (Except.ok.inj looked)
    split at executed
    · obtain ⟨k, q, -, executed⟩ := bind_ok executed
      exact ih executed
    · next ended =>
      obtain ⟨rfl, rfl⟩ : kernels = out ∧ p = p' := Prod.mk.inj (Except.ok.inj executed)
      simpa [rest, toks] using ended

theorem module_end {m : Module} {p p' : P} (executed : PtxParser.module p = .ok (m, p')) : rest p' = [] := by
  obtain ⟨_, _, -, executed⟩ := bind_ok executed
  obtain ⟨_, _, -, executed⟩ := bind_ok executed
  obtain ⟨_, _, -, executed⟩ := bind_ok executed
  obtain ⟨_, _, -, executed⟩ := bind_ok executed
  obtain ⟨_, _, -, executed⟩ := bind_ok executed
  split at executed
  · cases executed
  · obtain ⟨_, _, -, executed⟩ := bind_ok executed
    obtain ⟨_, _, -, executed⟩ := bind_ok executed
    split at executed
    · cases executed
    · obtain ⟨_, _, -, executed⟩ := bind_ok executed
      obtain ⟨_, q, loop, executed⟩ := bind_ok executed
      split at executed
      · cases executed
      · obtain ⟨-, rfl⟩ := Prod.mk.inj (Except.ok.inj executed)
        exact kernelsLoop_end _ loop

theorem parseModule_reads {src : String} {m : Module} (accepted : parseModule src = .ok m) :
    (∃ ts, lex src = .ok ts ∧ toks ts = moduleToks m) ∧ (∀ t ∈ moduleToks m, Valid t) ∧
      (∀ k ∈ m.kernels, KernelOk k) ∧
      ∀ {again : String} {us : List Token}, lex again = .ok us → toks us = moduleToks m →
        parseModule again = .ok m := by
  unfold parseModule at accepted
  cases lexed : lex src with
  | error e =>
    rw [lexed] at accepted
    cases accepted
  | ok ts =>
    rw [lexed] at accepted
    simp only at accepted
    cases result : PtxParser.module ⟨ts, 0⟩ with
    | error e =>
      rw [result] at accepted
      cases accepted
    | ok r =>
      obtain ⟨m', p'⟩ := r
      obtain rfl : m' = m := by
        rw [result] at accepted
        exact Except.ok.inj accepted
      have start : rest ⟨ts, 0⟩ = toks ts := rfl
      have valid : ∀ t ∈ rest ⟨ts, 0⟩, Valid t := by
        rw [start]
        intro t member
        obtain ⟨token, inside, rfl⟩ := List.mem_map.mp member
        exact lex_valid lexed token inside
      obtain ⟨us, ⟨rfl, all⟩, -, -, split, replays⟩ := @reads_module anywhere _ _ _ trivial valid result
      have whole : toks ts = moduleToks m' := by
        rw [← start, split, module_end result, List.append_nil]
      refine ⟨⟨ts, rfl, whole⟩, ?_, all, ?_⟩
      · rw [← whole]
        exact valid
      · intro again us lexed' same
        rw [parseModule, lexed']
        simp only
        rw [replays ⟨us, 0⟩ ⟨same.trans whole.symm, rfl⟩]
        rfl

end E5r.PtxModuleReads
