import E5r.PtxModuleReads
import E5r.PtxNumerals

/-!
The printing of an accepted module has the tokens of the source, so it is read
back as the same module.
-/
namespace E5r.PtxRoundTrip
open PtxSyntax PtxLexer PtxForms
open PtxParser (parseModule)

inductive RoundTripError where
  | parse (e : PtxParser.Error)
  | lex (e : LexError)
  /-- `round trip: token {i} differs: source {a}, printed {b}` -/
  | token (i : ℕ) (a b : Option Tok)
  /-- `round trip: printed text: {e}` -/
  | printed (e : PtxParser.Error)
  /-- `round trip: printed text parses to a different module` -/
  | different

/-- Parse a text and check that the canonical printing has the same tokens and
    parses to the same module. -/
def roundtrip (src : String) : Except RoundTripError Module := do
  let m ← (parseModule src).mapError .parse
  let printed := PtxPrinter.module m
  let a ← (lex src).mapError .lex
  let b ← (lex printed).mapError .lex
  let a := toks a
  let b := toks b
  match (List.range (max a.length b.length)).find? (fun i => a[i]? ≠ b[i]?) with
  | some i => .error (.token i a[i]? b[i]?)
  | none =>
    let again ← (parseModule printed).mapError .printed
    if again ≠ m then .error .different else .ok m

/-- A text lexes to these tokens before whatever does not continue its last one. -/
def Piece (s : String) (ts : List Tok) : Prop :=
  ∀ cs us, Boundary cs → Lexes cs us → Lexes (s.toList ++ cs) (ts ++ us)

/-- A text lexes to these tokens before any other text. -/
def Closed (s : String) (ts : List Tok) : Prop := ∀ cs us, Lexes cs us → Lexes (s.toList ++ cs) (ts ++ us)

/-- Blanks and punctuation. -/
def isMarks (s : String) : Bool := s.toList.all (fun c => isPunctuation c || RustText.isWhitespace c)

def marks (s : String) : List Tok := (s.toList.filter isPunctuation).map Tok.punct

section
variable {s s' : String} {ts ts' : List Tok}

theorem Closed.piece (closed : Closed s ts) : Piece s ts := fun cs us _ rest => closed cs us rest

theorem Closed.append (first : Closed s ts) (second : Closed s' ts') : Closed (s ++ s') (ts ++ ts') := by
  intro cs us rest
  rw [String.toList_append, List.append_assoc, List.append_assoc]
  exact first _ _ (second _ _ rest)

theorem Closed.appendPiece (first : Closed s ts) (second : Piece s' ts') : Piece (s ++ s') (ts ++ ts') := by
  intro cs us stop rest
  rw [String.toList_append, List.append_assoc, List.append_assoc]
  exact first _ _ (second _ _ stop rest)

theorem closed_empty : Closed "" [] := fun _ _ rest => rest

theorem closed_marks (s : String) (all : isMarks s = true) : Closed s (marks s) := by
  intro cs us rest
  unfold isMarks at all
  unfold marks
  generalize s.toList = text at all ⊢
  induction text with
  | nil => exact rest
  | cons c chars ih =>
    rw [List.all_cons, Bool.and_eq_true, Bool.or_eq_true] at all
    obtain ⟨mark, all⟩ := all
    have tail := ih all
    by_cases punct : isPunctuation c = true
    · rw [List.filter_cons_of_pos punct]
      exact Lexes.punct punct tail
    · rw [List.filter_cons_of_neg punct]
      exact Lexes.space (mark.resolve_left punct) tail

/-- What ends every word and literal. -/
def Stops (s : String) : Bool :=
  match s.toList with
  | [] => false
  | c :: _ => !wordChar c

theorem Piece.append (first : Piece s ts) (stops : Stops s' = true) (second : Closed s' ts') :
    Closed (s ++ s') (ts ++ ts') := by
  intro cs us rest
  rw [String.toList_append, List.append_assoc, List.append_assoc]
  apply first
  · intro c head
    unfold Stops at stops
    cases text : s'.toList with
    | nil =>
      rw [text] at stops
      contradiction
    | cons d chars =>
      rw [text] at stops head
      obtain rfl : d = c := by simpa using head
      simpa using stops
  · exact second _ _ rest

theorem Piece.marks (first : Piece s ts) (s' : String) (ends : (Stops s' && isMarks s') = true) :
    Closed (s ++ s') (ts ++ marks s') := by
  rw [Bool.and_eq_true] at ends
  exact first.append ends.1 (closed_marks s' ends.2)

theorem closed_join {α : Type} {xs : List α} {f : α → String} {g : α → List Tok} (each : ∀ x ∈ xs, Closed (f x) (g x)) :
    Closed (String.join (xs.map f)) (xs.flatMap g) := by
  induction xs with
  | nil => exact closed_empty
  | cons x xs ih =>
    rw [List.map_cons, String.join_cons, List.flatMap_cons]
    exact (each x List.mem_cons_self).append (ih fun y member => each y (List.mem_cons_of_mem x member))
end

theorem piece_word {w : String} (valid : Valid (.word w)) : Piece w [.word w] := by
  intro cs us stop rest
  have isWord : IsWord w.toList := valid
  have lexes := Lexes.word isWord stop rest
  rwa [String.ofList_toList] at lexes

theorem piece_num {v : String} (valid : Valid (.num v)) : Piece v [.num v] := by
  intro cs us stop rest
  obtain ⟨isNumber, literal⟩ : IsNumber v.toList ∧ literal v.toList = .num v := valid
  have lexes := Lexes.number isNumber stop rest
  rwa [literal] at lexes

theorem toString_toList {n : ℕ} : (toString n).toList = Nat.toDigits 10 n := Nat.toList_repr

theorem piece_nat {n : ℕ} (valid : Valid (.int n)) : Piece (toString n) [.int n] := by
  intro cs us stop rest
  have small : n < 2 ^ 127 := by
    have : (n : ℤ) < 2 ^ 127 := valid.2
    exact_mod_cast this
  have lexes := Lexes.number (PtxNumerals.isNumber_decimal n) stop rest
  rwa [PtxNumerals.literal_decimal small, ← toString_toList] at lexes

theorem piece_int {v : ℤ} (valid : ∀ t ∈ intToks v, Valid t) : Piece (toString v) (intToks v) := by
  unfold intToks at valid ⊢
  cases v with
  | ofNat n =>
    rw [if_neg (by simp)] at valid ⊢
    exact piece_nat (n := n) (valid _ List.mem_cons_self)
  | negSucc n =>
    rw [if_pos (Int.negSucc_lt_zero n)] at valid ⊢
    have digits : Piece (toString (n + 1)) [.int (-Int.negSucc n)] :=
      piece_nat (n := n + 1) (valid _ (List.mem_cons_of_mem _ List.mem_cons_self))
    exact (closed_marks "-" (by decide)).appendPiece digits

theorem piece_operand {o : Operand} (valid : ∀ t ∈ operandToks o, Valid t) :
    Piece (PtxPrinter.operand o) (operandToks o) := by
  cases o with
  | reg r => exact piece_word (valid _ List.mem_cons_self)
  | imm v => exact piece_int valid
  | sreg s => exact piece_word (valid _ List.mem_cons_self)
  | sym n => exact piece_word (valid _ List.mem_cons_self)
  | fimm v w =>
    have widths : (w = 32 ∧ v.toNat < 2 ^ 32) ∨ w = 64 := valid _ List.mem_cons_self
    intro cs us stop rest
    rcases widths with ⟨rfl, fits⟩ | rfl
    · have lexes := Lexes.number (@PtxNumerals.isNumber_hex 'f' 8 v.toNat (by decide)) stop rest
      rw [PtxNumerals.literal_float fits] at lexes
      simpa [operandToks, PtxPrinter.operand, PtxPrinter.hexUpper, PtxNumerals.hexDigits] using lexes
    · have lexes := Lexes.number (@PtxNumerals.isNumber_hex 'd' 16 v.toNat (by decide)) stop rest
      rw [PtxNumerals.literal_double] at lexes
      simpa [operandToks, PtxPrinter.operand, PtxPrinter.hexUpper, PtxNumerals.hexDigits] using lexes

theorem piece_address {a : Address} (valid : ∀ t ∈ addressToks a, Valid t) :
    Piece (PtxPrinter.address a) (addressToks a) := by
  have written {n : String} {off : Option ℤ} (valid : ∀ t ∈ addressToks (.reg n off), Valid t) :
      Piece (PtxPrinter.address (.reg n off)) (addressToks (.reg n off)) := by
    have name : Piece ("[" ++ n) [.punct '[', .word n] :=
      (closed_marks "[" (by decide)).appendPiece (piece_word (valid _ (by simp [addressToks])))
    cases off with
    | none => exact (name.marks "]" (by decide)).piece
    | some v =>
      have number : Piece (toString v) (intToks v) :=
        piece_int fun t member => valid t (by simp [addressToks, offsetToks, member])
      have offset := ((name.marks "+" (by decide)).appendPiece number).marks "]" (by decide)
      refine Closed.piece ?_
      simpa [PtxPrinter.address, addressToks, offsetToks, marks, isPunctuation] using offset
  cases a with
  | reg n off => exact written valid
  | param n off => exact @written n off valid

theorem piece_arg {a : Arg} (valid : ∀ t ∈ a.toks, Valid t) : Piece a.text a.toks := by
  cases a with
  | name n => exact piece_word (valid _ List.mem_cons_self)
  | operand o => exact piece_operand valid
  | address a => exact piece_address valid

def commaText : List Arg → String
  | [] => ""
  | [a] => a.text
  | a :: rest => a.text ++ ", " ++ commaText rest

theorem piece_commaText {as : List Arg} (valid : ∀ t ∈ commaToks as, Valid t) : Piece (commaText as) (commaToks as) := by
  induction as with
  | nil => exact closed_empty.piece
  | cons a rest ih =>
    cases rest with
    | nil => exact piece_arg valid
    | cons b rest =>
      rw [commaToks] at valid
      · have first : Piece a.text a.toks := piece_arg fun t member => valid t (by simp [member])
        have others := ih fun t member => valid t (by simp [member])
        have both := (first.marks ", " (by decide)).appendPiece others
        simpa [commaText, commaToks, marks, isPunctuation] using both
      · simp

def argsText : List Arg → String
  | [] => ""
  | as => " \t" ++ commaText as

@[simp] theorem joinDot_one {p : String} : joinDot [p] = p := by simp [joinDot]

@[simp] theorem joinDot_cons {p q : String} {rest : List String} :
    joinDot (p :: q :: rest) = p ++ "." ++ joinDot (q :: rest) := by
  rw [← String.toList_inj]
  simp [joinDot]

theorem mods_text {ftz sat nan : Bool} {opc last : String} {rest : List String} :
    joinDot (opc :: (modParts ftz sat nan ++ last :: rest)) =
      opc ++ PtxPrinter.mods ftz sat ++ (if nan then ".NaN" else "") ++ "." ++ joinDot (last :: rest) := by
  rw [← String.toList_inj]
  cases ftz <;> cases sat <;> cases nan <;> simp [modParts, PtxPrinter.mods]

theorem cvtRnd_text {r : CvtRnd} {parts : List String} :
    joinDot ("cvt" :: (cvtRndParts r ++ parts)) = joinDot (("cvt" ++ PtxPrinter.cvtRnd r) :: parts) := by
  have join {p q : String} : joinDot (p :: q :: parts) = joinDot ((p ++ "." ++ q) :: parts) := by
    cases parts with
    | nil => simp
    | cons part parts => simp [String.append_assoc]
  cases r with
  | none => rfl
  | f m => exact join.trans (by simp only [PtxPrinter.cvtRnd, String.append_assoc])
  | i m => exact join.trans (by simp only [PtxPrinter.cvtRnd, String.append_assoc])

theorem bin_text {op : BinOp} {last : String} : joinDot (binParts op ++ [last]) = op.opcode ++ "." ++ last := by
  unfold binParts
  split
  · rw [← String.toList_inj]
    simp [BinOp.opcode]
  · rw [← String.toList_inj]
    simp [BinOp.opcode]
  · rw [List.singleton_append, joinDot_cons, joinDot_one]

theorem instr_eq {i : Instr} : PtxPrinter.instr i = joinDot (opParts i) ++ argsText (args i) := by
  rw [← String.toList_inj]
  cases i with
  | bin op t d a b => simp [PtxPrinter.instr.eq_def, opParts, bin_text, args, argsText, commaText, Arg.text]
  | bra uni l => cases uni <;> simp [PtxPrinter.instr.eq_def, opParts, args, argsText, commaText, Arg.text]
  | bar => rfl
  | _ => simp [PtxPrinter.instr.eq_def, opParts, args, argsText, commaText, Arg.text, mods_text, cvtRnd_text]

theorem piece_instr {i : Instr} (valid : ∀ t ∈ instrToks i, Valid t) : Piece (PtxPrinter.instr i) (instrToks i) := by
  rw [instr_eq]
  have opcode : Piece (joinDot (opParts i)) [.word (joinDot (opParts i))] := piece_word (valid _ List.mem_cons_self)
  have arguments : Piece (commaText (args i)) (commaToks (args i)) :=
    piece_commaText fun t member => valid t (List.mem_cons_of_mem _ member)
  rw [instrToks]
  cases written : args i with
  | nil =>
    rw [argsText, String.append_empty]
    exact opcode
  | cons a as =>
    rw [written] at arguments
    have both := (opcode.marks " \t" (by decide)).appendPiece arguments
    rw [String.append_assoc] at both
    exact both

theorem closed_guard {g : Option Guard} (valid : ∀ t ∈ guardToks g, Valid t) :
    Closed (PtxPrinter.guard g) (guardToks g) := by
  match g with
  | none => exact closed_empty
  | some ⟨pred, false⟩ =>
    have name : Piece pred [.word pred] := piece_word (valid _ (by simp [guardToks]))
    exact ((closed_marks "@" (by decide)).appendPiece name).marks " " (by decide)
  | some ⟨pred, true⟩ =>
    have name : Piece pred [.word pred] := piece_word (valid _ (by simp [guardToks]))
    exact ((closed_marks "@!" (by decide)).appendPiece name).marks " " (by decide)

theorem closed_stmt {s : Stmt} (valid : ∀ t ∈ stmtToks s, Valid t) :
    Closed ("\t" ++ PtxPrinter.guard s.guard ++ PtxPrinter.instr s.instr ++ ";\n") (stmtToks s) := by
  have guarded := @closed_guard s.guard fun t member => valid t (by simp [stmtToks, member])
  have instruction := @piece_instr s.instr fun t member => valid t (by simp [stmtToks, member])
  have first := (closed_marks "\t" (by decide)).append guarded
  exact (first.appendPiece instruction).marks ";\n" (by decide)

theorem closed_labelsAt {labels : List (String × ℕ)} {i : ℕ} (valid : ∀ t ∈ labelsToks labels i, Valid t) :
    Closed (PtxPrinter.labelsAt labels i) (labelsToks labels i) := by
  apply closed_join
  intro l member
  have name : Piece l.1 [.word l.1] :=
    piece_word (valid _ (List.mem_flatMap.mpr ⟨l, member, List.mem_cons_self⟩))
  exact name.marks ":\n" (by decide)

theorem closed_body {labels : List (String × ℕ)} {stmts : List Stmt} :
    ∀ {i : ℕ}, (∀ t ∈ bodyToks labels i stmts, Valid t) →
      Closed (PtxPrinter.body labels i stmts) (bodyToks labels i stmts) := by
  induction stmts with
  | nil =>
    intro i valid
    exact closed_labelsAt valid
  | cons s rest ih =>
    intro i valid
    have labelled := @closed_labelsAt labels i fun t member => valid t (by simp [bodyToks, member])
    have statement := @closed_stmt s fun t member => valid t (by simp [bodyToks, member])
    have others := @ih (i + 1) fun t member => valid t (by simp [bodyToks, member])
    have all := (labelled.append statement).append others
    simpa only [PtxPrinter.body, bodyToks, String.append_assoc] using all

def countText (left right : String) : Option ℕ → String
  | none => ""
  | some n => left ++ toString n ++ right

theorem piece_count {s : String} {ts : List Tok} {left right : String} {n : Option ℕ} {l r : Char} (first : Piece s ts)
    (valid : ∀ t ∈ countToks l r n, Valid t) (opens : (Stops left && isMarks left) = true ∧ marks left = [.punct l])
    (closes : (Stops right && isMarks right) = true ∧ marks right = [.punct r]) :
    Piece (s ++ countText left right n) (ts ++ countToks l r n) := by
  cases n with
  | none =>
    rw [countText, countToks, String.append_empty, List.append_nil]
    exact first
  | some n =>
    have number : Piece (toString n) [.int n] := piece_nat (valid _ (by simp [countToks]))
    have all := (((first.marks left opens.1).appendPiece number).marks right closes.1).piece
    rw [opens.2, closes.2] at all
    simpa [countText, countToks, String.append_assoc] using all

theorem closed_regDecl {r : RegDecl} (valid : ∀ t ∈ regDeclToks r, Valid t) :
    Closed (PtxPrinter.regDecl r) (regDeclToks r) := by
  have text : PtxPrinter.regDecl r =
      "\t" ++ ".reg" ++ " " ++ ("." ++ r.ty.name) ++ " \t" ++ r.name ++ countText "<" ">" r.count ++ ";\n" := by
    rw [← String.toList_inj]
    cases count : r.count <;> simp [PtxPrinter.regDecl, count, countText]
  have directive : Piece ".reg" [.word ".reg"] := piece_word (valid _ (by simp [regDeclToks]))
  have type : Piece ("." ++ r.ty.name) [.word ("." ++ r.ty.name)] := piece_word (valid _ (by simp [regDeclToks]))
  have name : Piece r.name [.word r.name] := piece_word (valid _ (by simp [regDeclToks]))
  have head := ((closed_marks "\t" (by decide)).appendPiece directive).marks " " (by decide)
  have typed := (head.appendPiece type).marks " \t" (by decide)
  have counted : Piece _ _ := @piece_count _ _ "<" ">" r.count '<' '>' (typed.appendPiece name)
    (fun t member => valid t (by simp [regDeclToks, member])) (by decide) (by decide)
  rw [text]
  exact counted.marks ";\n" (by decide)

theorem closed_sharedDecl {d : SharedDecl} (valid : ∀ t ∈ sharedDeclToks d, Valid t) :
    Closed ("\t" ++ PtxPrinter.sharedDecl d ++ "\n") (sharedDeclToks d) := by
  have text : "\t" ++ PtxPrinter.sharedDecl d ++ "\n" = "\t" ++ ".shared" ++ " " ++
      (match d.align with
      | none => ""
      | some a => ".align" ++ " " ++ toString a ++ " ") ++
      (("." ++ d.elem) ++ " " ++ d.name ++ countText "[" "]" d.count ++ ";\n") := by
    have words : PtxPrinter.sharedDecl d = ".shared" ++ " " ++ (match d.align with
        | some a => ".align" ++ " " ++ toString a ++ " "
        | none => "") ++ "." ++ d.elem ++ " " ++ d.name ++ (match d.count with
        | some n => "[" ++ toString n ++ "]"
        | none => "") ++ ";" := rfl
    rw [words]
    cases align : d.align <;> cases count : d.count <;>
      simp only [countText, String.append_assoc, String.append_empty, String.empty_append] <;> rfl
  have directive : Piece ".shared" [.word ".shared"] := piece_word (valid _ (by simp [sharedDeclToks]))
  have head := ((closed_marks "\t" (by decide)).appendPiece directive).marks " " (by decide)
  have aligned : Closed (match d.align with
      | none => ""
      | some a => ".align" ++ " " ++ toString a ++ " ") (alignToks d.align) := by
    cases align : d.align with
    | none => exact closed_empty
    | some a =>
      have keyword : Piece ".align" [.word ".align"] := piece_word (valid _ (by simp [sharedDeclToks, alignToks, align]))
      have number : Piece (toString a) [.int a] := piece_nat (valid _ (by simp [sharedDeclToks, alignToks, align]))
      exact ((keyword.marks " " (by decide)).appendPiece number).marks " " (by decide)
  have element : Piece ("." ++ d.elem) [.word ("." ++ d.elem)] := piece_word (valid _ (by simp [sharedDeclToks]))
  have name : Piece d.name [.word d.name] := piece_word (valid _ (by simp [sharedDeclToks]))
  have counted : Piece _ _ := @piece_count _ _ "[" "]" d.count '[' ']'
    ((element.marks " " (by decide)).appendPiece name)
    (fun t member => valid t (by simp [sharedDeclToks, member])) (by decide) (by decide)
  have all := (head.append aligned).append (counted.marks ";\n" (by decide))
  rw [text]
  simpa [sharedDeclToks, marks, isPunctuation, RustText.isWhitespace] using all

theorem closed_decl {k : Kernel} {d : Decl} (valid : ∀ t ∈ declToks k.regs k.shared d, Valid t) :
    Closed (PtxPrinter.decl k d) (declToks k.regs k.shared d) := by
  cases d with
  | reg i =>
    rw [declToks] at valid ⊢
    rw [PtxPrinter.decl]
    cases found : k.regs[i]? with
    | none => exact closed_empty
    | some r =>
      rw [found] at valid
      exact closed_regDecl valid
  | shared i =>
    rw [declToks] at valid ⊢
    rw [PtxPrinter.decl]
    cases found : k.shared[i]? with
    | none => exact closed_empty
    | some d =>
      rw [found] at valid
      exact closed_sharedDecl valid

theorem closed_params {ps : List (String × Ty)} (valid : ∀ t ∈ paramsToks ps, Valid t) :
    Closed (PtxPrinter.params ps) (paramsToks ps) := by
  have one {n : String} {t : Ty} (valid : ∀ u ∈ paramToks (n, t), Valid u) :
      Piece ("\t" ++ ".param" ++ " " ++ ("." ++ t.name) ++ " " ++ n) (paramToks (n, t)) := by
    have directive : Piece ".param" [.word ".param"] := piece_word (valid _ (by simp [paramToks]))
    have type : Piece ("." ++ t.name) [.word ("." ++ t.name)] := piece_word (valid _ (by simp [paramToks]))
    have name : Piece n [.word n] := piece_word (valid _ (by simp [paramToks]))
    have head := ((closed_marks "\t" (by decide)).appendPiece directive).marks " " (by decide)
    exact ((head.appendPiece type).marks " " (by decide)).appendPiece name
  induction ps with
  | nil => exact closed_empty
  | cons p rest ih =>
    obtain ⟨n, t⟩ := p
    cases rest with
    | nil =>
      have text : PtxPrinter.params [(n, t)] = "\t" ++ ".param" ++ " " ++ ("." ++ t.name) ++ " " ++ n ++ "\n" := by
        rw [← String.toList_inj]
        simp [PtxPrinter.params]
      rw [text]
      have all := (one valid).marks "\n" (by decide)
      rwa [show marks "\n" = [] by decide, List.append_nil] at all
    | cons q rest =>
      have text : PtxPrinter.params ((n, t) :: q :: rest) =
          "\t" ++ ".param" ++ " " ++ ("." ++ t.name) ++ " " ++ n ++ ",\n" ++ PtxPrinter.params (q :: rest) := by
        rw [← String.toList_inj]
        simp [PtxPrinter.params]
      have first := @one n t fun u member => valid u (by simp [paramsToks, member])
      have others := ih fun u member => valid u (by simp [paramsToks, member])
      rw [text]
      have all := (first.marks ",\n" (by decide)).append others
      rw [paramsToks]
      · simpa [marks, isPunctuation, RustText.isWhitespace] using all
      · simp

theorem closed_kernel {k : Kernel} (valid : ∀ t ∈ kernelToks k, Valid t) :
    Closed (PtxPrinter.kernel k) (kernelToks k) := by
  have visible : Closed ("\n" ++ (if k.visible then ".visible " else "")) (if k.visible then [.word ".visible"] else []) := by
    cases seen : k.visible with
    | false => exact closed_marks "\n" (by decide)
    | true =>
      have keyword : Piece ".visible" [.word ".visible"] := piece_word (valid _ (by simp [kernelToks, seen]))
      exact ((closed_marks "\n" (by decide)).appendPiece keyword).marks " " (by decide)
  have entry : Piece ".entry" [.word ".entry"] := piece_word (valid _ (by simp [kernelToks]))
  have name : Piece k.name [.word k.name] := piece_word (valid _ (by simp [kernelToks]))
  have params := @closed_params k.params fun t member => valid t (by simp [kernelToks, member])
  have decls : Closed (String.join (k.decls.map (PtxPrinter.decl k))) (k.decls.flatMap (declToks k.regs k.shared)) := by
    apply closed_join
    intro d member
    exact closed_decl fun t inside => valid t (by
      simp only [kernelToks, List.mem_append, List.mem_flatMap]
      exact .inl (.inl (.inr ⟨d, member, inside⟩)))
  have body := @closed_body k.labels k.body 0 fun t member => valid t (by simp [kernelToks, member])
  have head := ((visible.append (entry.marks " " (by decide))).appendPiece name).marks "(\n" (by decide)
  have opened := (head.append params).append (closed_marks ")\n\x7b\n" (by decide))
  have declared := (opened.append decls).append (closed_marks "\n" (by decide))
  have all := (declared.append body).append (closed_marks "\x7d\n" (by decide))
  have text : PtxPrinter.kernel k = "\n" ++ (if k.visible then ".visible " else "") ++ (".entry" ++ " ") ++ k.name ++
      "(\n" ++ PtxPrinter.params k.params ++ ")\n\x7b\n" ++ String.join (k.decls.map (PtxPrinter.decl k)) ++ "\n" ++
      PtxPrinter.body k.labels 0 k.body ++ "\x7d\n" := by
    simp only [PtxPrinter.kernel, String.append_assoc]
    rfl
  rw [text]
  simpa [kernelToks, marks, isPunctuation] using all

theorem lexes_module {m : Module} (valid : ∀ t ∈ moduleToks m, Valid t) :
    Lexes (PtxPrinter.module m).toList (moduleToks m) := by
  have version : Piece ".version" [.word ".version"] := piece_word (valid _ (by simp [moduleToks]))
  have number : Piece m.version [.num m.version] := piece_num (valid _ (by simp [moduleToks]))
  have target : Piece ".target" [.word ".target"] := piece_word (valid _ (by simp [moduleToks]))
  have name : Piece m.target [.word m.target] := piece_word (valid _ (by simp [moduleToks]))
  have addressSize : Piece ".address_size" [.word ".address_size"] := piece_word (valid _ (by simp [moduleToks]))
  have size : Piece (toString m.addressSize) [.int m.addressSize] := piece_nat (valid _ (by simp [moduleToks]))
  have kernels : Closed (String.join (m.kernels.map PtxPrinter.kernel)) (m.kernels.flatMap kernelToks) := by
    apply closed_join
    intro k member
    exact closed_kernel fun t inside => valid t (by
      simp only [moduleToks, List.mem_append, List.mem_flatMap]
      exact .inr ⟨k, member, inside⟩)
  have first := (((version.marks " " (by decide)).appendPiece number).marks "\n" (by decide))
  have second := (((target.marks " " (by decide)).appendPiece name).marks "\n" (by decide))
  have third := (((addressSize.marks " " (by decide)).appendPiece size).marks "\n" (by decide))
  have all := ((first.append second).append third).append kernels
  have text : PtxPrinter.module m = ".version" ++ " " ++ m.version ++ "\n" ++ (".target" ++ " " ++ m.target ++ "\n") ++
      (".address_size" ++ " " ++ toString m.addressSize ++ "\n") ++ String.join (m.kernels.map PtxPrinter.kernel) := by
    have words : PtxPrinter.module m = ".version" ++ " " ++ m.version ++ "\n" ++ (".target" ++ " ") ++ m.target ++ "\n" ++
        (".address_size" ++ " ") ++ toString m.addressSize ++ "\n" ++ String.join (m.kernels.map PtxPrinter.kernel) := rfl
    rw [words]
    simp only [String.append_assoc]
  have lexes := all [] [] lexes_nil
  rw [← text, List.append_nil, List.append_nil] at lexes
  simpa [moduleToks, marks, isPunctuation, RustText.isWhitespace] using lexes

/-- An accepted text and the printing of its module have the same tokens, the
    printing is read as the same module, and `roundtrip` accepts the text. -/
theorem roundtrip_accepted {src : String} {m : Module} (accepted : parseModule src = .ok m) :
    (∃ ts us, lex src = .ok ts ∧ lex (PtxPrinter.module m) = .ok us ∧ toks us = toks ts) ∧
      parseModule (PtxPrinter.module m) = .ok m ∧ roundtrip src = .ok m := by
  obtain ⟨⟨ts, lexed, tokens⟩, valid, -, replays⟩ := PtxModuleReads.parseModule_reads accepted
  obtain ⟨us, printed, same⟩ := (lexes_module valid).lex
  have again := replays printed same
  refine ⟨⟨ts, us, lexed, printed, same.trans tokens.symm⟩, again, ?_⟩
  have equal : toks us = toks ts := same.trans tokens.symm
  have noDifference : (List.range (max (toks ts).length (toks us).length)).find?
      (fun i => (toks ts)[i]? ≠ (toks us)[i]?) = none := by
    rw [equal]
    simp
  simp only [roundtrip, accepted, lexed, printed, Except.mapError, bind, Except.bind, noDifference, again]
  simp

/-- A kernel with interleaved declarations, a label at its end, negative
    literals and a float form. -/
def sampleText : String :=
  "// sample\n.version 8.5\n.target sm_80\n.address_size 64\n.visible .entry add(.param .u64 out, .param .u32 n) \x7b\n" ++
  ".reg .b32 %r<3>; .shared .align 8 .b32 tile[4]; .reg .b64 %rd; .reg .pred %p; .reg .f32 %f;\n" ++
  "mov.u32 %r0, -0x10; /* block\ncomment */ ld.param.u64 %rd, [out]; setp.lt.s32 %p, %r0, 5;\n" ++
  "mov.f32 %f, 0f3f800000; add.rn.ftz.f32 %f, %f, 0f40000000; @!%p bra end;\n" ++
  "loop: st.global.u32 [%rd+-4], %r0; bra.uni loop; end: \x7d\n"

theorem toList_parts {a b c d e : List Char} {s : String}
    (written : s = .ofList a ++ .ofList b ++ .ofList c ++ .ofList d ++ .ofList e) : s.toList = a ++ b ++ c ++ d ++ e := by
  rw [written]
  simp only [String.toList_append, String.toList_ofList]

theorem roundtrip_sample : ∃ m, parseModule sampleText = .ok m ∧ roundtrip sampleText = .ok m := by
  have accepted : (parseModule sampleText).isOk = true := by
    have chars := @toList_parts _ _ _ _ _ sampleText rfl
    rw [PtxParser.parseModule_chars chars]
    decide +kernel
  cases result : parseModule sampleText with
  | error e =>
    rw [result] at accepted
    contradiction
  | ok m => exact ⟨m, rfl, (roundtrip_accepted result).2.2⟩

end E5r.PtxRoundTrip
