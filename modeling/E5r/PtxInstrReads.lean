import E5r.PtxReads

/-!
The instructions and statements that the parser reads. An instruction's parts
and arguments are those of its tokens, and its types have the form that the
parser checks before the type checker sees it.
-/
namespace E5r.PtxInstrReads
open PtxSyntax PtxLexer PtxParser PtxForms PtxReads

/-- What the parser itself checks of an instruction: its types are not `.pred`,
    a float form has a float type, and only a load has the parameter space. -/
def FormOk : Instr → Prop
  | .bin _ t .. | .madLo t .. | .not t .. | .mov t .. | .setp _ t .. | .selp t .. | .ld _ t .. => t ≠ .pred
  | .cvt dt st .. => dt ≠ .pred ∧ st ≠ .pred
  | .st sp t .. | .atom sp _ t .. | .cas sp t .. => t ≠ .pred ∧ sp ≠ .param
  | .red sp o t .. => t ≠ .pred ∧ sp ≠ .param ∧ o ≠ .exch
  | .fbin _ _ _ _ t .. | .ffma _ _ _ t .. | .fsqrt _ _ t .. | .frcp _ _ t .. | .fneg _ t .. | .fabs _ t ..
  | .fminmax _ _ _ t .. | .fsetp _ _ t .. => t.isFloat = true
  | .cvtF dt st r .. => cvtForm dt st r = true
  | .cvtaGlobal .. | .bra .. | .ret | .exit | .bar => True

def InstrOf (parts : List String) (i : Instr) (ts : List Tok) : Prop :=
  opParts i = parts ∧ ts = commaToks (args i) ∧ FormOk i

section
variable {β : Type} {pre : List Tok → Prop} {S : β → List Tok → Prop} {op s : String}

theorem reads_tyThen {f : Ty → Parser β} (then_ : ∀ t, t.name = s → t ≠ .pred → Reads anywhere (f t) S) :
    Reads pre (ty op s >>= f) S := by
  have reads : Reads pre (ty op s) (fun t ts => ts = [] ∧ t.name = s ∧ t ≠ .pred) := by
    unfold ty
    cases known : Ty.fromName s with
    | none => exact reads_err
    | some t =>
      show Reads pre (if t ≠ .pred then _ else _) _
      split
      · next data => exact reads_pure ⟨rfl, Ty.name_of_fromName known, data⟩
      · exact reads_err
  refine reads_bind reads ?_
  rintro t ts ⟨rfl, name, data⟩
  exact then_ t name data

theorem reads_regThen {f : String → Parser β}
    (then_ : ∀ r, Reads anywhere (f r) (fun b us => S b ([.word r] ++ us))) : Reads pre (reg >>= f) S := by
  refine reads_bind reads_reg ?_
  rintro r ts rfl
  exact then_ r

theorem reads_operandThen {f : Operand → Parser β}
    (then_ : ∀ o, Reads anywhere (f o) (fun b us => S b (operandToks o ++ us))) : Reads pre (operand >>= f) S := by
  refine reads_bind reads_operand ?_
  rintro o ts rfl
  exact then_ o

theorem reads_addressThen {f : Address → Parser β}
    (then_ : ∀ a, Reads anywhere (f a) (fun b us => S b (addressToks a ++ us))) : Reads pre (address >>= f) S := by
  refine reads_bind reads_address ?_
  rintro a ts rfl
  exact then_ a

theorem reads_commaThen {f : Unit → Parser β}
    (then_ : Reads anywhere (f ()) (fun b us => S b ([.punct ','] ++ us))) : Reads pre (comma >>= f) S := by
  refine reads_bind reads_comma ?_
  rintro _ ts rfl
  exact then_

theorem reads_commaOperandThen {f : Operand → Parser β}
    (then_ : ∀ o, Reads anywhere (f o) (fun b us => S b ([.punct ','] ++ (operandToks o ++ us)))) :
    Reads pre (comma >>= fun _ => operand >>= f) S :=
  reads_commaThen (reads_operandThen then_)
end

section
variable {pre : List Tok → Prop} {op : String}

theorem reads_bin {b : BinOp} {t : String} : Reads pre (bin op b t) (InstrOf (binParts b ++ [t])) := by
  refine reads_tyThen fun t name data => reads_regThen fun d => reads_commaOperandThen fun x =>
    reads_commaOperandThen fun y => reads_pure ⟨?_, ?_, data⟩
  · rw [opParts, name]
  · simp [args, commaToks, Arg.toks]

theorem dataSpace_name {sp : String} {space : Space} (known : dataSpace sp = some space) :
    space.name = sp ∧ space ≠ .param := by
  unfold dataSpace at known
  split at known <;> cases known <;> exact ⟨rfl, by decide⟩

theorem reads_atom {sp : Space} {o t : String} (data : sp ≠ .param) :
    Reads pre (atom op sp o t) (InstrOf ["atom", sp.name, o, t]) := by
  refine reads_tyThen fun t name scalar => reads_regThen fun d => reads_commaThen (reads_addressThen fun a =>
    reads_commaOperandThen fun b => ?_)
  split
  · next cas =>
    refine reads_commaOperandThen fun c => reads_pure ⟨?_, ?_, scalar, data⟩
    · rw [opParts, name, cas]
    · simp [args, commaToks, Arg.toks]
  · cases known : AtomOp.fromName o with
    | none => exact reads_err
    | some o' =>
      refine reads_pure ⟨?_, ?_, scalar, data⟩
      · rw [opParts, name, AtomOp.name_of_fromName known]
      · simp [args, commaToks, Arg.toks]

theorem reads_red {sp : Space} {o t : String} (data : sp ≠ .param) :
    Reads pre (red op sp o t) (InstrOf ["red", sp.name, o, t]) := by
  have reduce {o' : AtomOp} (named : o'.name = o) (noExch : o' ≠ .exch) : Reads pre (do
      let t ← ty op t
      let a ← address
      comma
      let b ← operand
      return Instr.red sp o' t a b) (InstrOf ["red", sp.name, o, t]) := by
    refine reads_tyThen fun t name scalar => reads_addressThen fun a => reads_commaOperandThen fun b =>
      reads_pure ⟨?_, ?_, scalar, data, noExch⟩
    · rw [opParts, name, named]
    · simp [args, commaToks, Arg.toks]
  unfold red
  split
  · exact reads_err
  · exact reads_err
  · next o' noExch known =>
    exact reduce (AtomOp.name_of_fromName known) noExch

theorem reads_plainInstr {parts : List String} : Reads pre (plainInstr op parts) (InstrOf parts) := by
  unfold plainInstr
  split
  · exact reads_bin
  · exact reads_bin
  · exact reads_bin
  · exact reads_bin
  · exact reads_bin
  · exact reads_bin
  · exact reads_bin
  · exact reads_bin
  · exact reads_bin
  · refine reads_tyThen fun t name data => reads_regThen fun d => reads_commaOperandThen fun a =>
      reads_commaOperandThen fun b => reads_commaOperandThen fun c => reads_pure ⟨?_, ?_, data⟩
    · rw [opParts, name]
    · simp [args, commaToks, Arg.toks]
  · refine reads_tyThen fun t name data => reads_regThen fun d => reads_commaOperandThen fun a =>
      reads_pure ⟨?_, ?_, data⟩
    · rw [opParts, name]
    · simp [args, commaToks, Arg.toks]
  · refine reads_tyThen fun t name data => reads_regThen fun d => reads_commaOperandThen fun a =>
      reads_pure ⟨?_, ?_, data⟩
    · rw [opParts, name]
    · simp [args, commaToks, Arg.toks]
  · split
    · exact reads_err
    · next c known =>
      refine reads_tyThen fun t name data => reads_regThen fun d => reads_commaOperandThen fun a =>
        reads_commaOperandThen fun b => reads_pure ⟨?_, ?_, data⟩
      · rw [opParts, name, CmpOp.name_of_fromName known]
      · simp [args, commaToks, Arg.toks]
  · refine reads_tyThen fun t name data => reads_regThen fun d => reads_commaOperandThen fun a =>
      reads_commaOperandThen fun b => reads_commaThen (reads_regThen fun p => reads_pure ⟨?_, ?_, data⟩)
    · rw [opParts, name]
    · simp [args, commaToks, Arg.toks]
  · refine reads_tyThen fun dt named scalar => reads_tyThen fun st name data => reads_regThen fun d =>
      reads_commaOperandThen fun a => reads_pure ⟨?_, ?_, scalar, data⟩
    · rw [opParts, named, name]
    · simp [args, commaToks, Arg.toks]
  · refine reads_regThen fun d => reads_commaOperandThen fun a => reads_pure ⟨rfl, ?_, trivial⟩
    simp [args, commaToks, Arg.toks]
  · next sp t =>
    split
    · exact reads_err
    · next space known =>
      have named : space.name = sp := by
        split at known
        · next param =>
          cases known
          exact param.symm
        · exact (dataSpace_name known).1
      refine reads_tyThen fun t name data => reads_regThen fun d => reads_commaThen (reads_addressThen fun a =>
        reads_pure ⟨?_, ?_, data⟩)
      · rw [opParts, name, named]
      · simp [args, commaToks, Arg.toks]
  · split
    · exact reads_errBack
    · next space known =>
      refine reads_tyThen fun t name data => reads_addressThen fun a => reads_commaOperandThen fun v =>
        reads_pure ⟨?_, ?_, data, (dataSpace_name known).2⟩
      · rw [opParts, name, (dataSpace_name known).1]
      · simp [args, commaToks, Arg.toks]
  · split
    · exact reads_errBack
    · next space known =>
      rw [← (dataSpace_name known).1]
      exact reads_atom (dataSpace_name known).2
  · split
    · exact reads_errBack
    · next space known =>
      rw [← (dataSpace_name known).1]
      exact reads_red (dataSpace_name known).2
  · refine reads_operandThen fun o => ?_
    split
    · exact reads_err
    · next zero =>
      obtain rfl : o = .imm 0 := not_not.mp zero
      exact reads_isPunct reads_err (reads_pure ⟨rfl, rfl, trivial⟩)
  · refine reads_bind reads_word ?_
    rintro l ts ⟨rfl, -⟩
    exact reads_pure ⟨rfl, rfl, trivial⟩
  · refine reads_bind reads_word ?_
    rintro l ts ⟨rfl, -⟩
    exact reads_pure ⟨rfl, rfl, trivial⟩
  · exact reads_pure ⟨rfl, rfl, trivial⟩
  · exact reads_pure ⟨rfl, rfl, trivial⟩
  · exact reads_errBack
end

def Mods.part (ms : Mods) : ModKind → List String
  | .rnd => ms.rnd.toList
  | .ftz => if ms.ftz then ["ftz"] else []
  | .sat => if ms.sat then ["sat"] else []
  | .nan => if ms.nan then ["NaN"] else []

def Mods.parts (ms : Mods) : List String := Mods.part ms .rnd ++ modParts ms.ftz ms.sat ms.nan

/-- Modifiers of these kinds, the rounding one spelled as the opcode takes it. -/
structure ModsOf (round : RoundSet) (allow : List ModKind) (ms : Mods) : Prop where
  allowed : ∀ kind, Mods.part ms kind ≠ [] → kind ∈ allow
  rounding : ∀ m ∈ ms.rnd, modKind round m = some .rnd

theorem modKind_spelling {round : RoundSet} {m : String} {kind : ModKind} (known : modKind round m = some kind) :
    kind = .rnd ∨ (kind = .ftz ∧ m = "ftz") ∨ (kind = .sat ∧ m = "sat") ∨ (kind = .nan ∧ m = "NaN") := by
  unfold modKind at known
  split at known
  · cases known
    exact .inl rfl
  · cases known
    exact .inl rfl
  · cases known
    exact .inl rfl
  · cases known
    exact .inl rfl
  · split at known <;> cases known
    exact .inl rfl
  · split at known <;> cases known
    exact .inl rfl
  · split at known <;> cases known
    exact .inl rfl
  · split at known <;> cases known
    exact .inl rfl
  · cases known
    exact .inr (.inl ⟨rfl, rfl⟩)
  · cases known
    exact .inr (.inr (.inl ⟨rfl, rfl⟩))
  · cases known
    exact .inr (.inr (.inr ⟨rfl, rfl⟩))
  · contradiction

/-- A modifier with none at its place or later stands after the others. -/
theorem parts_added {acc acc' : Mods} {kind : ModKind} {m : String} (added : Mods.part acc' kind = [m])
    (others : ∀ other, other ≠ kind → Mods.part acc' other = Mods.part acc other)
    (noLater : ∀ other : ModKind, kind.order ≤ other.order → Mods.part acc other = []) :
    Mods.parts acc' = Mods.parts acc ++ [m] := by
  have split (ms : Mods) :
      Mods.parts ms = Mods.part ms .rnd ++ (Mods.part ms .ftz ++ Mods.part ms .sat ++ Mods.part ms .nan) := rfl
  have kept (other : ModKind) : Mods.part acc' other = if other = kind then [m] else Mods.part acc other := by
    split_ifs with same
    · rw [same, added]
    · exact others other same
  rw [split, split, kept, kept, kept, kept]
  cases kind with
  | rnd => simp [noLater .rnd (by decide), noLater .ftz (by decide), noLater .sat (by decide), noLater .nan (by decide)]
  | ftz => simp [noLater .ftz (by decide), noLater .sat (by decide), noLater .nan (by decide)]
  | sat => simp [noLater .sat (by decide), noLater .nan (by decide)]
  | nan => simp [noLater .nan (by decide)]

theorem floatModsFrom_parts {round : RoundSet} {allow : List ModKind} {mods : List String} {ms : Mods} :
    ∀ {least : ℕ} {acc : Mods}, (∀ kind, least ≤ kind.order → Mods.part acc kind = []) → ModsOf round allow acc →
      floatModsFrom round allow least acc mods = .ok ms →
      Mods.parts ms = Mods.parts acc ++ mods ∧ ModsOf round allow ms := by
  induction mods with
  | nil =>
    intro least acc later inside read
    cases read
    exact ⟨(List.append_nil _).symm, inside⟩
  | cons m rest ih =>
    intro least acc later inside read
    rw [floatModsFrom] at read
    cases known : modKind round m with
    | none =>
      rw [known] at read
      contradiction
    | some kind =>
      rw [known] at read
      simp only at read
      split at read
      · contradiction
      · next member =>
        have member : kind ∈ allow := not_not.mp member
        split at read
        · contradiction
        · next order =>
          have order : least ≤ kind.order := not_lt.mp order
          have noLater : ∀ other : ModKind, kind.order ≤ other.order → Mods.part acc other = [] :=
            fun other above => later other (order.trans above)
          have step {acc' : Mods} (added : Mods.part acc' kind = [m])
              (others : ∀ other, other ≠ kind → Mods.part acc' other = Mods.part acc other)
              (rounding : ∀ m ∈ acc'.rnd, modKind round m = some .rnd)
              (read : floatModsFrom round allow (kind.order + 1) acc' rest = .ok ms) :
              Mods.parts ms = Mods.parts acc ++ m :: rest ∧ ModsOf round allow ms := by
            have later' : ∀ other : ModKind, kind.order + 1 ≤ other.order → Mods.part acc' other = [] := by
              intro other above
              have different : other ≠ kind := by
                rintro rfl
                omega
              rw [others other different]
              exact noLater other (by omega)
            have allowed : ∀ other, Mods.part acc' other ≠ [] → other ∈ allow := by
              intro other there
              by_cases same : other = kind
              · rwa [same]
              · exact inside.allowed other (by rwa [← others other same])
            obtain ⟨parts, modsOf⟩ := ih later' ⟨allowed, rounding⟩ read
            rw [parts, parts_added added others noLater, List.append_assoc, List.singleton_append]
            exact ⟨rfl, modsOf⟩
          cases kind with
          | rnd =>
            refine step rfl (fun other different => ?_) ?_ read
            · cases other <;> first | contradiction | rfl
            · rintro other spelled
              obtain rfl : m = other := Option.some.inj spelled
              exact known
          | ftz =>
            obtain rfl : m = "ftz" := by simpa using modKind_spelling known
            have rounding : ∀ m ∈ (Mods.rnd { acc with ftz := true }), modKind round m = some .rnd := inside.rounding
            refine step rfl (fun other different => ?_) rounding read
            cases other <;> first | contradiction | rfl
          | sat =>
            obtain rfl : m = "sat" := by simpa using modKind_spelling known
            have rounding : ∀ m ∈ (Mods.rnd { acc with sat := true }), modKind round m = some .rnd := inside.rounding
            refine step rfl (fun other different => ?_) rounding read
            cases other <;> first | contradiction | rfl
          | nan =>
            obtain rfl : m = "NaN" := by simpa using modKind_spelling known
            have rounding : ∀ m ∈ (Mods.rnd { acc with nan := true }), modKind round m = some .rnd := inside.rounding
            refine step rfl (fun other different => ?_) rounding read
            cases other <;> first | contradiction | rfl

theorem floatMods_parts {round : RoundSet} {allow : List ModKind} {mods : List String} {ms : Mods}
    (read : floatMods mods round allow = .ok ms) : Mods.parts ms = mods ∧ ModsOf round allow ms := by
  have none (kind : ModKind) : Mods.part ⟨none, false, false, false⟩ kind = [] := by cases kind <;> rfl
  obtain ⟨parts, modsOf⟩ := floatModsFrom_parts (fun kind _ => none kind)
    ⟨fun kind there => absurd (none kind) there, fun m spelled => by cases spelled⟩ read
  exact ⟨parts, modsOf⟩

section
variable {round : RoundSet} {allow : List ModKind} {ms : Mods}

theorem ModsOf.absent {kind : ModKind} (modsOf : ModsOf round allow ms) (outside : kind ∉ allow) :
    Mods.part ms kind = [] := by
  by_contra there
  exact outside (modsOf.allowed kind there)

theorem ModsOf.noRnd (modsOf : ModsOf round allow ms) (outside : .rnd ∉ allow) : ms.rnd = none := by
  simpa [Mods.part] using modsOf.absent outside

theorem ModsOf.noSat (modsOf : ModsOf round allow ms) (outside : .sat ∉ allow) : ms.sat = false := by
  simpa [Mods.part] using modsOf.absent outside

theorem ModsOf.noNan (modsOf : ModsOf round allow ms) (outside : .nan ∉ allow) : ms.nan = false := by
  simpa [Mods.part] using modsOf.absent outside
end

theorem rmode_name {s : String} (known : modKind .f s = some .rnd) : (rmode s).name = s := by
  unfold modKind at known
  split at known
  all_goals first | rfl | (split at known <;> contradiction) | contradiction

theorem cvtRnd_parts {s : String} (known : modKind .fi s = some .rnd) : cvtRndParts (cvtRndOf (some s)) = [s] := by
  unfold modKind at known
  split at known
  all_goals first | rfl | contradiction

theorem floatTy_name {s : String} (float : isFloatName s = true) :
    (floatTy s).name = s ∧ (floatTy s).isFloat = true := by
  simp only [isFloatName, Bool.or_eq_true, decide_eq_true_iff] at float
  rcases float with rfl | rfl <;> exact ⟨rfl, rfl⟩

def floatOpcodes : List String := ["add", "sub", "mul", "div", "fma", "sqrt", "rcp", "neg", "abs", "min", "max"]

section
variable {pre : List Tok → Prop} {op opc : String}

theorem reads_floatOperands {m : RMode} {ms : Mods} {t : Ty} (listed : opc ∈ floatOpcodes) (float : t.isFloat = true)
    (rounding : rounded opc = true → ms.rnd = some m.name) (modsOf : ModsOf .f (allowedMods opc t) ms) :
    Reads pre (floatOperands opc m ms t) (InstrOf (opc :: Mods.parts ms ++ [t.name])) := by
  refine reads_regThen fun d => reads_commaOperandThen fun a => ?_
  split
  · next sqrt =>
    subst sqrt
    refine reads_pure ⟨?_, ?_, float⟩
    · rw [opParts, Mods.parts, Mods.part, rounding rfl, modsOf.noSat (by cases t <;> decide),
        modsOf.noNan (by cases t <;> decide)]
      rfl
    · simp [args, commaToks, Arg.toks]
  split
  · next rcp =>
    subst rcp
    refine reads_pure ⟨?_, ?_, float⟩
    · rw [opParts, Mods.parts, Mods.part, rounding rfl, modsOf.noSat (by cases t <;> decide),
        modsOf.noNan (by cases t <;> decide)]
      rfl
    · simp [args, commaToks, Arg.toks]
  split
  · next neg =>
    subst neg
    refine reads_pure ⟨?_, ?_, float⟩
    · rw [opParts, Mods.parts, Mods.part, modsOf.noRnd (by cases t <;> decide), modsOf.noSat (by cases t <;> decide),
        modsOf.noNan (by cases t <;> decide)]
      rfl
    · simp [args, commaToks, Arg.toks]
  split
  · next abs =>
    subst abs
    refine reads_pure ⟨?_, ?_, float⟩
    · rw [opParts, Mods.parts, Mods.part, modsOf.noRnd (by cases t <;> decide), modsOf.noSat (by cases t <;> decide),
        modsOf.noNan (by cases t <;> decide)]
      rfl
    · simp [args, commaToks, Arg.toks]
  refine reads_commaOperandThen fun b => ?_
  split
  · next fma =>
    subst fma
    refine reads_commaOperandThen fun c => reads_pure ⟨?_, ?_, float⟩
    · rw [opParts, Mods.parts, Mods.part, rounding rfl, modsOf.noNan (by cases t <;> decide)]
      rfl
    · simp [args, commaToks, Arg.toks]
  split
  · next minmax =>
    refine reads_pure ⟨?_, ?_, float⟩
    · rcases minmax with rfl | rfl
      all_goals
        rw [opParts, Mods.parts, Mods.part, modsOf.noRnd (by cases t <;> decide),
          modsOf.noSat (by cases t <;> decide)]
        rfl
    · simp [args, commaToks, Arg.toks]
  · next noSqrt noRcp noNeg noAbs noFma noMinmax =>
    have arith : opc = "add" ∨ opc = "sub" ∨ opc = "mul" ∨ opc = "div" := by
      simp only [floatOpcodes, List.mem_cons, List.not_mem_nil, or_false] at listed
      tauto
    refine reads_pure ⟨?_, ?_, float⟩
    · rcases arith with rfl | rfl | rfl | rfl
      all_goals
        rw [opParts, Mods.parts, Mods.part, rounding rfl, modsOf.noNan (by cases t <;> decide)]
        rfl
    · simp [args, commaToks, Arg.toks]

theorem reads_floatArith {last : String} {mods : List String} (listed : opc ∈ floatOpcodes)
    (float : isFloatName last = true) :
    Reads pre (floatArith op opc last mods) (InstrOf (opc :: mods ++ [last])) := by
  obtain ⟨name, isFloat⟩ := floatTy_name float
  simp only [floatArith]
  split
  · exact reads_err
  cases read : floatMods mods .f (allowedMods opc (floatTy last)) with
  | error e => exact reads_err
  | ok ms =>
    obtain ⟨parts, modsOf⟩ := floatMods_parts read
    simp only
    split
    · exact reads_err
    · next determined =>
      have rounding : rounded opc = true → ms.rnd = some ((ms.rnd.map rmode).getD .rn).name := by
        intro is
        cases spelled : ms.rnd with
        | none => exact absurd ⟨is, spelled⟩ determined
        | some s => exact congrArg some (rmode_name (modsOf.rounding s spelled)).symm
      have reads := @reads_floatOperands pre opc _ _ _ listed isFloat rounding modsOf
      rwa [parts, name] at reads

theorem reads_floatSetp {last cmp : String} {mods : List String} (float : isFloatName last = true) :
    Reads pre (floatSetp op last cmp mods) (InstrOf ("setp" :: cmp :: mods ++ [last])) := by
  obtain ⟨name, isFloat⟩ := floatTy_name float
  simp only [floatSetp]
  cases known : FCmp.fromName cmp with
  | none => exact reads_err
  | some c =>
    simp only
    cases read : floatMods mods .f (if floatTy last = .f32 then [.ftz] else []) with
    | error e => exact reads_err
    | ok ms =>
      obtain ⟨parts, modsOf⟩ := floatMods_parts read
      refine reads_regThen fun d => reads_commaOperandThen fun a => reads_commaOperandThen fun b =>
        reads_pure ⟨?_, ?_, isFloat⟩
      · rw [opParts, name, FCmp.name_of_fromName known, ← parts, Mods.parts, Mods.part,
          modsOf.noRnd (by split <;> decide), modsOf.noSat (by split <;> decide), modsOf.noNan (by split <;> decide)]
        rfl
      · simp [args, commaToks, Arg.toks]

theorem reads_floatCvt {dt st : Ty} {mods : List String} :
    Reads pre (floatCvt op dt st mods) (InstrOf ("cvt" :: mods ++ [dt.name, st.name])) := by
  simp only [floatCvt]
  cases read : floatMods mods .fi [.rnd, .ftz, .sat] with
  | error e => exact reads_err
  | ok ms =>
    obtain ⟨parts, modsOf⟩ := floatMods_parts read
    simp only
    split
    · exact reads_err
    · next form =>
      split
      · exact reads_err
      · refine reads_regThen fun d => reads_commaOperandThen fun a => reads_pure ⟨?_, ?_, ?_⟩
        · have rounding : cvtRndParts (cvtRndOf ms.rnd) = ms.rnd.toList := by
            cases spelled : ms.rnd with
            | none => rfl
            | some s => exact cvtRnd_parts (modsOf.rounding s spelled)
          rw [opParts, rounding, ← parts, Mods.parts, Mods.part, modsOf.noNan (by decide)]
          simp
        · simp [args, commaToks, Arg.toks]
        · simpa [FormOk] using form

theorem reads_floatInstr {parts : List String} {x : Parser Instr} (float : floatInstr op parts = some x) :
    Reads pre x (InstrOf parts) := by
  unfold floatInstr at float
  split at float
  · contradiction
  · next opc rest =>
    split at float
    · contradiction
    · next last found =>
      have whole : rest.dropLast ++ [last] = rest := List.dropLast_append_getLast? last found
      split at float
      · next arith =>
        cases float
        have listed : opc ∈ floatOpcodes := List.contains_iff_mem.mp arith.1
        have reads : Reads pre _ (InstrOf (opc :: rest.dropLast ++ [last])) :=
          @reads_floatArith pre op _ _ _ listed arith.2
        rwa [List.cons_append, whole] at reads
      split at float
      · next setp =>
        obtain ⟨rfl, isFloat, long⟩ := setp
        cases float
        obtain ⟨cmp, tail, rfl⟩ : ∃ cmp tail, rest = cmp :: tail := List.exists_cons_of_length_pos (by omega)
        have nonempty : tail ≠ [] := by
          rintro rfl
          simp at long
        have whole' : tail.dropLast ++ [last] = tail := by
          rw [List.getLast?_cons_of_ne_nil nonempty] at found
          exact List.dropLast_append_getLast? last found
        have reads : Reads pre _ (InstrOf ("setp" :: cmp :: tail.dropLast ++ [last])) :=
          @reads_floatSetp pre op _ _ _ isFloat
        rwa [List.cons_append, List.cons_append, whole'] at reads
      split at float
      · next cvt =>
        obtain ⟨rfl, long⟩ := cvt
        split at float
        · next dt st knownD knownS =>
          split at float
          · contradiction
          · cases float
            have front : rest.dropLast ≠ [] := by
              rw [← List.length_pos_iff, List.length_dropLast]
              omega
            have whole' : rest.dropLast.dropLast ++ [dt.name, st.name] = rest := by
              have second : rest.dropLast.dropLast ++ [dt.name] = rest.dropLast := by
                rw [Ty.name_of_fromName knownD, List.getLastD_eq_getLast?, List.getLast?_eq_some_getLast front,
                  Option.getD_some]
                exact List.dropLast_append_getLast front
              rw [Ty.name_of_fromName knownS, ← List.singleton_append, ← List.append_assoc, second, whole]
            have reads : Reads pre _ (InstrOf ("cvt" :: rest.dropLast.dropLast ++ [dt.name, st.name])) :=
              @reads_floatCvt pre op _ _ _
            rwa [List.cons_append, whole'] at reads
        · contradiction
      · contradiction

theorem joinDot_splitDot {op : String} : joinDot (splitDot op) = op := by
  have chars : (splitDot op).map String.toList = op.toList.splitOn '.' := by
    simp [splitDot, Function.comp_def]
  rw [joinDot, chars, List.intercalate_splitOn, String.ofList_toList]

theorem reads_guard : Reads pre PtxParser.guard (fun g ts => ts = guardToks g) := by
  refine reads_isPunct ?_ (reads_pure rfl)
  rw [if_pos rfl]
  apply reads_skipSeen
  apply reads_isPunct
  · rw [if_pos rfl]
    apply reads_skipSeen
    exact reads_regThen fun p => reads_pure rfl
  · rw [if_neg Bool.false_ne_true]
    exact reads_regThen fun p => reads_pure rfl

theorem reads_stmt : Reads pre stmt (fun s ts => ts = stmtToks s ∧ FormOk s.instr) := by
  refine reads_bind reads_guard ?_
  rintro g _ rfl
  refine reads_bind reads_word ?_
  rintro op _ ⟨rfl, -⟩
  have reads : Reads anywhere ((floatInstr op (splitDot op)).getD (plainInstr op (splitDot op)))
      (InstrOf (splitDot op)) := by
    cases float : floatInstr op (splitDot op) with
    | none => exact reads_plainInstr
    | some x => exact reads_floatInstr float
  refine reads_bind reads ?_
  rintro i ts ⟨parts, rfl, form⟩
  refine reads_bind reads_punct ?_
  rintro _ _ rfl
  refine reads_pure ⟨?_, form⟩
  rw [stmtToks, instrToks, parts, joinDot_splitDot]
  simp
end

end E5r.PtxInstrReads
