import E5r.PtxModuleReads
import E5r.PtxValues

/-!
Type soundness of the subset: in a kernel that the checker accepts, a register
of a 32-bit type never holds more than 32 bits, and the only faults are a memory
access outside the allocations and running past the end of the body.
-/
namespace E5r.PtxSoundness
open Fallible PtxSyntax PtxChecker PtxMachine
open PtxInstrReads (FormOk)
open PtxModuleReads (KernelOk)

def Declared (k : Kernel) (r : String) (t : Ty) : Prop := ∃ d ∈ k.regs, d.ty = t ∧ r ∈ expand d

theorem declareReg_lookup {name : String} {t : Ty} {regs out : Regs} {n : String}
    (declared : declareReg name t regs n = .ok out) :
    out.lookup n = some t ∧ ∀ r u, regs.lookup r = some u → out.lookup r = some u := by
  unfold declareReg at declared
  split at declared
  · cases declared
  · next fresh =>
    cases declared
    constructor
    · rw [List.lookup_append, Option.not_isSome_iff_eq_none.mp fresh]
      simp
    · intro r u known
      rw [List.lookup_append, known]
      rfl

theorem expand_lookup {name : String} {t : Ty} {names : List String} {regs out : Regs}
    (declared : names.foldlM (declareReg name t) regs = .ok out) :
    (∀ n ∈ names, out.lookup n = some t) ∧ ∀ r u, regs.lookup r = some u → out.lookup r = some u := by
  induction names generalizing regs with
  | nil =>
    cases declared
    exact ⟨by simp, fun _ _ known => known⟩
  | cons n names ih =>
    rw [List.foldlM_cons, bind_ok_iff] at declared
    obtain ⟨middle, first, rest⟩ := declared
    obtain ⟨here, kept⟩ := declareReg_lookup first
    obtain ⟨later, carried⟩ := ih rest
    constructor
    · intro m member
      rcases List.mem_cons.mp member with rfl | inside
      · exact carried _ _ here
      · exact later m inside
    · intro r u known
      exact carried r u (kept r u known)

theorem declareRegs_lookup {name : String} {ds : List RegDecl} {regs out : Regs}
    (declared : ds.foldlM (fun regs d => (expand d).foldlM (declareReg name d.ty) regs) regs = .ok out) :
    (∀ d ∈ ds, ∀ n ∈ expand d, out.lookup n = some d.ty) ∧
      ∀ r u, regs.lookup r = some u → out.lookup r = some u := by
  induction ds generalizing regs with
  | nil =>
    cases declared
    exact ⟨by simp, fun _ _ known => known⟩
  | cons d ds ih =>
    rw [List.foldlM_cons, bind_ok_iff] at declared
    obtain ⟨middle, first, rest⟩ := declared
    obtain ⟨here, kept⟩ := expand_lookup first
    obtain ⟨later, carried⟩ := ih rest
    constructor
    · intro e member n named
      rcases List.mem_cons.mp member with rfl | inside
      · exact carried _ _ (here n named)
      · exact later e inside n named
    · intro r u known
      exact carried r u (kept r u known)

theorem Declared.lookup {k : Kernel} {r : String} {t : Ty} {regs : Regs} (declared : Declared k r t)
    (table : declareRegs k.name k.regs = .ok regs) : regs.lookup r = some t := by
  obtain ⟨d, member, rfl, named⟩ := declared
  exact (declareRegs_lookup table).1 d member r named

/-- Every register of a 32-bit type holds 32 bits. -/
def Narrow (k : Kernel) (s : TState) : Prop :=
  ∀ r t, Declared k r t → t.width = some 32 → (s.reg r).toNat < 2 ^ 32

/-- A value that a register of a width may hold. -/
def Fits (w : ℕ) (v : BitVec 64) : Prop := w = 32 → v.toNat < 2 ^ 32

theorem lo32_fits (w : ℕ) (v : BitVec 64) : Fits w (lo32 v) := by
  intro _
  rw [PtxValues.toNat_lo32]
  exact Nat.mod_lt _ (by norm_num)

theorem wide_fits (v : BitVec 64) : Fits 64 v := by
  intro narrow
  contradiction

theorem fit_fits (t : Ty) (v : BitVec 64) : Fits (widthOr t) (fit t v) := by
  intro narrow
  rw [fit, if_pos (show width t = 32 from narrow)]
  exact lo32_fits 32 v rfl

theorem atWidth_fits (w : ℕ) (f : BitVec 64 → BitVec 64 → BitVec 64) (a b : BitVec 64) :
    Fits w (atWidth w f a b) := by
  intro narrow
  rw [atWidth, if_pos narrow]
  exact lo32_fits 32 _ rfl

theorem shift_fits (w : ℕ) (a b : BitVec 64) (kind : ShiftKind) : Fits w (shift w a b kind) := by
  intro narrow
  unfold shift
  rw [if_pos narrow]
  exact lo32_fits 32 _ rfl

theorem convert_fits (dt st : Ty) (a : BitVec 64) : Fits (widthOr dt) (convert dt st a) := by
  intro narrow
  have target : width dt = 32 := narrow
  unfold convert
  rw [target]
  have source : width st = 32 ∨ width st = 64 := by cases st <;> decide
  rcases source with source | source
  · rw [source]
    exact lo32_fits 32 a rfl
  · rw [source]
    exact lo32_fits 32 a rfl

theorem rd_fits (m : Mem) (a : BitVec 64) (t : Ty) : Fits (widthOr t) (m.rd a (width t / 8)) := by
  intro narrow
  rw [show width t = 32 from narrow, PtxValues.toNat_rd m a (by norm_num)]
  exact PtxValues.littleEndian_lt m a 4

/-- A fault of an access that is not aligned or not inside one allocation. -/
def OutOfRegion (al : Allocs) : Fault → Prop
  | .load n sp a | .store n sp a | .atomic n sp a => accessOk (al.of sp) a n = false
  | _ => False

/-- The instruction does not panic, keeps the registers and has no other fault
    than that of an access. -/
def Sound (k : Kernel) (al : Allocs) (o : Option Outcome) : Prop :=
  ∃ out, o = some out ∧ Narrow k out.s ∧ ∀ why, out.res = .fault why → OutOfRegion al why

section
variable {k : Kernel} {regs : Regs} {shared : List String} {al : Allocs} {s : TState} {d : String} {w : ℕ}
  {v : BitVec 64}

/-- A register that was checked for a width takes a value of that width. -/
theorem Narrow.set (narrow : Narrow k s) (table : declareRegs k.name k.regs = .ok regs)
    (checked : data regs d w = .ok ()) (fits : Fits w v) : Narrow k (s.set d v) := by
  intro r t declared bits
  by_cases same : r = d
  · subst same
    have lookup := declared.lookup table
    have width : t.width = some w := by
      unfold data widthOf at checked
      rw [lookup] at checked
      by_contra other
      simp [bind, Except.bind, other] at checked
    rw [bits, Option.some_inj] at width
    have value : (s.set r v).reg r = v := by simp [TState.reg, TState.set, HashMap.insert]
    rw [value]
    exact fits width.symm
  · have value : (s.set d v).reg r = s.reg r := by simp [TState.reg, TState.set, HashMap.insert, same]
    rw [value]
    exact narrow r t declared bits

variable (narrow : Narrow k s) (g sh : Mem)
include narrow

theorem sound_wrote (table : declareRegs k.name k.regs = .ok regs) (checked : data regs d w = .ok ())
    (fits : Fits w v) : Sound k al (some (wrote s g sh d v)) :=
  ⟨_, rfl, narrow.set table checked fits, by simp [wrote]⟩

theorem sound_wroteFloat {t : Ty} (table : declareRegs k.name k.regs = .ok regs) (float : t.isFloat = true)
    (checked : data regs d (widthOr t) = .ok ()) {code : Option (Option (BitVec 64))} {model : Option ℕ}
    (agrees : FpBits.Agrees (fmt t) code model) : Sound k al (wroteFloat s g sh t d code) := by
  obtain ⟨r, rfl, same⟩ := agrees
  exact sound_wrote narrow g sh table checked (PtxValues.encoded_narrow float same)

theorem sound_setPred (b : Bool) : Sound k al (some ⟨.ok none, s.setPred d b, g, sh⟩) :=
  ⟨_, rfl, narrow, by simp⟩

theorem sound_jump (pc : ℕ) {res : Res} (quiet : ∀ why, res ≠ .fault why) :
    Sound k al (some ⟨res, { s with pc := pc }, g, sh⟩) :=
  ⟨_, rfl, narrow, fun why faults => absurd faults (quiet why)⟩

theorem sound_fault {why : Fault} (outside : OutOfRegion al why) : Sound k al (some (faulted s g sh why)) := by
  refine ⟨_, rfl, narrow, ?_⟩
  rintro other same
  cases same
  exact outside

variable {c : Ctx} {sp : Space} {a : Address} {i : Instr} (placed : addr regs shared i sp a = .ok ())
include placed
omit narrow

theorem addr_dataAddr (s : TState) : ∃ at_, dataAddr c s sp a = some at_ := by
  unfold addr at placed
  split at placed
  · exact ⟨_, rfl⟩
  · exact ⟨_, rfl⟩
  · exact ⟨_, rfl⟩
  · cases placed
  · cases placed

include narrow

theorem sound_load {t : Ty} (table : declareRegs k.name k.regs = .ok regs)
    (checked : data regs d (widthOr t) = .ok ()) : Sound k al (some (load al c s g sh sp t d a)) := by
  obtain ⟨⟨space, place⟩, address⟩ := addr_dataAddr (c := c) placed s
  unfold load
  rw [address]
  by_cases inside : accessOk (al.of space) place (width t / 8)
  · simp only [inside, Bool.not_true, Bool.false_eq_true, if_false]
    exact ⟨_, rfl, narrow.set table checked (rd_fits _ _ t), by simp⟩
  · simp only [inside, Bool.not_false, if_true]
    exact sound_fault narrow g sh (by simpa [OutOfRegion] using inside)

theorem sound_store (t : Ty) (v : Operand) : Sound k al (some (store al c s g sh sp t a v)) := by
  obtain ⟨⟨space, place⟩, address⟩ := addr_dataAddr (c := c) placed s
  unfold store
  rw [address]
  by_cases inside : accessOk (al.of space) place (width t / 8)
  · simp only [inside, Bool.not_true, Bool.false_eq_true, if_false]
    exact ⟨_, rfl, narrow, by simp⟩
  · simp only [inside, Bool.not_false, if_true]
    exact sound_fault narrow g sh (by simpa [OutOfRegion] using inside)

theorem sound_atomic (t : Ty) (new : BitVec 64 → BitVec 64) (d : Option String)
    (kept : ∀ r v, d = some r → Narrow k (s.set r (fit t v))) :
    Sound k al (some (atomic al c s g sh sp t a new d)) := by
  obtain ⟨⟨space, place⟩, address⟩ := addr_dataAddr (c := c) placed s
  unfold atomic
  rw [address]
  by_cases inside : accessOk (al.of space) place (width t / 8)
  · simp only [inside, Bool.not_true, Bool.false_eq_true, if_false]
    cases d with
    | none => exact ⟨_, rfl, narrow, by simp⟩
    | some r => exact ⟨_, rfl, kept r _ rfl, by simp⟩
  · simp only [inside, Bool.not_false, if_true]
    exact sound_fault narrow g sh (by simpa [OutOfRegion] using inside)
end

section
variable {k : Kernel} {regs : Regs} {shared : List String} (al : Allocs) (c : Ctx) {s : TState} (g sh : Mem)

/-- A comparison on an integer type is only left out for an ordered one on a
    `.b` type. -/
theorem cmp_total {op : CmpOp} {t : Ty} (data : t ≠ .pred) (ordered : (op.isOrdered && t.isBits) = false)
    (a b : BitVec 64) : ∃ v, PtxMachine.cmp op t a b = some v := by
  unfold PtxMachine.cmp cmpCut
  cases op <;> cases t <;>
    first
      | contradiction
      | exact ⟨_, rfl⟩

theorem stepInstr_sound (narrow : Narrow k s) (table : declareRegs k.name k.regs = .ok regs) {i : Instr}
    (form : FormOk i) (types : typesAllowed i = true) (uses : usesOk regs k.params shared k.labels i = .ok ()) :
    Sound k al (stepInstr k al c s g sh i) := by
  cases i with
  | bin op t d x y =>
    cases op with
    | mulWide =>
      simp only [usesOk] at uses
      split at uses
      · next kind =>
        simp only [bind_ok_iff] at uses
        obtain ⟨_, checked, -⟩ := uses
        rcases kind with rfl | rfl
        · exact sound_wrote narrow g sh table checked (wide_fits _)
        · exact sound_wrote narrow g sh table checked (wide_fits _)
      · cases uses
    | shl =>
      simp only [usesOk, bind_ok_iff] at uses
      obtain ⟨_, checked, -⟩ := uses
      exact sound_wrote narrow g sh table checked (shift_fits _ _ _ _)
    | shr =>
      simp only [usesOk, bind_ok_iff] at uses
      obtain ⟨_, checked, -⟩ := uses
      exact sound_wrote narrow g sh table checked (shift_fits _ _ _ _)
    | _ =>
      simp only [usesOk, bind_ok_iff] at uses
      obtain ⟨_, checked, -⟩ := uses
      exact sound_wrote narrow g sh table checked (atWidth_fits _ _ _ _)
  | madLo t d a b e =>
    simp only [usesOk, bind_ok_iff] at uses
    obtain ⟨_, checked, -⟩ := uses
    exact sound_wrote narrow g sh table checked (atWidth_fits _ _ _ _)
  | not t d a | mov t d a | selp t d a b q =>
    simp only [usesOk, bind_ok_iff] at uses
    obtain ⟨_, checked, -⟩ := uses
    exact sound_wrote narrow g sh table checked (fit_fits _ _)
  | setp op t d a b =>
    simp only [usesOk] at uses
    split at uses
    · cases uses
    · next ordered =>
      obtain ⟨v, compared⟩ := cmp_total form (Bool.not_eq_true _ ▸ ordered) (s.op c a) (s.op c b)
      simp only [stepInstr, compared]
      exact sound_setPred narrow g sh v
  | cvt dt st d a =>
    simp only [usesOk, bind_ok_iff] at uses
    obtain ⟨_, checked, -⟩ := uses
    exact sound_wrote narrow g sh table checked (convert_fits _ _ _)
  | cvtaGlobal d a =>
    simp only [usesOk, bind_ok_iff] at uses
    obtain ⟨_, checked, -⟩ := uses
    exact sound_wrote narrow g sh table checked (wide_fits _)
  | ld sp t d a =>
    cases sp with
    | param =>
      simp only [usesOk, bind_ok_iff] at uses
      obtain ⟨_, checked, rest⟩ := uses
      cases a with
      | reg r off => cases rest
      | param n off =>
        simp only at rest
        split at rest
        · next zero =>
          simp only [stepInstr, if_pos zero]
          exact sound_wrote narrow g sh table checked (fit_fits _ _)
        · cases rest
    | _ =>
      simp only [usesOk, bind_ok_iff] at uses
      obtain ⟨_, checked, placed⟩ := uses
      exact sound_load narrow g sh placed table checked
  | st sp t a v =>
    cases sp with
    | param => cases uses
    | _ =>
      simp only [usesOk, bind_ok_iff] at uses
      obtain ⟨_, -, placed⟩ := uses
      exact sound_store narrow g sh placed t v
  | atom sp o t d a b =>
    simp only [usesOk, bind_ok_iff] at uses
    obtain ⟨_, checked, _, -, placed⟩ := uses
    apply sound_atomic narrow g sh placed
    rintro r v ⟨⟩
    exact narrow.set table checked (fit_fits _ _)
  | cas sp t d a b e =>
    simp only [usesOk, bind_ok_iff] at uses
    obtain ⟨_, checked, _, -, _, -, placed⟩ := uses
    apply sound_atomic narrow g sh placed
    rintro r v ⟨⟩
    exact narrow.set table checked (fit_fits _ _)
  | red sp o t a b =>
    simp only [usesOk, bind_ok_iff] at uses
    obtain ⟨_, -, placed⟩ := uses
    apply sound_atomic narrow g sh placed
    rintro r v ⟨⟩
  | bar | ret | exit => exact sound_jump narrow g sh s.pc (by simp)
  | bra u l =>
    simp only [usesOk] at uses
    split at uses
    · next defined =>
      obtain ⟨m, member, named⟩ := List.any_eq_true.mp defined
      cases found : k.labels.find? (fun m => m.1 = l) with
      | none =>
        have absent := List.find?_eq_none.mp found m member
        exact absurd named absent
      | some m =>
        simp only [stepInstr, found]
        exact sound_jump narrow g sh m.2 (by simp)
    · cases uses
  | fbin op m ftz sat t d a b =>
    simp only [usesOk, bind_ok_iff] at uses
    obtain ⟨_, checked, -⟩ := uses
    have insideA := PtxValues.fbits_inFormat form (s.op c a)
    have insideB := PtxValues.fbits_inFormat form (s.op c b)
    cases op with
    | add =>
      exact sound_wroteFloat narrow g sh table form checked
        (FpBits.fadd_agrees (PtxValues.fmt_fits t) m ftz sat insideA insideB)
    | sub =>
      exact sound_wroteFloat narrow g sh table form checked
        (FpBits.fsub_agrees (PtxValues.fmt_fits t) m ftz sat insideA insideB)
    | mul =>
      exact sound_wroteFloat narrow g sh table form checked
        (FpBits.fmul_agrees (PtxValues.fmt_fits t) m ftz sat insideA insideB)
    | div =>
      exact sound_wroteFloat narrow g sh table form checked
        (FpBits.fdiv_agrees (PtxValues.fmt_fits t) m ftz insideA insideB)
  | ffma m ftz sat t d a b e =>
    simp only [usesOk, bind_ok_iff] at uses
    obtain ⟨_, checked, -⟩ := uses
    exact sound_wroteFloat narrow g sh table form checked (FpBits.ffma_agrees (PtxValues.fmt_fits t) m ftz sat
      (PtxValues.fbits_inFormat form _) (PtxValues.fbits_inFormat form _) (PtxValues.fbits_inFormat form _))
  | fsqrt m ftz t d a =>
    simp only [usesOk, bind_ok_iff] at uses
    obtain ⟨_, checked, -⟩ := uses
    exact sound_wroteFloat narrow g sh table form checked
      (FpBits.fsqrt_agrees (PtxValues.fmt_fits t) m ftz (PtxValues.fbits_inFormat form _))
  | frcp m ftz t d a =>
    simp only [usesOk, bind_ok_iff] at uses
    obtain ⟨_, checked, -⟩ := uses
    exact sound_wroteFloat narrow g sh table form checked
      (FpBits.frcp_agrees (PtxValues.fmt_fits t) m ftz (PtxValues.fbits_inFormat form _))
  | fneg ftz t d a =>
    simp only [usesOk, bind_ok_iff] at uses
    obtain ⟨_, checked, -⟩ := uses
    exact sound_wroteFloat narrow g sh table form checked
      ⟨_, rfl, FpBits.fneg_encodes (PtxValues.fmt_fits t) ftz (PtxValues.fbits_inFormat form _)⟩
  | fabs ftz t d a =>
    simp only [usesOk, bind_ok_iff] at uses
    obtain ⟨_, checked, -⟩ := uses
    exact sound_wroteFloat narrow g sh table form checked
      ⟨_, rfl, FpBits.fabs_encodes (PtxValues.fmt_fits t) ftz (PtxValues.fbits_inFormat form _)⟩
  | fminmax mx ftz nan t d a b =>
    simp only [usesOk, bind_ok_iff] at uses
    obtain ⟨_, checked, -⟩ := uses
    exact sound_wroteFloat narrow g sh table form checked ⟨_, rfl, FpBits.fminmax_encodes (PtxValues.fmt_fits t) mx
      ftz nan (PtxValues.fbits_inFormat form _) (PtxValues.fbits_inFormat form _)⟩
  | fsetp op ftz t d a b => exact sound_setPred narrow g sh _
  | cvtF dt st r ftz sat d a =>
    simp only [usesOk, bind_ok_iff] at uses
    obtain ⟨_, checked, -⟩ := uses
    obtain ⟨v, computed, -, fits⟩ := PtxValues.cvtFloat_eq form ftz sat c s (s.op c a)
    simp only [stepInstr, computed, Option.map_some]
    exact sound_wrote narrow g sh table checked fits
theorem checkStmt_uses {params : List (String × Ty)} {labels : List (String × ℕ)} {st : Stmt}
    (checked : checkStmt regs params shared labels st = .ok ()) :
    typesAllowed st.instr = true ∧ usesOk regs params shared labels st.instr = .ok () := by
  have types (ok : typesOk st.instr = .ok ()) : typesAllowed st.instr = true := by
    by_contra refused
    simp [typesOk, refused] at ok
  unfold checkStmt at checked
  cases guard : st.guard with
  | none =>
    simp only [guard, bind_ok_iff] at checked
    obtain ⟨_, -, _, allowed, _, -, _, -, _, -, uses⟩ := checked
    exact ⟨types allowed, uses⟩
  | some gd =>
    simp only [guard, bind_ok_iff] at checked
    obtain ⟨_, -, _, allowed, _, -, _, -, _, -, uses⟩ := checked
    exact ⟨types allowed, uses⟩

theorem step_sound (accepted : KernelOk k) (narrow : Narrow k s) :
    ∃ out, step k al c s g sh = some out ∧ Narrow k out.s ∧
      ∀ why, out.res = .fault why → OutOfRegion al why ∨ why = .pastEnd s.pc ∧ k.body.length ≤ s.pc := by
  obtain ⟨regs, shared, table, -, -, statements⟩ := accepted.checked
  rcases step_cases k al c s g sh with ⟨beyond, executed⟩ | ⟨st, current, ⟨-, executed⟩ | ⟨-, executed⟩⟩
  · refine ⟨_, executed, narrow, ?_⟩
    rintro why ⟨⟩
    exact .inr ⟨rfl, List.getElem?_eq_none_iff.mp beyond⟩
  · exact ⟨_, executed, narrow, by simp⟩
  · have member := List.mem_of_getElem? current
    obtain ⟨types, uses⟩ := checkStmt_uses (statements st member)
    obtain ⟨out, result, kept, faults⟩ :=
      stepInstr_sound al c g sh narrow table (accepted.forms st member) types uses
    exact ⟨out, executed.trans result, kept, fun why same => .inl (faults why same)⟩
end

/-- The states that steps lead to, each step over memories and a launch of its
    own. -/
inductive Run (k : Kernel) (s : TState) : TState → Prop
  | refl : Run k s s
  | step {t : TState} {al : Allocs} {c : Ctx} {g sh : Mem} {out : Outcome} (run : Run k s t)
      (stepped : step k al c t g sh = some out) : Run k s out.s

theorem Run.narrow {k : Kernel} (accepted : KernelOk k) {s t : TState} (run : Run k s t) (narrow : Narrow k s) :
    Narrow k t := by
  induction run with
  | refl => exact narrow
  | step _ stepped ih =>
    obtain ⟨out, executed, kept, -⟩ := step_sound _ _ _ _ accepted ih
    rw [stepped] at executed
    cases executed
    exact kept

/-- In a kernel of an accepted module, registers of a 32-bit type keep 32 bits
    over any run, no step panics, and a step only faults on an access outside
    the allocations or past the end of the body. -/
theorem run_sound {src : String} {m : Module} (accepted : PtxParser.parseModule src = .ok m) {k : Kernel}
    (member : k ∈ m.kernels) {s t : TState} (narrow : Narrow k s) (run : Run k s t) :
    Narrow k t ∧ ∀ (al : Allocs) (c : Ctx) (g sh : Mem), ∃ out, step k al c t g sh = some out ∧
      ∀ why, out.res = .fault why → OutOfRegion al why ∨ why = .pastEnd t.pc ∧ k.body.length ≤ t.pc := by
  obtain ⟨-, -, kernels, -⟩ := PtxModuleReads.parseModule_reads accepted
  have kept := run.narrow (kernels k member) narrow
  refine ⟨kept, ?_⟩
  intro al c g sh
  obtain ⟨out, executed, -, faults⟩ := step_sound al c g sh (kernels k member) kept
  exact ⟨out, executed, faults⟩

def counterText : String :=
  ".version 8.5 .target sm_80 .address_size 64 .entry f()\x7b.reg .b32 %r;L:add.u32 %r,%r,1;bra L;\x7d"

theorem run_sound_counter :
    ∃ m k, PtxParser.parseModule counterText = .ok m ∧ k ∈ m.kernels ∧ ∀ t, Run k TState.init t → Narrow k t := by
  have accepted : ((PtxParser.parseModule counterText).toOption.map (fun m => m.kernels.length)) = some 1 := by
    have chars : counterText.toList = _ := String.toList_ofList
    rw [PtxParser.parseModule_chars chars]
    decide +kernel
  cases result : PtxParser.parseModule counterText with
  | error e =>
    rw [result] at accepted
    contradiction
  | ok m =>
    rw [result] at accepted
    obtain ⟨k, only⟩ := List.length_eq_one_iff.mp (Option.some_inj.mp accepted)
    have member : k ∈ m.kernels := by simp [only]
    have zero : Narrow k TState.init := by
      intro r t _ _
      exact (by decide : (0#64).toNat < 2 ^ 32)
    exact ⟨m, k, rfl, member, fun t run => (run_sound result member zero run).1⟩

end E5r.PtxSoundness
