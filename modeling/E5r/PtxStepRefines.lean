import E5r.PtxSoundness

/-!
One step of the interpreter against one step of the reference model on the
exported kernel, with the zero NaN oracle. They agree on every instruction; only
the end of a region is a sum of 128 bits in the interpreter and a natural number
in the model.
-/
namespace E5r.PtxStepRefines
open PtxSyntax PtxMachine PtxValues
open PtxInstrReads (FormOk)
open PtxChecker (typesAllowed)

/-! ### Agreement -/

def Reports (made : Option Access) (pending : Option PtxModel.Acc) : Prop :=
  made.map (fun a => (space a.sp, a.addr, a.size, kind a.kind)) =
    pending.map (fun p => (p.sp, p.a, p.sz.bytes, p.kind))

/-- The same outcome; a step that moves leaves the same state and memories and
    reports the pending access. -/
def SameOutcome (pending : Option PtxModel.Acc) : Option Outcome → PtxModel.TRes → Prop
  | some ⟨.ok made, t, g, sh⟩, .ok t' h => state t = t' ∧ heap g sh = h ∧ Reports made pending
  | some ⟨.wait, _, _, _⟩, .wait => True
  | some ⟨.halted, _, _, _⟩, .halted => True
  | some ⟨.fault _, _, _, _⟩, .fault => True
  | _, _ => False

/-- One step of the interpreter has the outcome of the model's. -/
def Refines (k : Kernel) (al : Allocs) (c : Ctx) (s : TState) (g sh : Mem) : Prop :=
  SameOutcome (PtxModel.action (PtxExport.kernel k) (context c) (state s)).acc (PtxMachine.step k al c s g sh)
    (PtxModel.tstep (PtxExport.kernel k) (allocs al) (context c) (state s) (heap g sh))

/-! ### Regions -/

/-- The end of a region is a number of 128 bits. -/
def Bounded (r : Region) : Prop := r.base.toNat + r.size.toNat < 2 ^ 128

/-- The bytes are unaligned, inside a region whose end has 128 bits, or below
    every region whose end has not. -/
def Decided (al : List Region) (a : BitVec 64) (n : ℕ) : Prop :=
  a.toNat % n ≠ 0 ∨
    (∃ r ∈ al, Bounded r ∧ r.base.toNat ≤ a.toNat ∧ a.toNat + n ≤ r.base.toNat + r.size.toNat) ∨
      ∀ r ∈ al, r.base.toNat ≤ a.toNat → Bounded r

def operandOf : Instr → Option (Space × Ty × Address)
  | .ld sp t _ a | .st sp t a _ | .atom sp _ t _ a _ | .cas sp t _ a _ _ | .red sp _ t a _ => some (sp, t, a)
  | _ => none

def InstrInRange (al : Allocs) (c : Ctx) (s : TState) (i : Instr) : Prop :=
  ∀ sp t a sp' x, operandOf i = some (sp, t, a) → dataAddr c s sp a = some (sp', x) →
    Decided (al.of sp') x (width t / 8)

/-- The bytes that the next statement is about to access are decided. -/
def InRange (k : Kernel) (al : Allocs) (c : Ctx) (s : TState) : Prop :=
  ∀ st, k.body[s.pc]? = some st → (∀ gd, st.guard = some gd → s.pred gd.pred ≠ gd.neg) →
    InstrInRange al c s st.instr

/-- The check of the interpreter on one region: the end has to be a number of
    128 bits. -/
theorem holds_iff (r : Region) (a : BitVec 64) {n : ℕ} (short : n ≤ 8) :
    (r.base.setWidth 128 ≤ a.setWidth 128 ∧
        a.setWidth 128 + BitVec.ofNat 128 n ≤ r.base.setWidth 128 + r.size) ↔
      Bounded r ∧ r.base.toNat ≤ a.toNat ∧ a.toNat + n ≤ r.base.toNat + r.size.toNat := by
  have base := r.base.isLt
  have size := r.size.isLt
  have address := a.isLt
  simp only [Bounded, BitVec.le_def, BitVec.toNat_add, BitVec.toNat_setWidth, BitVec.toNat_ofNat]
  rw [Nat.mod_eq_of_lt (by omega : r.base.toNat < 2 ^ 128), Nat.mod_eq_of_lt (by omega : a.toNat < 2 ^ 128),
    Nat.mod_eq_of_lt (by omega : n < 2 ^ 128), Nat.mod_eq_of_lt (by omega : a.toNat + n < 2 ^ 128)]
  by_cases bounded : r.base.toNat + r.size.toNat < 2 ^ 128
  · rw [Nat.mod_eq_of_lt bounded]
    simp only [bounded, true_and]
  · have wrapped : (r.base.toNat + r.size.toNat) % 2 ^ 128 = r.base.toNat + r.size.toNat - 2 ^ 128 := by
      rw [Nat.mod_eq_sub_mod (by omega), Nat.mod_eq_of_lt (by omega)]
    rw [wrapped]
    constructor
    · rintro ⟨above, inside⟩
      omega
    · rintro ⟨end_, -⟩
      contradiction

theorem accessOk_eq_iff (al : List Region) (a : BitVec 64) (sz : PtxModel.Size) :
    accessOk al a sz.bytes = PtxModel.accessOk (al.map region) a sz ↔ Decided al a sz.bytes := by
  have short : sz.bytes ≤ 8 := by cases sz <;> decide
  have code : accessOk al a sz.bytes = true ↔ a.toNat % sz.bytes = 0 ∧ ∃ r ∈ al, Bounded r ∧
      r.base.toNat ≤ a.toNat ∧ a.toNat + sz.bytes ≤ r.base.toNat + r.size.toNat := by
    simp only [accessOk, Bool.and_eq_true, decide_eq_true_eq, List.any_eq_true, holds_iff _ a short]
  have model : PtxModel.accessOk (al.map region) a sz = true ↔ a.toNat % sz.bytes = 0 ∧ ∃ r ∈ al,
      r.base.toNat ≤ a.toNat ∧ a.toNat + sz.bytes ≤ r.base.toNat + r.size.toNat := by
    simp only [PtxModel.accessOk, PtxModel.Region.holds, Bool.and_eq_true, beq_iff_eq, List.any_eq_true,
      decide_eq_true_eq, List.mem_map, exists_exists_and_eq_and]
    rfl
  rw [Bool.eq_iff_iff, code, model, Decided]
  constructor
  · intro same
    by_contra undecided
    simp only [not_or, not_not, not_forall] at undecided
    obtain ⟨aligned, outside, r, member, above, unbounded⟩ := undecided
    have inside : a.toNat + sz.bytes ≤ r.base.toNat + r.size.toNat := by
      have := a.isLt
      unfold Bounded at unbounded
      omega
    exact outside (same.mpr ⟨aligned, r, member, above, inside⟩).2
  · rintro (unaligned | inside | bounded)
    · simp [unaligned]
    · constructor
      · rintro ⟨aligned, r, member, -, within⟩
        exact ⟨aligned, r, member, within⟩
      · rintro ⟨aligned, -⟩
        exact ⟨aligned, inside⟩
    · constructor
      · rintro ⟨aligned, r, member, -, inside⟩
        exact ⟨aligned, r, member, inside⟩
      · rintro ⟨aligned, r, member, above, below⟩
        exact ⟨aligned, r, member, bounded r member above, above, below⟩

/-! ### States -/

theorem state_set (s : TState) (d : String) (v : BitVec 64) : state (s.set d v) = (state s).set d v := by
  simp only [state, TState.set, PtxModel.TState.set, PtxModel.TState.mk.injEq, true_and]
  constructor
  · funext r
    by_cases same : r = d <;> simp [TState.reg, HashMap.insert, same]
  · rfl

theorem state_setPred (s : TState) (d : String) (v : Bool) : state (s.setPred d v) = (state s).setp d v := by
  simp only [state, TState.setPred, PtxModel.TState.setp, PtxModel.TState.mk.injEq, true_and]
  constructor
  · rfl
  · funext r
    by_cases same : r = d <;> simp [TState.pred, HashMap.insert, same]

theorem op_eq (c : Ctx) (s : TState) (o : Operand) :
    s.op c o = PtxModel.opVal (context c) (state s) (PtxExport.operand o) := by
  cases o with
  | reg r => rfl
  | imm v => rfl
  | sreg x =>
    cases x with
    | tid d | ntid d | ctaid d | nctaid d => cases d <;> rfl
  | sym n => rfl
  | fimm v w => simp [TState.op, PtxModel.opVal, PtxExport.operand]

theorem fbits_op (c : Ctx) (s : TState) (t : Ty) (o : Operand) :
    PtxModel.fbits t (PtxModel.opVal (context c) (state s) (PtxExport.operand o)) = (fbits t (s.op c o)).toNat := by
  rw [fbits_eq, op_eq]

theorem dataAddr_eq (c : Ctx) (s : TState) (sp : Space) (a : Address) :
    PtxModel.dataAddr (context c) (state s) sp (PtxExport.address a) =
      (dataAddr c s sp a).map (fun p => (space p.1, p.2)) := by
  cases sp <;> cases a <;> rfl

theorem lookupLabel_eq (labels : List (String × ℕ)) (l : String) :
    PtxModel.lookupLabel labels l = (labels.find? (fun m => m.1 = l)).map Prod.snd := by
  induction labels with
  | nil => rfl
  | cons m labels ih =>
    obtain ⟨n, pc⟩ := m
    by_cases same : n = l <;> simp [PtxModel.lookupLabel, same, ih]

/-! ### Actions -/

/-- What an action does to a state and its memories. -/
def performed (al : PtxModel.Sp → List PtxModel.Region) (h : PtxModel.Heap) : PtxModel.Action → PtxModel.TRes
  | .next s => .ok s h
  | .load sp a sz k => if PtxModel.accessOk (al sp) a sz then .ok (k (PtxModel.rd (h.at sp) a sz)) h else .fault
  | .store sp a sz v s =>
    if PtxModel.accessOk (al sp) a sz then .ok s (h.set sp (PtxModel.wr (h.at sp) a sz v)) else .fault
  | .atom sp a sz f k =>
    if PtxModel.accessOk (al sp) a sz then
      .ok (k (PtxModel.rd (h.at sp) a sz)) (h.set sp (PtxModel.wr (h.at sp) a sz (f (PtxModel.rd (h.at sp) a sz))))
    else .fault
  | .bar => .wait
  | .done => .halted
  | .fault => .fault

section
variable (al : Allocs) (c : Ctx) (s : TState) (g sh : Mem)

/-- An outcome is what the model's action does. -/
def Matches (o : Option Outcome) (act : PtxModel.Action) : Prop :=
  SameOutcome act.acc o (performed (allocs al) (heap g sh) act)

theorem matches_next {t : TState} {t' : PtxModel.TState} (same : state t = t') :
    Matches al g sh (some ⟨.ok none, t, g, sh⟩) (.next t') := ⟨same, rfl, rfl⟩

theorem matches_wrote (d : String) {v w : BitVec 64} (same : v = w) :
    Matches al g sh (some (wrote s g sh d v)) (.next ((state s).set d w)) := by
  subst same
  exact matches_next al g sh (state_set s d v)

theorem matches_setPred (d : String) {v w : Bool} (same : v = w) :
    Matches al g sh (some ⟨.ok none, s.setPred d v, g, sh⟩) (.next ((state s).setp d w)) := by
  subst same
  exact matches_next al g sh (state_setPred s d v)

theorem matches_fault (why : Fault) : Matches al g sh (some (faulted s g sh why)) .fault := trivial

theorem matches_float {t : Ty} (float : t.isFloat = true) (d : String) {code : Option (Option (BitVec 64))}
    {model : Option ℕ} (agrees : FpBits.Agrees (fmt t) code model) :
    Matches al g sh (wroteFloat s g sh t d code)
      (.next ((state s).set d (PtxModel.fres (context c) (state s) t model))) := by
  obtain ⟨r, rfl, same⟩ := agrees
  exact matches_wrote al s g sh d (fres_eq float c s same)

theorem allocs_of (sp : Sp) : allocs al (space sp) = (al.of sp).map region := by cases sp <;> rfl

theorem heap_at (sp : Sp) : (heap g sh).at (space sp) = memory (memOf g sh sp) := by cases sp <;> rfl

theorem heap_set (sp : Sp) (a : BitVec 64) (t : Ty) (v : BitVec 64) :
    heap (wroteMem g sh sp a (width t / 8) v).1 (wroteMem g sh sp a (width t / 8) v).2 =
      (heap g sh).set (space sp) (PtxModel.wr ((heap g sh).at (space sp)) a (PtxModel.size t) v) := by
  rw [heap_at, ← wr_eq]
  cases sp <;> rfl

theorem matches_access {sp : Sp} {a : BitVec 64} {t : Ty} {faults moves : Outcome} {act : PtxModel.Action}
    {t' : PtxModel.TState} {h : PtxModel.Heap} {why : Fault} {made : Option Access}
    (fault : faults.res = .fault why) (ok : moves.res = .ok made)
    (checked : performed (allocs al) (heap g sh) act =
      if PtxModel.accessOk (allocs al (space sp)) a (PtxModel.size t) then .ok t' h else .fault)
    (moved : SameOutcome act.acc (some moves) (.ok t' h)) :
    Matches al g sh (some (if !accessOk (al.of sp) a (width t / 8) then faults else moves)) act ↔
      Decided (al.of sp) a (width t / 8) := by
  obtain ⟨res, t₁, g₁, sh₁⟩ := faults
  obtain ⟨res', t₂, g₂, sh₂⟩ := moves
  cases fault
  cases ok
  rw [Matches, checked, bytes_eq, ← accessOk_eq_iff, allocs_of]
  cases code : accessOk (al.of sp) a (PtxModel.size t).bytes <;>
    cases model : PtxModel.accessOk ((al.of sp).map region) a (PtxModel.size t)
  · simp [SameOutcome]
  · simp [SameOutcome]
  · simp [SameOutcome]
  · simpa using moved

theorem matches_load (sp : Space) (t : Ty) (d : String) (a : Address) :
    Matches al g sh (some (load al c s g sh sp t d a))
        (match PtxModel.dataAddr (context c) (state s) sp (PtxExport.address a) with
          | some (sp, x) => .load sp x (PtxModel.size t) (fun v => (state s).set d v)
          | none => .fault) ↔
      ∀ sp' x, dataAddr c s sp a = some (sp', x) → Decided (al.of sp') x (width t / 8) := by
  rw [dataAddr_eq]
  unfold load
  cases address : dataAddr c s sp a with
  | none => simp [Matches, SameOutcome, performed, faulted]
  | some p =>
    obtain ⟨space', x⟩ := p
    simp only [Option.map_some, Option.some_inj, Prod.mk.injEq, and_imp]
    refine (matches_access al g sh rfl rfl rfl ?_).trans ⟨?_, ?_⟩
    · refine ⟨?_, rfl, ?_⟩
      · rw [heap_at, ← rd_eq]
        exact state_set s d _
      · simp [Reports, PtxModel.Action.acc, bytes_eq, kind]
    · rintro decided _ _ rfl rfl
      exact decided
    · intro each
      exact each _ _ rfl rfl

theorem matches_store (sp : Space) (t : Ty) (a : Address) (v : Operand) :
    Matches al g sh (some (store al c s g sh sp t a v))
        (match PtxModel.dataAddr (context c) (state s) sp (PtxExport.address a) with
          | some (sp, x) =>
            .store sp x (PtxModel.size t) (PtxModel.opVal (context c) (state s) (PtxExport.operand v)) (state s).skip
          | none => .fault) ↔
      ∀ sp' x, dataAddr c s sp a = some (sp', x) → Decided (al.of sp') x (width t / 8) := by
  rw [dataAddr_eq, ← op_eq]
  unfold store
  cases address : dataAddr c s sp a with
  | none => simp [Matches, SameOutcome, performed, faulted]
  | some p =>
    obtain ⟨space', x⟩ := p
    simp only [Option.map_some, Option.some_inj, Prod.mk.injEq, and_imp]
    refine (matches_access al g sh rfl rfl rfl ?_).trans ⟨?_, ?_⟩
    · refine ⟨rfl, heap_set g sh _ x t _, ?_⟩
      simp [Reports, PtxModel.Action.acc, bytes_eq, kind]
    · rintro decided _ _ rfl rfl
      exact decided
    · intro each
      exact each _ _ rfl rfl

/-- A read and a write in one step, with the same new value and the old value in
    the same register. -/
theorem matches_atomic (sp : Space) (t : Ty) (a : Address) {new : BitVec 64 → BitVec 64} (d : Option String)
    {f : PtxModel.Val → PtxModel.Val} {k : PtxModel.Val → PtxModel.TState} (same : ∀ old, new old = f old)
    (next : ∀ old, state (match d with
      | some d => s.set d (fit t old)
      | none => s.skip) = k old) :
    Matches al g sh (some (atomic al c s g sh sp t a new d))
        (PtxModel.atomic (context c) (state s) sp t (PtxExport.address a) f k) ↔
      ∀ sp' x, dataAddr c s sp a = some (sp', x) → Decided (al.of sp') x (width t / 8) := by
  rw [PtxModel.atomic, dataAddr_eq]
  unfold atomic
  cases address : dataAddr c s sp a with
  | none => simp [Matches, SameOutcome, performed, faulted]
  | some p =>
    obtain ⟨space', x⟩ := p
    simp only [Option.map_some, Option.some_inj, Prod.mk.injEq, and_imp]
    refine (matches_access al g sh rfl rfl rfl ?_).trans ⟨?_, ?_⟩
    · refine ⟨?_, ?_, ?_⟩
      · rw [heap_at, ← rd_eq, ← next]
        cases d <;> rfl
      · rw [heap_set, heap_at, ← rd_eq, same]
      · simp [Reports, PtxModel.Action.acc, bytes_eq, kind]
    · rintro decided _ _ rfl rfl
      exact decided
    · intro each
      exact each _ _ rfl rfl
end

/-! ### Instructions -/

section
variable (k : Kernel) (al : Allocs) (c : Ctx) (s : TState) (g sh : Mem)

/-- What an instruction does in the model. -/
abbrev exec (i : Instr) : PtxModel.Action :=
  PtxModel.exec (PtxExport.kernel k) (context c) (state s) (PtxExport.instr i)

theorem instrInRange_of_none {i : Instr} (none_ : operandOf i = none) : InstrInRange al c s i := by
  intro sp t a sp' x operand
  rw [none_] at operand
  cases operand

theorem matches_iff_of_none {i : Instr} {o : Option Outcome} {act : PtxModel.Action} (none_ : operandOf i = none)
    (same : Matches al g sh o act) : Matches al g sh o act ↔ InstrInRange al c s i :=
  ⟨fun _ => instrInRange_of_none al c s none_, fun _ => same⟩

theorem instrInRange_iff {i : Instr} {sp : Space} {t : Ty} {a : Address} (operand : operandOf i = some (sp, t, a)) :
    InstrInRange al c s i ↔
      ∀ sp' x, dataAddr c s sp a = some (sp', x) → Decided (al.of sp') x (width t / 8) := by
  unfold InstrInRange
  rw [operand]
  constructor
  · intro each sp' x
    exact each sp t a sp' x rfl
  · rintro each _ _ _ sp' x ⟨⟩
    exact each sp' x

theorem matches_bin (op : BinOp) (t : Ty) (d : String) (x y : Operand) :
    Matches al g sh (stepInstr k al c s g sh (.bin op t d x y)) (exec k c s (.bin op t d x y)) := by
  cases op with
  | add =>
    apply matches_wrote
    rw [op_eq, op_eq]
    exact atWidth_eq t (fun _ x y => x + y) add_narrow (fun _ _ => rfl) _ _
  | sub =>
    apply matches_wrote
    rw [op_eq, op_eq]
    exact atWidth_eq t (fun _ x y => x - y) sub_narrow (fun _ _ => rfl) _ _
  | mulLo =>
    apply matches_wrote
    rw [op_eq, op_eq]
    exact atWidth_eq t (fun _ x y => x * y) mul_narrow (fun _ _ => rfl) _ _
  | and =>
    apply matches_wrote
    rw [op_eq, op_eq]
    exact atWidth_eq t (fun _ x y => x &&& y) and_narrow (fun _ _ => rfl) _ _
  | or =>
    apply matches_wrote
    rw [op_eq, op_eq]
    exact atWidth_eq t (fun _ x y => x ||| y) or_narrow (fun _ _ => rfl) _ _
  | xor =>
    apply matches_wrote
    rw [op_eq, op_eq]
    exact atWidth_eq t (fun _ x y => x ^^^ y) xor_narrow (fun _ _ => rfl) _ _
  | shl =>
    apply matches_wrote
    rw [op_eq, op_eq]
    exact shift_left_eq t _ _
  | shr =>
    have order := signed_eq t
    cases signed : PtxModel.signed t with
    | true =>
      rw [signed] at order
      simp only [stepInstr, exec, PtxExport.instr, PtxModel.exec, order, signed, if_true]
      apply matches_wrote
      rw [op_eq, op_eq]
      exact shift_arithmetic_eq t _ _
    | false =>
      rw [signed] at order
      simp only [stepInstr, exec, PtxExport.instr, PtxModel.exec, order, signed, Bool.false_eq_true, if_false]
      apply matches_wrote
      rw [op_eq, op_eq]
      exact shift_right_eq t _ _
  | mulWide =>
    cases t with
    | u32 =>
      apply matches_wrote
      rw [op_eq, op_eq, lo32_eq, lo32_eq]
    | s32 =>
      apply matches_wrote
      rw [op_eq, op_eq, sext32_eq, sext32_eq]
    | _ => exact matches_fault al s g sh .mulWideType

theorem stepInstr_matches_iff {i : Instr} (form : FormOk i) (types : typesAllowed i = true) :
    Matches al g sh (stepInstr k al c s g sh i) (exec k c s i) ↔ InstrInRange al c s i := by
  cases i with
  | bin op t d x y => exact matches_iff_of_none al c s g sh rfl (matches_bin k al c s g sh op t d x y)
  | madLo t d a b e =>
    apply matches_iff_of_none al c s g sh rfl
    apply matches_wrote
    rw [op_eq, op_eq, op_eq, atWidth_eq t (fun _ x y => x * y) mul_narrow (fun _ _ => rfl)]
    exact atWidth_eq t (fun _ x y => x + y) add_narrow (fun _ _ => rfl) _ _
  | not t d a =>
    apply matches_iff_of_none al c s g sh rfl
    apply matches_wrote
    rw [op_eq, fit_eq]
  | mov t d a =>
    apply matches_iff_of_none al c s g sh rfl
    apply matches_wrote
    rw [op_eq, fit_eq]
  | setp op t p a b =>
    apply matches_iff_of_none al c s g sh rfl
    have integer : t.isFloat = false := by
      by_contra float
      simp [typesAllowed, Bool.not_eq_false _ ▸ float] at types
    simp only [stepInstr, exec, PtxExport.instr, PtxModel.exec, cmp_eq op integer, op_eq]
    cases PtxModel.cmpVal op t (PtxModel.opVal (context c) (state s) (PtxExport.operand a))
      (PtxModel.opVal (context c) (state s) (PtxExport.operand b)) with
    | none => exact matches_fault al s g sh .orderedBits
    | some v => exact matches_setPred al s g sh p rfl
  | selp t d a b p =>
    apply matches_iff_of_none al c s g sh rfl
    apply matches_wrote
    rw [op_eq, op_eq, fit_eq]
    rfl
  | cvt dt st d a =>
    apply matches_iff_of_none al c s g sh rfl
    apply matches_wrote
    rw [op_eq, convert_eq]
  | cvtaGlobal d a =>
    apply matches_iff_of_none al c s g sh rfl
    apply matches_wrote
    rw [op_eq]
  | ld sp t d a =>
    cases sp with
    | param =>
      have outside : InstrInRange al c s (.ld .param t d a) := by
        rintro _ _ _ _ _ ⟨⟩ address
        cases address
      refine ⟨fun _ => outside, fun _ => ?_⟩
      cases a with
      | reg r off => exact matches_fault al s g sh .memoryForm
      | param n off =>
        by_cases zero : off.getD 0 = 0
        · simp only [stepInstr, exec, PtxExport.instr, PtxExport.address, zero, if_true]
          apply matches_wrote
          rw [fit_eq]
          rfl
        · simp only [stepInstr, exec, PtxExport.instr, PtxExport.address, zero, if_false]
          generalize off.getD 0 = v at zero
          cases v with
          | ofNat v =>
            cases v with
            | zero => exact absurd rfl zero
            | succ v => exact matches_fault al s g sh .memoryForm
          | negSucc v => exact matches_fault al s g sh .memoryForm
    | global =>
      rw [instrInRange_iff al c s rfl, ← matches_load al c s g sh .global t d a]
      exact Iff.rfl
    | shared =>
      rw [instrInRange_iff al c s rfl, ← matches_load al c s g sh .shared t d a]
      exact Iff.rfl
  | st sp t a v =>
    rw [instrInRange_iff al c s rfl, ← matches_store al c s g sh sp t a v]
    cases sp with
    | param => exact absurd rfl form.2
    | global => exact Iff.rfl
    | shared => exact Iff.rfl
  | atom sp op t d a b =>
    rw [instrInRange_iff al c s rfl]
    apply matches_atomic al c s g sh sp t a (some d)
    · intro old
      rw [op_eq, atomVal_eq]
    · intro old
      rw [state_set, fit_eq]
  | cas sp t d a b e =>
    rw [instrInRange_iff al c s rfl]
    apply matches_atomic al c s g sh sp t a (some d)
    · intro old
      rw [op_eq, op_eq, fit_eq, fit_eq]
    · intro old
      rw [state_set, fit_eq]
  | red sp op t a b =>
    rw [instrInRange_iff al c s rfl]
    apply matches_atomic al c s g sh sp t a none
    · intro old
      rw [op_eq, atomVal_eq]
    · intro old
      rfl
  | bar => exact matches_iff_of_none al c s g sh rfl trivial
  | ret => exact matches_iff_of_none al c s g sh rfl trivial
  | exit => exact matches_iff_of_none al c s g sh rfl trivial
  | bra u l =>
    apply matches_iff_of_none al c s g sh rfl
    simp only [stepInstr, exec, PtxExport.instr, PtxModel.exec, PtxModel.jump, PtxExport.kernel, lookupLabel_eq]
    cases k.labels.find? (fun m => m.1 = l) with
    | none => exact matches_fault al s g sh (.missingLabel l)
    | some m => exact matches_next al g sh rfl
  | fbin op m ftz sat t d a b =>
    apply matches_iff_of_none al c s g sh rfl
    have insideA := fbits_inFormat form (s.op c a)
    have insideB := fbits_inFormat form (s.op c b)
    simp only [exec, PtxExport.instr, PtxModel.exec, fbits_op, ← fmt_eq]
    cases op with
    | add =>
      exact matches_float al c s g sh form d (FpBits.fadd_agrees (fmt_fits t) m ftz sat insideA insideB)
    | sub =>
      exact matches_float al c s g sh form d (FpBits.fsub_agrees (fmt_fits t) m ftz sat insideA insideB)
    | mul =>
      exact matches_float al c s g sh form d (FpBits.fmul_agrees (fmt_fits t) m ftz sat insideA insideB)
    | div =>
      exact matches_float al c s g sh form d (FpBits.fdiv_agrees (fmt_fits t) m ftz insideA insideB)
  | ffma m ftz sat t d a b e =>
    apply matches_iff_of_none al c s g sh rfl
    simp only [exec, PtxExport.instr, PtxModel.exec, fbits_op, ← fmt_eq]
    exact matches_float al c s g sh form d (FpBits.ffma_agrees (fmt_fits t) m ftz sat
      (fbits_inFormat form (s.op c a)) (fbits_inFormat form (s.op c b)) (fbits_inFormat form (s.op c e)))
  | fsqrt m ftz t d a =>
    apply matches_iff_of_none al c s g sh rfl
    simp only [exec, PtxExport.instr, PtxModel.exec, fbits_op, ← fmt_eq]
    exact matches_float al c s g sh form d
      (FpBits.fsqrt_agrees (fmt_fits t) m ftz (fbits_inFormat form (s.op c a)))
  | frcp m ftz t d a =>
    apply matches_iff_of_none al c s g sh rfl
    simp only [exec, PtxExport.instr, PtxModel.exec, fbits_op, ← fmt_eq]
    exact matches_float al c s g sh form d
      (FpBits.frcp_agrees (fmt_fits t) m ftz (fbits_inFormat form (s.op c a)))
  | fneg ftz t d a =>
    apply matches_iff_of_none al c s g sh rfl
    simp only [exec, PtxExport.instr, PtxModel.exec, fbits_op, ← fmt_eq]
    exact matches_float al c s g sh form d
      ⟨_, rfl, FpBits.fneg_encodes (fmt_fits t) ftz (fbits_inFormat form (s.op c a))⟩
  | fabs ftz t d a =>
    apply matches_iff_of_none al c s g sh rfl
    simp only [exec, PtxExport.instr, PtxModel.exec, fbits_op, ← fmt_eq]
    exact matches_float al c s g sh form d
      ⟨_, rfl, FpBits.fabs_encodes (fmt_fits t) ftz (fbits_inFormat form (s.op c a))⟩
  | fminmax mx ftz nan t d a b =>
    apply matches_iff_of_none al c s g sh rfl
    simp only [exec, PtxExport.instr, PtxModel.exec, fbits_op, ← fmt_eq]
    exact matches_float al c s g sh form d ⟨_, rfl, FpBits.fminmax_encodes (fmt_fits t) mx ftz nan
      (fbits_inFormat form (s.op c a)) (fbits_inFormat form (s.op c b))⟩
  | fsetp op ftz t p a b =>
    apply matches_iff_of_none al c s g sh rfl
    apply matches_setPred
    rw [FpBits.fsetp_eq (fmt_fits t) op ftz (fbits_inFormat form _) (fbits_inFormat form _), fbits_eq, fbits_eq,
      fmt_eq, op_eq, op_eq]
  | cvtF dt st r ftz sat d a =>
    apply matches_iff_of_none al c s g sh rfl
    obtain ⟨v, computed, model, -⟩ := cvtFloat_eq form ftz sat c s (s.op c a)
    simp only [stepInstr, exec, PtxExport.instr, PtxModel.exec, computed, ← op_eq, model, Option.map_some]
    exact matches_wrote al s g sh d rfl
end

/-! ### The step -/

section
variable {k : Kernel} (al : Allocs) (c : Ctx) (s : TState) (g sh : Mem)

theorem tstep_performed :
    PtxModel.tstep (PtxExport.kernel k) (allocs al) (context c) (state s) (heap g sh) =
      performed (allocs al) (heap g sh) (PtxModel.action (PtxExport.kernel k) (context c) (state s)) := rfl

theorem action_of {st : Option Stmt} (current : k.body[s.pc]? = st) :
    PtxModel.action (PtxExport.kernel k) (context c) (state s) =
      match st with
      | none => .fault
      | some st => if PtxModel.guardHolds (state s) st.guard then exec k c s st.instr else .next (state s).skip := by
  have exported : (PtxExport.kernel k).body[(state s).pc]? = st.map PtxExport.stmt := by
    rw [← current]
    exact List.getElem?_map
  unfold PtxModel.action
  rw [exported]
  cases st <;> rfl

/-- The instruction that a statement executes has a form and types of the
    subset. -/
def WellFormed (k : Kernel) (s : TState) : Prop :=
  ∀ st, k.body[s.pc]? = some st → (∀ gd, st.guard = some gd → s.pred gd.pred ≠ gd.neg) →
    FormOk st.instr ∧ typesAllowed st.instr = true

/-- A step has the model's outcome exactly when the access it is about to make is
    decided. -/
theorem refines_iff_of_wellFormed (wellFormed : WellFormed k s) : Refines k al c s g sh ↔ InRange k al c s := by
  unfold Refines
  rw [tstep_performed]
  rcases step_cases k al c s g sh with
    ⟨beyond, executed⟩ | ⟨st, current, ⟨⟨gd, guard, fails⟩, executed⟩ | ⟨holds, executed⟩⟩
  · rw [executed, action_of c s beyond]
    refine ⟨fun _ => ?_, fun _ => matches_fault al s g sh _⟩
    intro st current
    rw [beyond] at current
    cases current
  · have stays : PtxModel.guardHolds (state s) st.guard = false := by
      rw [guard]
      simp [PtxModel.guardHolds, state, fails]
    rw [executed, action_of c s current]
    simp only [stays, Bool.false_eq_true, if_false]
    refine ⟨fun _ => ?_, fun _ => matches_next al g sh rfl⟩
    intro other same runs
    rw [current] at same
    cases same
    exact absurd fails (runs gd guard)
  · have moves : PtxModel.guardHolds (state s) st.guard = true := by
      cases guard : st.guard with
      | none => rfl
      | some gd => simpa [PtxModel.guardHolds, state] using holds gd guard
    obtain ⟨form, types⟩ := wellFormed st current holds
    rw [executed, action_of c s current]
    simp only [moves, if_true]
    refine (stepInstr_matches_iff k al c s g sh form types).trans ⟨?_, ?_⟩
    · intro inside other same _
      rw [current] at same
      cases same
      exact inside
    · intro inside
      exact inside st current holds

theorem refines_iff (accepted : PtxModuleReads.KernelOk k) : Refines k al c s g sh ↔ InRange k al c s := by
  obtain ⟨regs, shared, -, -, -, statements⟩ := accepted.checked
  apply refines_iff_of_wellFormed
  intro st current _
  have member := List.mem_of_getElem? current
  exact ⟨accepted.forms st member, (PtxSoundness.checkStmt_uses (statements st member)).1⟩
end

/-- A step of an accepted kernel has the outcome of the model's step, with the
    same state, memories and access, exactly when no access of a region that ends
    beyond 128 bits is left to decide. -/
theorem step_refines_iff {src : String} {m : Module} (accepted : PtxParser.parseModule src = .ok m) {k : Kernel}
    (member : k ∈ m.kernels) (al : Allocs) (c : Ctx) (s : TState) (g sh : Mem) :
    Refines k al c s g sh ↔ InRange k al c s := by
  obtain ⟨-, -, kernels, -⟩ := PtxModuleReads.parseModule_reads accepted
  exact refines_iff al c s g sh (kernels k member)

def loadText : String :=
  ".version 8.5 .target sm_80 .address_size 64 .entry f()\x7b.reg .b32 %r;.reg .b64 %a;ld.global.u32 %r,[%a];\x7d"

def loadKernel : Kernel where
  visible := false
  name := "f"
  params := []
  regs := [⟨.b32, "%r", none⟩, ⟨.b64, "%a", none⟩]
  shared := []
  decls := [.reg 0, .reg 1]
  body := [⟨none, .ld .global .u32 "%r" (.reg "%a" none)⟩]
  labels := []

theorem loadText_parse : PtxParser.parseModule loadText = .ok ⟨"8.5", "sm_80", 64, [loadKernel]⟩ := by
  have parsed : (PtxParser.parseModule loadText).toOption = some ⟨"8.5", "sm_80", 64, [loadKernel]⟩ := by
    have chars : loadText.toList = _ := String.toList_ofList
    rw [PtxParser.parseModule_chars chars]
    decide +kernel
  cases result : PtxParser.parseModule loadText with
  | error e =>
    rw [result] at parsed
    contradiction
  | ok m =>
    rw [result] at parsed
    rw [Option.some_inj.mp parsed]

def launch : Ctx := ⟨⟨0, 0, 0⟩, ⟨1, 1, 1⟩, ⟨0, 0, 0⟩, ⟨1, 1, 1⟩, HashMap.empty, HashMap.empty⟩

theorem step_refines_iff_known :
    Refines loadKernel ⟨[⟨4, 4⟩], []⟩ launch ⟨0, HashMap.empty.insert "%a" 4, HashMap.empty⟩ Mem.empty Mem.empty := by
  rw [step_refines_iff loadText_parse (List.mem_singleton_self _)]
  rintro st ⟨⟩ - sp t a sp' x ⟨⟩ ⟨⟩
  refine .inr (.inl ⟨⟨4, 4⟩, List.mem_singleton_self _, ?_, ?_, ?_⟩)
  · unfold Bounded
    decide
  · decide
  · decide

/-- A region that ends at `2 ^ 128`: the model loads from it and the interpreter
    faults. -/
theorem step_diverges :
    ¬∀ (src : String) (m : Module), PtxParser.parseModule src = .ok m → ∀ k ∈ m.kernels,
      ∀ (al : Allocs) (c : Ctx) (s : TState) (g sh : Mem), Refines k al c s g sh := by
  intro every
  have refines := every _ _ loadText_parse loadKernel (List.mem_singleton_self _) ⟨[⟨1, -1⟩], []⟩ launch
    ⟨0, HashMap.empty.insert "%a" 4, HashMap.empty⟩ Mem.empty Mem.empty
  obtain ⟨-, -, kernels, -⟩ := PtxModuleReads.parseModule_reads loadText_parse
  have range := (refines_iff _ _ _ _ _ (kernels loadKernel (List.mem_singleton_self _))).mp refines
  have unbounded : ¬Bounded ⟨1, -1⟩ := by
    unfold Bounded
    decide
  rcases range _ rfl (by rintro _ ⟨⟩) .global .u32 (.reg "%a" none) .global _ rfl rfl with unaligned | inside | bounded
  · exact unaligned (by decide)
  · obtain ⟨r, member, bounded, -⟩ := inside
    rw [List.mem_singleton.mp member] at bounded
    exact unbounded bounded
  · exact unbounded (bounded _ (List.mem_singleton_self _) (by decide))

end E5r.PtxStepRefines
