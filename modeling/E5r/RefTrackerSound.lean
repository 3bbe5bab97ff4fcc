import E5r.RefTracker

/-!
Where the reference tracker is right. A constant is kept over an instruction that writes
its register in a way the tracker does not look at: a second destination, the base of an
indexed access, a move from a vector lane. Over runs without such a step every reference
through a register names the address that the registers really form.
-/
namespace E5r.RefTracker
open ArchModel MemoryModel
open CfgModel (Flow)
open CacheCodec (Xref XrefKind)

/-! ### Steps that are modelled -/

/-- The register that the tracker sets or forgets for an instruction. -/
def updated (i : Insn) : Option Reg :=
  if i.mnemonic ∈ ["adrp", "adr"] then
    match i.operands with
    | .reg d :: .addr _ :: _ => some d
    | _ => none
  else if i.mnemonic = "mov" then
    match i.operands with
    | .reg d :: .imm _ :: _ => some d
    | .reg d :: .uimm _ :: _ => some d
    | .reg d :: .reg _ :: _ => some d
    | _ => none
  else if i.mnemonic ∈ stores then none
  else
    match i.operands with
    | .reg d :: _ => some d
    | _ => none

/-- A step over which constants stay right: what else the instruction writes is not known,
    results have 64 bits and no shift, or these change nothing, and an access with a known
    base is not indexed behind. -/
structure Modelled (i : Insn) (regs : Regs) : Prop where
  kept : ∀ r ∈ written i, regs r ≠ none → ∃ d, updated i = some d ∧ d.class = .gpr ∧ d.num = r
  sum : i.mnemonic = "add" → ∀ d n v more, i.operands = .reg d :: .reg n :: .imm v :: more →
    ∀ base, regs.get n = some base →
      (more = [] ∧ cut d.width (base + .ofInt 64 v) = base + .ofInt 64 v) ∨
      ∃ k, more = [.shiftOp .lsl k] ∧ cut d.width (base + BitVec.ofInt 64 v <<< k) = base + .ofInt 64 v
  constant : i.mnemonic = "mov" → ∀ d v more, i.operands = .reg d :: .imm v :: more →
    more = [] ∧ cut d.width (.ofInt 64 v) = .ofInt 64 v
  wide : i.mnemonic = "mov" → ∀ d v more, i.operands = .reg d :: .uimm v :: more →
    more = [] ∧ cut d.width (.ofNat 64 v) = .ofNat 64 v
  copy : i.mnemonic = "mov" → ∀ d n more, i.operands = .reg d :: .reg n :: more →
    ∀ v, regs.get n = some v → more = [] ∧ cut d.width v = v
  base : i.mnemonic ∈ accesses → ∀ m, Operand.mem m ∈ i.operands → m.index = none →
    m.base.bind regs.get ≠ none → m.mode = .postIndex → BitVec.ofInt 64 m.disp = 0

variable {i : Insn} {regs : Regs} {mem : MemoryMap} {s s' : Registers}

/-! ### Known registers -/

theorem Valid.get (valid : Valid regs s) {r : Reg} {v : BitVec 64} (known : regs.get r = some v) : s.value r = some v := by
  rw [Regs.get] at known
  split at known
  · next general =>
    rw [Registers.value, general, valid r.num v known]
  · cases known

/-- More known registers give the results that fewer do. -/
theorem arithmetic_mono {known known' : Reg → Option (BitVec 64)} (more : ∀ r v, known r = some v → known' r = some v)
    {p : Reg × BitVec 64} (result : arithmetic i known = some p) : arithmetic i known' = some p := by
  have lifted : ∀ (n : Reg) (f : BitVec 64 → Reg × BitVec 64), (known n).map f = some p → (known' n).map f = some p := by
    intro n f here
    obtain ⟨v, first, rfl⟩ := Option.map_eq_some_iff.mp here
    rw [more n v first]
    rfl
  rw [arithmetic] at result ⊢
  by_cases page : i.mnemonic ∈ ["adrp", "adr"]
  · rwa [if_pos page] at result ⊢
  · rw [if_neg page] at result ⊢
    by_cases add : i.mnemonic = "add"
    · rw [if_pos add] at result ⊢
      split at result
      · exact lifted _ _ result
      · exact lifted _ _ result
      · cases result
    · rw [if_neg add] at result ⊢
      by_cases mov : i.mnemonic = "mov"
      · rw [if_pos mov] at result ⊢
        split at result
        · exact result
        · exact result
        · exact lifted _ _ result
        · cases result
      · rwa [if_neg mov] at result ⊢

theorem get_set (regs : Regs) (d : Reg) (v : BitVec 64) (r : ℕ) :
    regs.set d v r = if d.class = .gpr ∧ r = d.num then some v else regs r := rfl

theorem get_forget (regs : Regs) (d : Reg) (r : ℕ) :
    regs.forget d r = if d.class = .gpr ∧ r = d.num then none else regs r := rfl

/-! ### What one step does -/

/-- The registers known after a step: those before it, with the updated one set to the
    result, or forgotten. -/
inductive Stepped (i : Insn) (regs : Regs) : Regs → Prop where
  | kept : updated i = none → Stepped i regs regs
  | set {d : Reg} {v : BitVec 64} : updated i = some d → arithmetic i regs.get = some (d, v) → Stepped i regs (regs.set d v)
  | forget {d : Reg} : updated i = some d → Stepped i regs (regs.forget d)

theorem trackAdr_stepped (page : i.mnemonic ∈ ["adrp", "adr"]) : Stepped i regs (trackAdr i regs mem).1 := by
  rw [trackAdr]
  split
  · next d a more shape =>
    refine .set ?_ ?_
    · rw [updated, if_pos page, shape]
    · rw [arithmetic, if_pos page, shape]
  · next other =>
    refine .kept ?_
    rw [updated, if_pos page]
    split
    · next d a more shape => exact absurd shape (other d a more)
    · rfl

theorem trackAdd_stepped (modelled : Modelled i regs) (add : i.mnemonic = "add") :
    Stepped i regs (trackAdd i regs mem).1 := by
  have notPage : i.mnemonic ∉ ["adrp", "adr"] := by rw [add]; decide
  have notMov : i.mnemonic ≠ "mov" := by rw [add]; decide
  have notStore : i.mnemonic ∉ stores := by rw [add]; decide
  have first : updated i = match i.operands with
    | .reg d :: _ => some d
    | _ => none := by rw [updated, if_neg notPage, if_neg notMov, if_neg notStore]
  rw [trackAdd]
  split
  · next d n v more shape =>
    rw [shape] at first
    split
    · next base known =>
      refine .set first ?_
      rw [arithmetic, if_neg notPage, if_pos add, shape]
      rcases modelled.sum add d n v more shape base known with ⟨rfl, same⟩ | ⟨k, rfl, same⟩
      · simp only [known, Option.map_some, same]
      · simp only [known, Option.map_some, same]
    · exact .forget first
  · next d more _ shape =>
    rw [shape] at first
    exact .forget first
  · next other =>
    refine .kept ?_
    rw [first]
    split
    · next d more shape => exact absurd shape (other d more)
    · rfl

theorem trackMov_stepped (modelled : Modelled i regs) (mov : i.mnemonic = "mov") : Stepped i regs (trackMov i regs) := by
  have notPage : i.mnemonic ∉ ["adrp", "adr"] := by rw [mov]; decide
  have notAdd : i.mnemonic ≠ "add" := by rw [mov]; decide
  rw [trackMov]
  split
  · next d v more shape =>
    obtain ⟨rfl, same⟩ := modelled.constant mov d v more shape
    refine .set ?_ ?_
    · rw [updated, if_neg notPage, if_pos mov, shape]
    · rw [arithmetic, if_neg notPage, if_neg notAdd, if_pos mov, shape]
      simp only [same]
  · next d v more shape =>
    obtain ⟨rfl, same⟩ := modelled.wide mov d v more shape
    refine .set ?_ ?_
    · rw [updated, if_neg notPage, if_pos mov, shape]
    · rw [arithmetic, if_neg notPage, if_neg notAdd, if_pos mov, shape]
      simp only [same]
  · next d n more shape =>
    have here : updated i = some d := by rw [updated, if_neg notPage, if_pos mov, shape]
    split
    · next v known =>
      obtain ⟨rfl, same⟩ := modelled.copy mov d n more shape v known
      refine .set here ?_
      rw [arithmetic, if_neg notPage, if_neg notAdd, if_pos mov, shape]
      simp only [known, Option.map_some, same]
    · exact .forget here
  · next notImm notUimm notReg =>
    refine .kept ?_
    rw [updated, if_neg notPage, if_pos mov]
    split
    · next d v more shape => exact absurd shape (notImm d v more)
    · next d v more shape => exact absurd shape (notUimm d v more)
    · next d n more shape => exact absurd shape (notReg d n more)
    · rfl

theorem trackOther_stepped (first : updated i = match i.operands with
    | .reg d :: _ => some d
    | _ => none) : Stepped i regs (trackOther i regs) := by
  rw [trackOther]
  split
  · next d more shape =>
    rw [shape] at first
    exact .forget first
  · next other =>
    refine .kept ?_
    rw [first]
    split
    · next d more shape => exact absurd shape (other d more)
    · rfl

theorem track_stepped (modelled : Modelled i regs) : Stepped i regs (track i regs mem).1 := by
  rw [track]
  by_cases page : i.mnemonic ∈ ["adrp", "adr"]
  · simp only [if_pos page]
    exact trackAdr_stepped page
  · simp only [if_neg page]
    by_cases add : i.mnemonic = "add"
    · simp only [if_pos add]
      exact trackAdd_stepped modelled add
    · simp only [if_neg add]
      by_cases mov : i.mnemonic = "mov"
      · simp only [if_pos mov]
        exact trackMov_stepped modelled mov
      · simp only [if_neg mov]
        have rest : updated i = if i.mnemonic ∈ stores then none else match i.operands with
          | .reg d :: _ => some d
          | _ => none := by rw [updated, if_neg page, if_neg mov]
        by_cases access : i.mnemonic ∈ accesses
        · simp only [if_pos access]
          rw [trackAccess]
          by_cases store : i.mnemonic ∈ stores
          · rw [if_pos store] at rest
            simp only [decide_eq_true store, if_true]
            split <;> exact .kept rest
          · rw [if_neg store] at rest
            have same := @trackOther_stepped _ regs rest
            rw [trackOther] at same
            simp only [decide_eq_false store, Bool.false_eq_true, if_false]
            split at same
            · exact same
            · exact same
        · simp only [if_neg access]
          have notStore : i.mnemonic ∉ stores := fun store => access (List.mem_append_right _ store)
          rw [if_neg notStore] at rest
          exact @trackOther_stepped _ regs rest

/-- A step that is modelled keeps constants right. -/
theorem Valid.track (valid : Valid regs s) (modelled : Modelled i regs) (executes : Executes i s s') :
    Valid (track i regs mem).1 s' := by
  have stepped := @track_stepped _ _ mem modelled
  have elsewhere : ∀ r v, regs r = some v → (∀ d, updated i = some d → d.class = .gpr → d.num ≠ r) → s'.x r = v := by
    intro r v known other
    rw [executes.frame r ?_]
    · exact valid r v known
    · intro inWritten
      obtain ⟨d, here, general, same⟩ := modelled.kept r inWritten (by rw [known]; exact Option.some_ne_none v)
      exact other d here general same
  generalize (RefTracker.track i regs mem).1 = regs' at stepped ⊢
  cases stepped with
  | kept none_ =>
    intro r v known
    exact elsewhere r v known fun d here => by rw [none_] at here; cases here
  | @set d w here result =>
    intro r v known
    rw [get_set] at known
    split at known
    · next target =>
      obtain rfl := Option.some.inj known
      rw [target.2]
      exact executes.result d w (arithmetic_mono (fun r v => valid.get) result) target.1
    · next other =>
      refine elsewhere r v known fun d' here' general same => other ?_
      obtain rfl := Option.some.inj (here.symm.trans here')
      exact ⟨general, same.symm⟩
  | @forget d here =>
    intro r v known
    rw [get_forget] at known
    split at known
    · cases known
    · next other =>
      refine elsewhere r v known fun d' here' general same => other ?_
      obtain rfl := Option.some.inj (here.symm.trans here')
      exact ⟨general, same.symm⟩

/-! ### What one step names -/

theorem pcReferences_named {x : Xref} (member : x ∈ pcReferences i mem) (s : Registers) :
    x.source = i.addr ∧ Names i s x.target := by
  obtain ⟨⟨op, n⟩, inside, here⟩ := List.mem_filterMap.mp member
  have operand := (List.mem_zipIdx inside).2.2
  cases op with
  | mem m =>
    obtain ⟨t, relative, mapped⟩ := Option.bind_eq_some_iff.mp here
    split at mapped
    · obtain rfl := Option.some.inj mapped
      refine ⟨rfl, .relative ?_ relative⟩
      rw [operand]
      exact List.getElem_mem _
    · cases mapped
  | _ => cases here

theorem trackAdr_named {x : Xref} (member : x ∈ (trackAdr i regs mem).2) (s : Registers) :
    x.source = i.addr ∧ Names i s x.target := by
  rw [trackAdr] at member
  split at member
  · next d a more shape =>
    simp only at member
    split at member
    · rw [List.mem_singleton.mp member]
      exact ⟨rfl, .literal (by rw [shape]; exact List.mem_cons_of_mem _ List.mem_cons_self)⟩
    · cases member
  · cases member

theorem trackAdd_named (valid : Valid regs s) (modelled : Modelled i regs) (add : i.mnemonic = "add") {x : Xref}
    (member : x ∈ (trackAdd i regs mem).2) : x.source = i.addr ∧ Names i s x.target := by
  have notPage : i.mnemonic ∉ ["adrp", "adr"] := by rw [add]; decide
  rw [trackAdd] at member
  split at member
  · next d n v more shape =>
    split at member
    · next base known =>
      simp only at member
      split at member
      · rw [List.mem_singleton.mp member]
        refine ⟨rfl, ?_⟩
        have result : arithmetic i regs.get = some (d, base + .ofInt 64 v) := by
          rw [arithmetic, if_neg notPage, if_pos add, shape]
          rcases modelled.sum add d n v more shape base known with ⟨rfl, same⟩ | ⟨k, rfl, same⟩
          · simp only [known, Option.map_some, same]
          · simp only [known, Option.map_some, same]
        exact .formed (arithmetic_mono (fun r v => valid.get) result)
      · cases member
    · cases member
  · cases member
  · cases member

theorem referenced_spec {ops : List Operand} {t : ℕ} (here : referenced regs mem ops = some t) :
    Operand.addr t ∈ ops ∨ ∃ m base, Operand.mem m ∈ ops ∧ m.index = none ∧ m.base.bind regs.get = some base ∧
      (base + .ofInt 64 m.disp).toNat = t := by
  induction ops using List.reverseRecOn with
  | nil => cases here
  | append_singleton front op ih =>
    have earlier : referenced regs mem front = some t → Operand.addr t ∈ front ++ [op] ∨ ∃ m base,
        Operand.mem m ∈ front ++ [op] ∧ m.index = none ∧ m.base.bind regs.get = some base ∧
          (base + .ofInt 64 m.disp).toNat = t := by
      intro before
      rcases ih before with literal | ⟨m, base, inside, rest⟩
      · exact .inl (List.mem_append_left _ literal)
      · exact .inr ⟨m, base, List.mem_append_left _ inside, rest⟩
    have last : op ∈ front ++ [op] := List.mem_append_right _ (List.mem_singleton_self op)
    rw [referenced, List.foldl_append, List.foldl_cons, List.foldl_nil] at here
    cases op with
    | addr a =>
      obtain rfl := Option.some.inj here
      exact .inl last
    | mem m =>
      simp only at here
      split at here
      · next noIndex =>
        split at here
        · next base known =>
          split at here
          · exact .inr ⟨m, base, last, noIndex, known, Option.some.inj here⟩
          · exact earlier here
        · exact earlier here
      · exact earlier here
    | _ => exact earlier here

theorem value_bind (valid : Valid regs s) {b : Option Reg} {v : BitVec 64} (known : b.bind regs.get = some v) :
    b.bind s.value = some v := by
  obtain ⟨r, here, value⟩ := Option.bind_eq_some_iff.mp known
  exact Option.bind_eq_some_iff.mpr ⟨r, here, valid.get value⟩

theorem trackAccess_named (valid : Valid regs s) (modelled : Modelled i regs) (access : i.mnemonic ∈ accesses) {x : Xref}
    (member : x ∈ (trackAccess i regs mem).2) : x.source = i.addr ∧ Names i s x.target := by
  have inside : x ∈ (referenced regs mem i.operands).toList.map fun to_ =>
      (⟨i.addr, to_, if decide (i.mnemonic ∈ stores) then .write else .read⟩ : Xref) := by
    rw [trackAccess] at member
    split at member <;> exact member
  obtain ⟨t, here, rfl⟩ := List.mem_map.mp inside
  refine ⟨rfl, ?_⟩
  rcases referenced_spec (Option.mem_toList.mp here) with literal | ⟨m, base, operand, noIndex, known, rfl⟩
  · exact .literal literal
  · refine .accessed operand ?_
    rw [address, if_pos noIndex, value_bind valid known, Option.map_some]
    split
    · next behind =>
      rw [modelled.base access m operand noIndex (by rw [known]; exact Option.some_ne_none base) behind]
      exact congrArg some (BitVec.add_zero base).symm
    · rfl

theorem track_named (valid : Valid regs s) (modelled : Modelled i regs) {x : Xref} (member : x ∈ (track i regs mem).2) :
    x.source = i.addr ∧ Names i s x.target := by
  rw [track] at member
  rcases List.mem_append.mp member with relative | other
  · exact pcReferences_named relative s
  · split at other
    · exact trackAdr_named other s
    · split at other
      · next add => exact trackAdd_named valid modelled add other
      · split at other
        · cases other
        · split at other
          · next access => exact trackAccess_named valid modelled access other
          · cases other

/-! ### Runs -/

def Named (insns : List Insn) (states : ℕ → Registers) (x : Xref) : Prop :=
  x.kind = .call ∨ x.kind = .branch ∨ ∃ k i, insns[k]? = some i ∧ x.source = i.addr ∧ Names i (states k) x.target

/-- What a collector has before it processes an instruction that it holds back. -/
structure Ready (insns : List Insn) (states : ℕ → Registers) (k : ℕ) (i : Insn) (c : Collector) : Prop where
  pending : c.pending = some i
  fresh : c.fresh = true
  valid : Valid c.regs (states k)
  named : ∀ x ∈ c.out, Named insns states x

theorem Ready.process {insns : List Insn} {states : ℕ → Registers} {k : ℕ} {c : Collector}
    (ready : Ready insns states k i c) (here : insns[k]? = some i) (modelled : Modelled i c.regs)
    (executes : Executes i (states k) (states (k + 1))) (fallsThrough : Bool) :
    Valid (c.process mem i fallsThrough).regs (states (k + 1)) ∧
      ∀ x ∈ (c.process mem i fallsThrough).out, Named insns states x := by
  rw [Collector.process, ready.fresh]
  refine ⟨ready.valid.track modelled executes, fun x member => ?_⟩
  rcases List.mem_append.mp member with before | new
  · rcases List.mem_append.mp before with old | flow
    · exact ready.named x old
    · split at flow
      · exact .inl (by rw [List.mem_singleton.mp flow])
      · exact .inr (.inl (by rw [List.mem_singleton.mp flow]))
      · exact .inr (.inl (by rw [List.mem_singleton.mp flow]))
      · cases flow
  · obtain ⟨source, names⟩ := track_named ready.valid modelled new
    exact .inr (.inr ⟨k, i, here, source, names⟩)

/-- The constants before an instruction of a run are those of a collector that holds it
    back, and every step of the run is modelled over them. -/
def AllModelled (mem : MemoryMap) (insns : List Insn) : Prop :=
  ∀ before i after, insns = before ++ i :: after → Modelled i (pushAll mem (before ++ [i])).regs

theorem ready_all {insns : List Insn} {states : ℕ → Registers} (straight : Straight insns) (run : Run insns states)
    (modelled : AllModelled mem insns) (before : List Insn) (i : Insn) (after : List Insn)
    (whole : insns = before ++ i :: after) : Ready insns states before.length i (pushAll mem (before ++ [i])) := by
  induction before using List.reverseRecOn generalizing i after with
  | nil => exact ⟨rfl, rfl, fun r v known => (by cases known), fun x member => (by cases member)⟩
  | append_singleton front prev ih =>
    have shape : insns = front ++ prev :: (i :: after) := by rw [whole, List.append_assoc, List.singleton_append]
    have ready := ih prev (i :: after) shape
    have here : insns[front.length]? = some prev := by
      rw [shape, List.getElem?_append_right le_rfl, Nat.sub_self]
      rfl
    have follows : prev.flow = Flow.next ∧ i.addr = prev.next := by
      have chain : Straight (prev :: i :: after) := by
        rw [Straight, shape] at straight
        exact (List.isChain_append.mp straight).2.1
      exact (List.isChain_cons_cons.mp chain).1
    obtain ⟨valid, named⟩ := @Ready.process _ mem _ _ _ _ ready here (modelled front prev (i :: after) shape) (run _ _ here) true
    have pushed : pushAll mem (front ++ [prev] ++ [i]) =
        { (pushAll mem (front ++ [prev])).process mem prev true with pending := some i } := by
      rw [pushAll, List.foldl_append]
      show Collector.push mem (pushAll mem (front ++ [prev])) i = _
      rw [Collector.push, ready.pending]
      simp only [decide_eq_true follows]
    rw [pushed, List.length_append, List.length_singleton]
    exact ⟨rfl, rfl, valid, named⟩

theorem collect_named {insns : List Insn} {states : ℕ → Registers} (straight : Straight insns) (run : Run insns states)
    (modelled : AllModelled mem insns) : ∀ x ∈ collect mem insns, Named insns states x := by
  rcases List.eq_nil_or_concat insns with rfl | ⟨front, i, rfl⟩
  · intro x member
    cases member
  · rw [List.concat_eq_append] at *
    have ready := ready_all straight run modelled front i [] rfl
    have here : (front ++ [i])[front.length]? = some i := by
      rw [List.getElem?_append_right le_rfl, Nat.sub_self]
      rfl
    have processed := @Ready.process _ mem _ _ _ _ ready here (modelled front i [] rfl) (run _ _ here) false
    rw [collect, Collector.finish, ready.pending]
    exact processed.2

/-- Over a straight run whose steps are all modelled, every reference through a register
    names what the registers form, and no constant is kept that its register has lost. -/
theorem sound_of_modelled (mem : MemoryMap) (insns : List Insn) (states : ℕ → Registers) (straight : Straight insns)
    (run : Run insns states) (modelled : AllModelled mem insns) : Sound mem insns states :=
  ⟨collect_named straight run modelled, fun before i after whole => (ready_all straight run modelled before i after whole).valid⟩

theorem dataPage_fits : 0x3000 < 2 ^ 64 := by decide

def dataPage : Segment :=
  ⟨⟨0x2000, 0x3000, by decide, dataPage_fits⟩, ⟨true, false, false⟩, "data", 0, [], Nat.zero_le _⟩

def dataMap : MemoryMap := MemoryMap.add .new dataPage

def general (n : ℕ) : Reg := ⟨.gpr, n, .w64⟩
def stack : Mem := ⟨none, some ⟨.sp, 31, .w64⟩, none, 0, .offset, 16⟩

/-- `adr x0, 0x2000`, a step, and `add x2, x0, #0x10`. -/
def adrThen (i : Insn) : List Insn :=
  [⟨0x1000, 4, "adr", .next, none, [.reg (general 0), .addr 0x2000]⟩, i,
    ⟨0x1008, 4, "add", .next, none, [.reg (general 2), .reg (general 0), .imm 0x10]⟩]

/-- `ldp x1, x0, [sp]`, which writes both registers. -/
def loadBoth : Insn := ⟨0x1004, 4, "ldp", .next, none, [.reg (general 1), .reg (general 0), .mem stack]⟩

/-- `ldr x1, [sp]` -/
def loadOne : Insn := ⟨0x1004, 4, "ldr", .next, none, [.reg (general 1), .mem stack]⟩

def registers (x0 x2 : BitVec 64) : Registers := ⟨fun n => if n = 0 then x0 else if n = 2 then x2 else 0, 0⟩

theorem straight_adrThen {i : Insn} (addr : i.addr = 0x1004) (next : i.next = 0x1008) (flow : i.flow = Flow.next) :
    Straight (adrThen i) :=
  List.isChain_cons_cons.mpr ⟨⟨rfl, addr⟩, List.isChain_cons_cons.mpr ⟨⟨flow, next.symm⟩, .singleton _⟩⟩

/-- A step that leaves `sp` and all but one register, and then writes that one. -/
def statesWith (x0 x2 : BitVec 64) : ℕ → Registers
  | 0 => registers 0 0
  | 1 => registers 0x2000 0
  | 2 => registers x0 0
  | _ => registers x0 x2

theorem run_adrThen {i : Insn} {x0 : BitVec 64} (kept : 0 ∈ written i ∨ x0 = 0x2000) (other : ∀ known, arithmetic i known = none) :
    Run (adrThen i) (statesWith x0 (x0 + 0x10)) := by
  intro k j here
  match k, here with
  | 0, here =>
    obtain rfl := Option.some.inj here
    refine ⟨fun r fixed => ?_, fun d v result _ => ?_⟩
    · have apart : r ≠ 0 := fun zero => fixed (by rw [zero]; decide)
      simp [statesWith, registers, apart]
    · obtain ⟨rfl, rfl⟩ := Prod.mk.inj (Option.some.inj result)
      rfl
  | 1, here =>
    obtain rfl := Option.some.inj here
    refine ⟨fun r fixed => ?_, fun d v result _ => by rw [other] at result; cases result⟩
    rcases kept with lost | rfl
    · have apart : r ≠ 0 := fun zero => fixed (by rw [zero]; exact lost)
      simp [statesWith, registers, apart]
    · rfl
  | 2, here =>
    obtain rfl := Option.some.inj here
    refine ⟨fun r fixed => ?_, fun d v result _ => ?_⟩
    · have apart : r ≠ 2 := fun two => fixed (by rw [two]; decide)
      simp [statesWith, registers, apart]
    · obtain ⟨rfl, rfl⟩ := Prod.mk.inj (Option.some.inj result)
      rfl
  | k + 3, here => cases here

/-- The second destination of a pair load keeps its constant, and the reference that is
    formed from it is to an address that the registers do not form. -/
theorem pair_load_kept : ¬∀ mem insns states, Straight insns → Run insns states → Sound mem insns states := by
  intro all
  have run : Run (adrThen loadBoth) (statesWith 0 (0 + 0x10)) := run_adrThen (.inl (by decide)) fun _ => rfl
  have sound := all dataMap (adrThen loadBoth) _ (straight_adrThen rfl (by decide) rfl) run
  have emitted : (⟨0x1008, 0x2010, .data⟩ : Xref) ∈ collect dataMap (adrThen loadBoth) := by decide
  rcases sound.1 _ emitted with call | branch | ⟨k, i, here, source, names⟩
  · cases call
  · cases branch
  · match k, here with
    | 0, here =>
      obtain rfl := Option.some.inj here
      exact absurd source (by decide)
    | 1, here =>
      obtain rfl := Option.some.inj here
      exact absurd source (by decide)
    | 2, here =>
      obtain rfl := Option.some.inj here
      generalize target : (⟨0x1008, 0x2010, .data⟩ : Xref).target = t at names
      cases names with
      | relative operand _ => simp at operand
      | literal operand => simp at operand
      | formed result =>
        obtain ⟨-, rfl⟩ := Prod.mk.inj (Option.some.inj result)
        exact absurd target (by decide)
      | accessed operand _ => simp at operand
    | k + 3, here => cases here

/-- With a load of one register in its place the reference is right. -/
theorem sound_of_modelled_one : Sound dataMap (adrThen loadOne) (statesWith 0x2000 (0x2000 + 0x10)) := by
  refine sound_of_modelled dataMap (adrThen loadOne) _ (straight_adrThen rfl (by decide) rfl)
    (run_adrThen (.inr rfl) fun _ => rfl) fun before i after whole => ?_
  have writes : ∀ (i : Insn) (regs : Regs) (n : ℕ), written i = [n] → updated i = some (general n) →
      ∀ r ∈ written i, regs r ≠ none → ∃ d, updated i = some d ∧ d.class = .gpr ∧ d.num = r := by
    intro i regs n one here r member _
    rw [one] at member
    exact ⟨general n, here, rfl, (List.mem_singleton.mp member).symm⟩
  match before, whole with
  | [], whole =>
    obtain ⟨rfl, -⟩ := List.cons.inj whole
    exact ⟨writes _ _ 0 (by decide) (by decide), fun other => absurd other (by decide), fun other => absurd other (by decide),
      fun other => absurd other (by decide), fun other => absurd other (by decide), fun other => absurd other (by decide)⟩
  | [_], whole =>
    obtain ⟨rfl, rest⟩ := List.cons.inj whole
    obtain ⟨rfl, -⟩ := List.cons.inj rest
    refine ⟨writes _ _ 1 (by decide) (by decide), fun other => absurd other (by decide),
      fun other => absurd other (by decide), fun other => absurd other (by decide), fun other => absurd other (by decide),
      fun _ m operand _ known => ?_⟩
    have same : m = stack := by simpa [loadOne] using operand
    exact absurd (by rw [same]; rfl) known
  | [first, second], whole =>
    have parts : adrThen loadOne = first :: second :: i :: after := whole
    simp only [adrThen, List.cons.injEq] at parts
    obtain ⟨rfl, rfl, rfl, -⟩ := parts
    refine ⟨writes _ _ 2 (by decide) (by decide), fun _ d n v more shape base known => ?_,
      fun other => absurd other (by decide), fun other => absurd other (by decide), fun other => absurd other (by decide),
      fun other => absurd other (by decide)⟩
    simp only [List.cons.injEq, Operand.reg.injEq, Operand.imm.injEq] at shape
    obtain ⟨rfl, -, -, rfl⟩ := shape
    exact .inl ⟨rfl, rfl⟩
  | _ :: _ :: _ :: _, whole =>
    have length := congrArg List.length whole
    simp [adrThen] at length

end E5r.RefTracker
