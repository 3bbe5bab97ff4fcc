import E5r.LineMachine

/-!
Reading the bytes of a line number program runs the state machine on its operations,
as long as the registers keep within the widths of a row.
-/
namespace E5r.LineReads
open Cursor DwarfModel LineProgram LineMachine RustText

/-- Operations that the widths of the reader allow, on a file table that stays as it is. -/
def Op.Fits : Op → Prop
  | .advanceLine n => -2 ^ 31 ≤ n ∧ n < 2 ^ 31
  | .setAddress _ width => width = 4 ∨ width = 8
  | .defineFile _ => False
  | _ => True

def Registers.Fit (r : Registers) : Prop := r.address < 2 ^ 64 ∧ 0 ≤ r.line ∧ r.line < 2 ^ 32 ∧ r.column < 2 ^ 32

def RunFits (h : Header) : Machine → List Op → Prop
  | _, [] => True
  | m, op :: ops => Op.Fits op ∧ Registers.Fit (m.exec h op).registers ∧ RunFits h (m.exec h op) ops

def lineRow (end_ : Bool) (r : Row) : LineRow := ⟨r.address, r.file, r.line.toNat, r.column, end_, r.isStmt⟩

def sequenceRows (s : Sequence) : List LineRow := s.rows.map (lineRow false) ++ [lineRow true s.last]

def machineRows (m : Machine) : List LineRow := m.done.flatMap sequenceRows ++ m.rows.map (lineRow false)

/-- A state of the reader stands for registers of the machine. -/
structure Stands (h : Header) (s : LineState) (r : Registers) : Prop where
  address : s.address = r.address
  file : s.file = r.file
  line : (s.line : ℤ) = r.line
  column : s.column = r.column
  statement : s.statement = r.isStmt
  end_ : s.end_ = false
  files : r.files = h.files

section
variable {e : Endian} {h : Header}

theorem run_bind {α β : Type} {m : Read α} {f : α → Read β} {c c' : Cur} {a : α} (first : m c = some (a, c')) :
    (m >>= f) c = f a c' := by
  show (m c >>= fun r => f r.1 r.2) = _
  rw [first]
  rfl

variable {bs : List UInt8}

theorem takes_number {v : ℕ} (number : Number bs v) : Takes e uleb128 bs v :=
  takes_uleb128 number.1 number.2.1 number.2.2

theorem takes_numbers {n : ℕ} (numbers : Numbers n bs) : ∃ vs, Takes e (repeatRead uleb128 n) bs vs := by
  induction numbers with
  | nil => exact ⟨[], .pure []⟩
  | @cons n v bs cs first rest ih =>
    obtain ⟨vs, reads⟩ := ih
    refine ⟨v :: vs, ?_⟩
    have := (takes_number (e := e) first).bind (f := fun a => repeatRead uleb128 n >>= fun rest => pure (a :: rest))
      (reads.bind (.pure (v :: vs)))
    rwa [List.append_nil] at this

theorem takes_sized {n : ℕ} (width : bs.length = n) : Takes e (word n) bs (toNat e bs) := width ▸ takes_word bs

variable {r : Registers}

theorem emit_row {s : LineState} (stands : Stands h s r) : emit h.files s = lineRow false r.row := by
  obtain ⟨address, file, line, column, statement, end_, files⟩ := stands
  unfold emit lineRow Registers.row
  simp [address, file, ← line, column, statement, end_, files]

theorem emit_end {s : LineState} (stands : Stands h s r) :
    emit h.files { s with end_ := true } = lineRow true r.row := by
  obtain ⟨address, file, line, column, statement, end_, files⟩ := stands
  unfold emit lineRow Registers.row
  simp [address, file, ← line, column, statement, files]

theorem satAdd_fits {a b : ℕ} (fits : a + b < 2 ^ 64) : satAdd a b = a + b := by
  unfold satAdd
  omega

theorem satSigned_fits {line : ℕ} {n : ℤ} (least : 0 ≤ line + n) (most : line + n < 2 ^ 32) : (satSigned line n : ℤ) = line + n := by
  unfold satSigned
  omega

theorem toI32_fits {n : ℤ} (least : -2 ^ 31 ≤ n) (most : n < 2 ^ 31) : toI32 n = n := by
  unfold toI32
  rw [Int.bmod_eq_of_le] <;> omega

theorem operationAdvance_eq (positive : 1 ≤ h.minimumInstructionLength) (adjusted : ℕ) :
    operationAdvance h adjusted = h.minimumInstructionLength * (adjusted / h.lineRange) := by
  unfold operationAdvance
  rw [max_eq_left positive, Nat.mul_comm]

/-- What reading one operation does: the state stands for the registers after it, and the
    rows it gives are added. -/
def Steps (h : Header) (m : Machine) (op : Op) (result : LineState × List LineRow) : Prop :=
  Stands h result.1 (m.exec h op).registers ∧ machineRows (m.exec h op) = machineRows m ++ result.2 ∧ result.2.length ≤ 1

theorem Steps.silent {s' : LineState} {m : Machine} {op : Op} (stands : Stands h s' (m.exec h op).registers)
    (rows : (m.exec h op).rows = m.rows) (done : (m.exec h op).done = m.done) : Steps h m op (s', []) := by
  refine ⟨stands, ?_, Nat.zero_le _⟩
  unfold machineRows
  rw [rows, done, List.append_nil]

theorem Steps.row {s' : LineState} {m : Machine} {op : Op} (stands : Stands h s' r)
    (is : m.exec h op = ({ m with registers := r } : Machine).append) : Steps h m op (s', [emit h.files s']) := by
  rw [Steps, is]
  refine ⟨stands, ?_, le_refl _⟩
  rw [emit_row stands]
  simp [machineRows, Machine.append]

section
variable {s : LineState} {m : Machine} (stands : Stands h s m.registers)

variable {b : UInt8} {bs : List UInt8}

theorem takes_standard {result : LineState × List LineRow} (nonzero : b.toNat ≠ 0) (known : b.toNat < h.opcodeBase)
    (reads : Takes e (standard h s b.toNat) bs result) : Takes e (step h s) (b :: bs) result := by
  have body : Takes e (if b.toNat = 0 then extended h s
      else if b.toNat < h.opcodeBase then standard h s b.toNat else pure (special h s b.toNat)) bs result := by
    rwa [if_neg nonzero, if_pos known]
  exact (takes_u8 b).bind (f := fun opcode => if opcode = 0 then extended h s
      else if opcode < h.opcodeBase then standard h s opcode else pure (special h s opcode)) body

include stands

theorem step_special (range : h.opcodeBase ≤ b.toNat) (base : 1 ≤ h.opcodeBase)
    (positive : 1 ≤ h.minimumInstructionLength) (fit : Registers.Fit (m.exec h (.special b.toNat)).registers) :
    Takes e (step h s) [b] (special h s b.toNat) ∧ Steps h m (.special b.toNat) (special h s b.toNat) := by
  constructor
  · have body : Takes e (if b.toNat = 0 then extended h s
        else if b.toNat < h.opcodeBase then standard h s b.toNat else pure (special h s b.toNat)) []
        (special h s b.toNat) := by
      rw [if_neg (by omega), if_neg (by omega)]
      exact .pure _
    exact (takes_u8 b).bind (f := fun opcode => if opcode = 0 then extended h s
        else if opcode < h.opcodeBase then standard h s opcode else pure (special h s opcode)) body
  · obtain ⟨address, least, most, -⟩ := fit
    let r : Registers := { m.registers.advance h ((b.toNat - h.opcodeBase) / h.lineRange) with
      line := m.registers.line + (h.lineBase + ((b.toNat - h.opcodeBase) % h.lineRange : ℕ)) }
    refine Steps.row (r := r) ⟨?_, stands.file, ?_, stands.column, stands.statement, stands.end_, stands.files⟩ rfl
    · show satAdd s.address (operationAdvance h _) = m.registers.address + h.minimumInstructionLength * _
      rw [operationAdvance_eq positive, stands.address]
      exact satAdd_fits address
    · show (satSigned s.line _ : ℤ) = m.registers.line + _
      rw [← stands.line]
      change 0 ≤ m.registers.line + _ at least
      change m.registers.line + _ < 2 ^ 32 at most
      rw [← stands.line] at least most
      exact satSigned_fits least most

theorem step_copy (known : 1 < h.opcodeBase) :
    ∃ result, Takes e (step h s) [1] result ∧ Steps h m .copy result := by
  refine ⟨(s, [emit h.files s]), takes_standard (by decide) known ?_, ?_⟩
  · show Takes e (standard h s 1) [] _
    exact .pure _
  · exact Steps.row stands rfl

variable {n : ℕ}

theorem step_advancePc (known : 2 < h.opcodeBase) (operand : Number bs n) (positive : 1 ≤ h.minimumInstructionLength)
    (fit : Registers.Fit (m.exec h (.advancePc n)).registers) :
    ∃ result, Takes e (step h s) (2 :: bs) result ∧ Steps h m (.advancePc n) result := by
  have reads := (takes_number (e := e) operand).bind
    (f := fun n => pure ({ s with address := satAdd s.address (min (2 ^ 64 - 1) (n * max h.minimumInstructionLength 1)) },
      ([] : List LineRow))) (.pure _)
  rw [List.append_nil] at reads
  refine ⟨_, takes_standard (by decide) known reads, Steps.silent ?_ rfl rfl⟩
  have address := fit.1
  change m.registers.address + h.minimumInstructionLength * n < 2 ^ 64 at address
  refine ⟨?_, stands.file, stands.line, stands.column, stands.statement, stands.end_, stands.files⟩
  show satAdd s.address _ = m.registers.address + h.minimumInstructionLength * n
  rw [max_eq_left positive, Nat.mul_comm n, Nat.min_eq_right (by omega), stands.address]
  exact satAdd_fits address

theorem step_advanceLine {n : ℤ} (known : 3 < h.opcodeBase) (operand : SignedNumber bs n)
    (fits : -2 ^ 31 ≤ n ∧ n < 2 ^ 31) (fit : Registers.Fit (m.exec h (.advanceLine n)).registers) :
    ∃ result, Takes e (step h s) (3 :: bs) result ∧ Steps h m (.advanceLine n) result := by
  have reads := (takes_sleb128 (e := e) operand.1 operand.2.1 operand.2.2.1 operand.2.2.2).bind
    (f := fun n => pure ({ s with line := satSigned s.line (toI32 n) }, ([] : List LineRow))) (.pure _)
  rw [List.append_nil] at reads
  refine ⟨_, takes_standard (by decide) known reads, Steps.silent ?_ rfl rfl⟩
  obtain ⟨-, least, most, -⟩ := fit
  change 0 ≤ m.registers.line + n at least
  change m.registers.line + n < 2 ^ 32 at most
  refine ⟨stands.address, stands.file, ?_, stands.column, stands.statement, stands.end_, stands.files⟩
  show (satSigned s.line (toI32 n) : ℤ) = m.registers.line + n
  rw [toI32_fits fits.1 fits.2, ← stands.line]
  rw [← stands.line] at least most
  exact satSigned_fits least most

theorem step_setFile (known : 4 < h.opcodeBase) (operand : Number bs n) :
    ∃ result, Takes e (step h s) (4 :: bs) result ∧ Steps h m (.setFile n) result := by
  have reads := (takes_number (e := e) operand).bind
    (f := fun n => pure ({ s with file := n }, ([] : List LineRow))) (.pure _)
  rw [List.append_nil] at reads
  refine ⟨_, takes_standard (by decide) known reads, Steps.silent ?_ rfl rfl⟩
  exact ⟨stands.address, rfl, stands.line, stands.column, stands.statement, stands.end_, stands.files⟩

theorem step_setColumn (known : 5 < h.opcodeBase) (operand : Number bs n)
    (fit : Registers.Fit (m.exec h (.setColumn n)).registers) :
    ∃ result, Takes e (step h s) (5 :: bs) result ∧ Steps h m (.setColumn n) result := by
  have reads := (takes_number (e := e) operand).bind
    (f := fun n => pure ({ s with column := n % 2 ^ 32 }, ([] : List LineRow))) (.pure _)
  rw [List.append_nil] at reads
  refine ⟨_, takes_standard (by decide) known reads, Steps.silent ?_ rfl rfl⟩
  exact ⟨stands.address, stands.file, stands.line, Nat.mod_eq_of_lt fit.2.2.2, stands.statement, stands.end_, stands.files⟩

theorem step_negateStmt (known : 6 < h.opcodeBase) :
    ∃ result, Takes e (step h s) [6] result ∧ Steps h m .negateStmt result := by
  refine ⟨({ s with statement := !s.statement }, []), takes_standard (by decide) known ?_, Steps.silent ?_ rfl rfl⟩
  · show Takes e (standard h s 6) [] _
    exact .pure _
  · exact ⟨stands.address, stands.file, stands.line, stands.column, congrArg not stands.statement, stands.end_, stands.files⟩

theorem step_constAddPc (known : 8 < h.opcodeBase) (positive : 1 ≤ h.minimumInstructionLength)
    (fit : Registers.Fit (m.exec h .constAddPc).registers) :
    ∃ result, Takes e (step h s) [8] result ∧ Steps h m .constAddPc result := by
  refine ⟨({ s with address := satAdd s.address (operationAdvance h (255 - h.opcodeBase)) }, []),
    takes_standard (by decide) known ?_, Steps.silent ?_ rfl rfl⟩
  · show Takes e (standard h s 8) [] _
    exact .pure _
  · refine ⟨?_, stands.file, stands.line, stands.column, stands.statement, stands.end_, stands.files⟩
    show satAdd s.address (operationAdvance h _) = m.registers.address + h.minimumInstructionLength * _
    rw [operationAdvance_eq positive, stands.address]
    exact satAdd_fits fit.1

theorem step_fixedAdvancePc (known : 9 < h.opcodeBase) (operand : bs.length = 2)
    (fit : Registers.Fit (m.exec h (.fixedAdvancePc (toNat e bs))).registers) :
    ∃ result, Takes e (step h s) (9 :: bs) result ∧ Steps h m (.fixedAdvancePc (toNat e bs)) result := by
  have reads := (takes_sized (e := e) operand).bind
    (f := fun n => pure ({ s with address := satAdd s.address n }, ([] : List LineRow))) (.pure _)
  rw [List.append_nil] at reads
  refine ⟨_, takes_standard (by decide) known reads, Steps.silent ?_ rfl rfl⟩
  refine ⟨?_, stands.file, stands.line, stands.column, stands.statement, stands.end_, stands.files⟩
  show satAdd s.address _ = m.registers.address + _
  rw [stands.address]
  exact satAdd_fits fit.1

theorem step_other (known : b.toNat < h.opcodeBase) (opcode : b.toNat = 7 ∨ 10 ≤ b.toNat)
    (operands : Numbers (h.standardLengths.getD (b.toNat - 1) 0) bs) :
    ∃ result, Takes e (step h s) (b :: bs) result ∧ Steps h m .other result := by
  obtain ⟨vs, reads⟩ := takes_numbers (e := e) operands
  have skips := reads.bind (f := fun _ => pure (s, ([] : List LineRow))) (.pure _)
  rw [List.append_nil] at skips
  refine ⟨_, takes_standard (by omega) known ?_, Steps.silent stands rfl rfl⟩
  have unlike : ∀ k ∈ [1, 2, 3, 4, 5, 6, 8, 9], b.toNat ≠ k := by
    intro k member same
    simp at member
    omega
  unfold standard
  simp only [DW_LNS_COPY, DW_LNS_ADVANCE_PC, DW_LNS_ADVANCE_LINE, DW_LNS_SET_FILE, DW_LNS_SET_COLUMN, DW_LNS_NEGATE_STMT,
    DW_LNS_CONST_ADD_PC, DW_LNS_FIXED_ADVANCE_PC, unlike 1 (by simp), unlike 2 (by simp), unlike 3 (by simp), unlike 4 (by simp),
    unlike 5 (by simp), unlike 6 (by simp), unlike 8 (by simp), unlike 9 (by simp), if_false]
  exact skips
end

theorem run_extended {s : LineState} {size rest : List UInt8} {sub : UInt8} {result : LineState × List LineRow} {c : Cur}
    (order : c.endian = e) (here : c.rest = 0 :: (size ++ sub :: bs) ++ rest) (memory : c.data.length < 2 ^ 64)
    (length : Number size (bs.length + 1))
    (body : ∀ c' : Cur, c'.endian = e → c'.rest = bs ++ rest →
      ∃ c'', extendedBody h s (bs.length + 1) sub.toNat c' = some (result, c'') ∧ c''.data = c'.data ∧ c''.endian = c'.endian) :
    step h s c = some (result, c.advance (0 :: (size ++ sub :: bs)).length) := by
  have whole : c.data.length - c.pos = (0 :: (size ++ sub :: bs) ++ rest).length := by
    rw [← here]
    exact List.length_drop.symm
  simp only [List.length_append, List.length_cons] at whole
  have first : u8 c = some (0, c.advance 1) := takes_u8 0 c _ order here
  have after : (c.advance 1).rest = size ++ (sub :: bs ++ rest) := by
    have := @Cur.rest_advance c [0] (size ++ (sub :: bs ++ rest)) (by simpa using here)
    simpa using this
  have second := takes_number (e := e) length (c.advance 1) _ order after
  have after' := Cur.rest_advance after
  have third := takes_u8 (e := e) sub ((c.advance 1).advance size.length) (bs ++ rest) order after'
  have after'' := @Cur.rest_advance _ [sub] (bs ++ rest) after'
  obtain ⟨c', ran, data, endian⟩ := body (((c.advance 1).advance size.length).advance [sub].length) order after''
  unfold step
  rw [run_bind first]
  show extended h s (c.advance 1) = _
  unfold extended
  rw [run_bind second, run_bind (show position _ = some (_, _) from rfl), run_bind third, run_bind ran]
  show some (result, c'.seek _) = _
  have wrapped : wrap (c.pos + 1 + size.length + (bs.length + 1)) = c.pos + 1 + size.length + (bs.length + 1) := by
    unfold wrap
    exact Nat.mod_eq_of_lt (by omega)
  unfold Cur.seek Cur.advance
  simp only [data, endian, Cur.data_advance, Cur.endian_advance, wrapped, List.length_cons, List.length_append]
  rw [Nat.min_eq_left (by omega), show c.pos + 1 + size.length + (bs.length + 1) = c.pos + (size.length + (bs.length + 1) + 1) by omega]

section
variable {s : LineState} {m : Machine} (stands : Stands h s m.registers) {c : Cur} (order : c.endian = e)
  (memory : c.data.length < 2 ^ 64)
include stands order memory

theorem step_endSequence {size rest : List UInt8} (length : Number size 1) (here : c.rest = 0 :: (size ++ [1]) ++ rest) :
    ∃ result, step h s c = some (result, c.advance (0 :: (size ++ [1])).length) ∧ Steps h m .endSequence result := by
  refine ⟨_, run_extended order here memory length (fun c' _ _ => ⟨c', rfl, rfl, rfl⟩), ?_⟩
  refine ⟨⟨rfl, rfl, rfl, rfl, rfl, rfl, stands.files⟩, ?_, le_refl _⟩
  rw [emit_end stands]
  simp [machineRows, Machine.exec, sequenceRows]

variable {bs : List UInt8}

theorem step_setAddress {size rest : List UInt8} (length : Number size (bs.length + 1))
    (width : bs.length = 4 ∨ bs.length = 8) (here : c.rest = 0 :: (size ++ 2 :: bs) ++ rest) :
    ∃ result, step h s c = some (result, c.advance (0 :: (size ++ 2 :: bs)).length) ∧
      Steps h m (.setAddress (toNat e bs) bs.length) result := by
  refine ⟨({ s with address := toNat e bs }, []), run_extended order here memory length ?_, Steps.silent ?_ rfl rfl⟩
  · intro c' order' here'
    have reads : addressOperand (bs.length + 1 - 1) c' = some (toNat e bs, c'.advance bs.length) := by
      unfold addressOperand
      rcases width with four | eight
      · rw [if_pos (by omega)]
        exact takes_sized four c' rest order' here'
      · rw [if_neg (by omega)]
        exact takes_sized eight c' rest order' here'
    refine ⟨c'.advance bs.length, ?_, rfl, rfl⟩
    have body : extendedBody h s (bs.length + 1) (2 : UInt8).toNat =
        (addressOperand (bs.length + 1 - 1) >>= fun address => pure ({ s with address := address }, [])) := by
      have sets : (2 : UInt8).toNat = DW_LNE_SET_ADDRESS ∧ 1 ≤ bs.length + 1 := ⟨rfl, by omega⟩
      unfold extendedBody
      exact (if_neg (by decide)).trans (if_pos sets)
    rw [body, run_bind reads]
    rfl
  · exact ⟨rfl, stands.file, stands.line, stands.column, stands.statement, stands.end_, stands.files⟩

theorem step_extended {size rest : List UInt8} {sub : UInt8} (length : Number size (bs.length + 1))
    (unknown : sub ≠ 1 ∧ sub ≠ 2 ∧ sub ≠ 3) (here : c.rest = 0 :: (size ++ sub :: bs) ++ rest) :
    ∃ result, step h s c = some (result, c.advance (0 :: (size ++ sub :: bs)).length) ∧ Steps h m .other result := by
  refine ⟨(s, []), run_extended order here memory length ?_, Steps.silent stands rfl rfl⟩
  intro c' _ _
  refine ⟨c', ?_, rfl, rfl⟩
  have one : sub.toNat ≠ 1 := fun same => unknown.1 (UInt8.toNat_inj.mp same)
  have two : sub.toNat ≠ 2 := fun same => unknown.2.1 (UInt8.toNat_inj.mp same)
  have body : extendedBody h s (bs.length + 1) sub.toNat = pure (s, []) := by
    unfold extendedBody
    exact (if_neg one).trans (if_neg fun both => two both.1)
  rw [body]
  rfl

theorem step_spelled {op : Op} {rest : List UInt8} (spelled : Spells e h op bs) (here : c.rest = bs ++ rest)
    (base : 1 ≤ h.opcodeBase) (positive : 1 ≤ h.minimumInstructionLength) (fits : Op.Fits op)
    (fit : Registers.Fit (m.exec h op).registers) :
    ∃ result, step h s c = some (result, c.advance bs.length) ∧ Steps h m op result := by
  have taken : ∀ {op bs rest}, c.rest = bs ++ rest → (∃ result, Takes e (step h s) bs result ∧ Steps h m op result) →
      ∃ result, step h s c = some (result, c.advance bs.length) ∧ Steps h m op result := by
    rintro op bs rest here ⟨result, takes, steps⟩
    exact ⟨result, takes c rest order here, steps⟩
  cases spelled with
  | special range => exact taken here ⟨_, step_special stands range base positive fit⟩
  | copy known => exact taken here (step_copy stands known)
  | advancePc known operand => exact taken here (step_advancePc stands known operand positive fit)
  | advanceLine known operand => exact taken here (step_advanceLine stands known operand fits fit)
  | setFile known operand => exact taken here (step_setFile stands known operand)
  | setColumn known operand => exact taken here (step_setColumn stands known operand fit)
  | negateStmt known => exact taken here (step_negateStmt stands known)
  | constAddPc known => exact taken here (step_constAddPc stands known positive fit)
  | fixedAdvancePc known operand => exact taken here (step_fixedAdvancePc stands known operand fit)
  | other known opcode operands => exact taken here (step_other stands known opcode operands)
  | endSequence length => exact step_endSequence stands order memory length here
  | setAddress length => exact step_setAddress stands order memory length fits here
  | defineFile => exact fits.elim
  | extended length unknown => exact step_extended stands order memory length unknown here
end

theorem spells_length_pos {op : Op} (spelled : Spells e h op bs) : 0 < bs.length := by
  cases spelled <;> exact Nat.succ_pos _

theorem run_code {ops : List Op} {bs : List UInt8} (code : Code e h ops bs) (base : 1 ≤ h.opcodeBase)
    (positive : 1 ≤ h.minimumInstructionLength) {length end_ : ℕ} {rest : List UInt8} :
    ∀ {m : Machine} {s : LineState} {c : Cur} {fuel : ℕ}, Stands h s m.registers → RunFits h m ops → c.endian = e →
      c.data.length < 2 ^ 64 → c.rest = bs ++ rest → c.pos + bs.length = end_ →
      (machineRows m).length + bs.length ≤ length → bs.length < fuel →
      runOpcodes h length end_ fuel c s (machineRows m) =
        (machineRows (ops.foldl (Machine.exec h) m), some (c.seek end_)) := by
  induction code with
  | nil =>
    intro m s c fuel stands fits order memory here ends bound enough
    obtain ⟨fuel, rfl⟩ : ∃ n, fuel = n + 1 := ⟨fuel - 1, by omega⟩
    rw [runOpcodes, if_neg (by simp at ends; omega)]
    rfl
  | @cons op ops bs cs first more ih =>
    intro m s c fuel stands fits order memory here ends bound enough
    obtain ⟨fuel, rfl⟩ : ∃ n, fuel = n + 1 := ⟨fuel - 1, by omega⟩
    obtain ⟨fitsOp, fit, later⟩ := fits
    rw [List.length_append] at ends bound enough
    rw [List.append_assoc] at here
    have some := spells_length_pos first
    obtain ⟨⟨s', new⟩, ran, next, rows, few⟩ := step_spelled stands order memory first here base positive fitsOp fit
    dsimp only at next rows few
    rw [runOpcodes, if_pos (by omega), if_neg (by omega), ran]
    dsimp only
    have bounded : (machineRows (m.exec h op)).length + cs.length ≤ length := by
      rw [rows, List.length_append]
      omega
    have moved : (c.advance bs.length).pos + cs.length = end_ := by
      rw [Cur.pos_advance]
      omega
    rw [← rows, ih (c := c.advance bs.length) next later order memory (Cur.rest_advance here) moved bounded (by omega)]
    rfl
end

end E5r.LineReads
