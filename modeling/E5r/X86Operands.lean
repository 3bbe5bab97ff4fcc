import E5r.X86Flags

/-!
How the lifter reads and writes operands, and what that is on the processor: the
machine's registers and memory seen as a processor, the operands that an instruction
of the architecture is decoded to, and the value or the write each stands for.
-/
namespace E5r.X86Operands
open ArchModel IrModel IrBuilder X86Model X86Spec X86Flags

/-! ### The processor in the machine -/

/-- The processor that a machine is, where the segments start at `bases`. -/
def processor (bases : Segment → ℕ) (m : Machine) : Processor where
  gpr n i := m.registers (gprOffset n + i)
  flag f := m.registers (offset f) != 0
  memory := m.byteAt
  segmentBase := bases

def FlagBits (m : Machine) : Prop := ∀ f, m.registers (offset f) = flagByte (m.registers (offset f) != 0)

theorem flagByte_ne_zero (b : Bool) : (flagByte b != 0) = b := by
  cases b <;> rfl

variable {bases : Segment → ℕ} {m : Machine}

theorem number_eq (n : Fin 16) {bytes : ℕ} (short : bytes ≤ 8) :
    (processor bases m).number n bytes = LittleEndian.value (fun i => m.registers (gprOffset n + i)) bytes := by
  refine LittleEndian.value_congr fun i below => ?_
  rw [dif_pos (by omega)]
  rfl

/-- Machines with the same registers below the flags and the same memory are one
    processor but for the flags. -/
theorem sameStorage_of_moves {kept : ℕ → Prop} {k : ℕ} {b b' : Builder} {s s' : Machine} (moved : Moves kept k b s b' s')
    (registers : ∀ o, low o → kept o) : SameStorage (processor bases s') (processor bases s) := by
  constructor
  · funext n i
    have below : low (gprOffset n + i) := by
      have hn := n.isLt
      have hi := i.isLt
      unfold low cf gprOffset rBase
      omega
    exact moved.registers _ (registers _ below)
  · intro a _
    simp only [processor, Machine.byteAt, moved.memory, moved.image]

/-! ### Decoded operands -/

def registerWidth : OperandWidth → Width
  | .byte => .w8
  | .word => .w16
  | .dword => .w32
  | .qword => .w64

def segmentOf : Option Reg → Option Segment
  | some r => if r.num = 4 then some .fs else if r.num = 5 then some .gs else none
  | none => none

def addressWidth (a : Address) : Width := if a.narrow then .w32 else .w64

def baseReg (a : Address) : Option Reg :=
  match a.base with
  | .none => none
  | .gpr n => some ⟨.gpr, n, addressWidth a⟩
  | .next => some ⟨.pc, 0, addressWidth a⟩

def indexReg (a : Address) : Option (Reg × Extend × ℕ) :=
  match a.index with
  | .none => none
  | .gpr n scale => some (⟨.gpr, n, addressWidth a⟩, .lsl, scale)
  | .zero scale => some (⟨.zr, 0, addressWidth a⟩, .lsl, scale)

def IsAddress (a : Address) (m : Mem) : Prop :=
  segmentOf m.seg = a.segment ∧ m.base = baseReg a ∧ m.index = indexReg a ∧ m.disp = a.disp

def IsPlace (w : OperandWidth) : Place → Operand → Prop
  | .gpr n, .reg r => r = ⟨.gpr, n, registerWidth w⟩
  | .high n, .reg r => w = .byte ∧ r = ⟨.gprHigh, n, .w8⟩
  | .mem a, .mem m => m.size = w.bytes ∧ IsAddress a m
  | _, _ => False

def IsSource (w : OperandWidth) : Source → Operand → Prop
  | .place p, o => IsPlace w p o
  | .imm v, .imm u => u = v
  | .imm v, .uimm u => (u : ℤ) = v
  | .imm _, _ => False

/-- An address that the lifter computes as the processor does: without a segment base,
    in 64 bits, and without the index that is always zero. -/
def Plain (a : Address) : Prop := a.segment = none ∧ a.narrow = false ∧ ∀ scale, a.index ≠ .zero scale

def PlainPlace (p : Place) : Prop := ∀ a ∈ p.addresses, Plain a

theorem widthBytes_registerWidth (w : OperandWidth) : widthBytes (registerWidth w) = w.bytes := by
  cases w <;> rfl

/-! ### Addresses -/

section addresses
variable {b : Builder} {s : Machine} {at_ : ℕ} {α : Type}

theorem eight : (8 : ℕ) ≤ 8 := le_refl _

theorem gpr_low (n : Fin 16) {i : ℕ} (below : i < 8) : low (gprOffset n + i) := by
  have hn := n.isLt
  unfold low cf gprOffset rBase
  omega

theorem holds_gpr (bases : Segment → ℕ) (n : Fin 16) {bytes : ℕ} (short : bytes ≤ 8) :
    Holds low b s (Varnode.register (gprOffset n) bytes) bytes ((processor bases s).number n bytes) := by
  rw [number_eq n short]
  exact holds_register low _ short fun i below => gpr_low n (by omega)

/-- Where an address starts. -/
def baseValue (p : Processor) (at_ : ℕ) (a : Address) : ℕ :=
  match a.base with
  | .none => 0
  | .gpr n => p.number n 8
  | .next => at_

def indexValue (p : Processor) (a : Address) : ℕ :=
  match a.index with
  | .none | .zero _ => 0
  | .gpr n scale => p.number n 8 * 2 ^ scale.val

theorem offset_eq {p : Processor} {a : Address} (plain : Plain a) :
    a.offset p at_ = (((baseValue p at_ a : ℤ) + indexValue p a + a.disp) % 2 ^ 64).toNat := by
  have bytes : a.bytes = 8 := by
    unfold Address.bytes
    rw [plain.2.1]
    rfl
  unfold Address.offset baseValue indexValue
  rw [bytes]
  cases a.base <;> cases a.index <;> norm_num

theorem baseOf_holds {a : Address} (plain : Plain a) (start : at_ < 2 ^ 64) :
    ∃ v, baseOf 8 at_ (baseReg a) = some v ∧ Holds low b s v 8 (baseValue (processor bases s) at_ a) := by
  have width : addressWidth a = .w64 := by
    unfold addressWidth
    rw [plain.2.1]
    rfl
  unfold baseReg baseValue
  cases a.base with
  | none => exact ⟨_, rfl, holds_constant low 0 eight⟩
  | gpr n =>
    rw [width]
    exact ⟨_, rfl, holds_gpr bases n eight⟩
  | next =>
    rw [width]
    refine ⟨_, rfl, ?_⟩
    have held : Holds low b s (Varnode.constant at_ 8) 8 (at_ % 256 ^ 8) := holds_constant low at_ eight
    rwa [Nat.mod_eq_of_lt (by norm_num at start ⊢; exact start)] at held

theorem emits_scaledIndex (bases : Segment → ℕ) {n : Fin 16} {scale : Fin 4} {width : Width} {Q : Varnode → Builder → Machine → Prop}
    (whole : width = .w64) (room : b.nextTemp + 1 ≤ 64)
    (go : ∀ t b' s', Holds low b' s' t 8 ((processor bases s).number n 8 * 2 ^ scale.val % 2 ^ 64) →
      Moves everything 1 b s b' s' → Q t b' s') :
    Emits (scaledIndex 8 ⟨.gpr, n, width⟩ .lsl scale) b s Q := by
  subst whole
  have held : Holds low b s (Varnode.register (gprOffset n) 8) 8 ((processor bases s).number n 8) := holds_gpr bases n eight
  refine emits_bind (emits_given (o := reg ⟨.gpr, n, .w64⟩) rfl ?_)
  refine emits_bind (emits_pure ?_)
  show Emits (if scale.val = 0 then pure (Varnode.register (gprOffset n) 8)
    else eval .intLeft 8 [Varnode.register (gprOffset n) 8, Varnode.constant scale.val 1]) b s Q
  by_cases none : scale.val = 0
  · rw [if_pos none]
    refine emits_pure (go _ _ _ ?_ { Moves.refl with taken := Nat.le_succ _ })
    have small := held.lt
    rw [none, pow_zero, mul_one, Nat.mod_eq_of_lt (by norm_num at small ⊢; exact small)]
    exact held
  · rw [if_neg none]
    have few := scale.isLt
    refine emits_binary held (holds_constant low scale.val (by norm_num))
      (compute_intLeft (by rw [Nat.mod_eq_of_lt (by omega)]; omega) eight) ?_ (by omega) eight
      fun t b₁ s₁ h₁ m₁ => go t b₁ s₁ (h₁ low) m₁
    rw [Nat.mod_eq_of_lt (show scale.val < 256 ^ 1 by omega)]
    exact Nat.mod_mod _ _

theorem emits_address (bases : Segment → ℕ) {a : Address} {operand : Mem} {Q : Varnode → Builder → Machine → Prop}
    (is_ : IsAddress a operand) (plain : Plain a) (start : at_ < 2 ^ 64) (ptr : b.ptr = 8) (room : b.nextTemp + 3 ≤ 64)
    (go : ∀ t b' s', Holds low b' s' t 8 (a.linear (processor bases s) at_) → Moves everything 3 b s b' s' →
      Q t b' s') :
    Emits (address operand at_) b s Q := by
  obtain ⟨seg, base, index, disp⟩ := is_
  have linear : a.linear (processor bases s) at_ =
      (((baseValue (processor bases s) at_ a : ℤ) + indexValue (processor bases s) a + a.disp) % 2 ^ 64).toNat := by
    rw [Address.linear, plain.1, offset_eq plain]
    show (0 + _) % _ = _
    omega
  unfold address
  rw [base, index, disp]
  have flat : (match operand.seg with
      | some s => if s.num = 4 ∨ s.num = 5 then none else some ()
      | none => some ()) = some () := by
    rw [plain.1] at seg
    cases known : operand.seg with
    | none => rfl
    | some r =>
      rw [known] at seg
      unfold segmentOf at seg
      by_cases four : r.num = 4
      · simp [four] at seg
      · by_cases five : r.num = 5
        · simp [five] at seg
        · simp [four, five]
  refine emits_bind (emits_given flat ?_)
  refine emits_bind (emits_pointer ?_)
  rw [ptr]
  obtain ⟨v, found, held⟩ : ∃ v, baseOf 8 at_ (baseReg a) = some v ∧
    Holds low b s v 8 (baseValue (processor bases s) at_ a) := baseOf_holds plain start
  refine emits_bind (emits_given found ?_)
  -- The displacement is added to what the base and the index give.
  have finish {b₁ : Builder} {s₁ : Machine} {t : Varnode} {z : ℕ} (h₁ : Holds low b₁ s₁ t 8 z)
      (m₁ : Moves everything 2 b s b₁ s₁)
      (sums : z = (baseValue (processor bases s) at_ a + indexValue (processor bases s) a) % 2 ^ 64) :
      Emits (if a.disp ≠ 0 then eval .intAdd 8 [t, Varnode.constant (asU64 a.disp) 8] else pure t) b₁ s₁ Q := by
    have n₁ := m₁.taken
    by_cases none : a.disp = 0
    · rw [if_neg (by simpa using none)]
      refine emits_pure (go t b₁ s₁ ?_ { m₁ with taken := by omega })
      rw [linear, none]
      have same : z = (((baseValue (processor bases s) at_ a : ℤ) + indexValue (processor bases s) a + 0) % 2 ^ 64).toNat := by
        omega
      rwa [← same]
    · rw [if_pos none]
      refine emits_binary h₁ (holds_constant low _ eight) compute_intAdd ?_ (by omega) eight
        fun t₂ b₂ s₂ h₂ m₂ => go t₂ b₂ s₂ (h₂ low) (m₁.and_then m₂)
      rw [linear, sums, asU64]
      norm_num
      omega
  unfold indexReg
  cases known : a.index with
  | none =>
    refine emits_bind (emits_pure (finish held { Moves.refl with taken := Nat.le_add_right _ _ } ?_))
    have small := held.lt
    unfold indexValue
    rw [known]
    norm_num at small ⊢
    omega
  | zero scale => exact absurd known (plain.2.2 scale)
  | gpr n scale =>
    have width : addressWidth a = .w64 := by
      unfold addressWidth
      rw [plain.2.1]
      rfl
    have value : indexValue (processor bases s) a = (processor bases s).number n 8 * 2 ^ scale.val := by
      unfold indexValue
      rw [known]
    refine emits_bind (emits_scaledIndex bases width (by omega) fun t₁ b₁ s₁ h₁ m₁ => ?_)
    have n₁ := m₁.taken
    cases start : a.base with
    | none =>
      have nothing : baseReg a = none := by
        unfold baseReg
        rw [start]
      have zero : baseValue (processor bases s) at_ a = 0 := by
        unfold baseValue
        rw [start]
      rw [nothing]
      exact emits_bind (emits_pure (finish h₁ { m₁ with taken := by omega } (by rw [zero, value, Nat.zero_add])))
    | gpr _ | next =>
      have something : (baseReg a).isNone = false := by
        unfold baseReg
        rw [start]
        rfl
      rw [something]
      refine emits_bind (emits_binary (held.later (m₁.weaken fun _ _ => trivial)) h₁ compute_intAdd rfl (by omega) eight
        fun t₂ b₂ s₂ h₂ m₂ => finish (h₂ low) (m₁.and_then m₂) ?_)
      rw [value]
      norm_num

end addresses

/-! ### Reading operands -/

section reading
variable {b : Builder} {s : Machine} {at_ : ℕ} {w : OperandWidth}

theorem byteSlot_byte (n : Fin 16) {index : ℕ} (inside : index < 8) :
    byteSlot (Varnode.register (gprOffset n + index) 1) = some (Varnode.register (gprOffset n) 8, index) := by
  have hn := n.isLt
  have below : gprOffset n + index < cf := by
    unfold gprOffset rBase cf
    omega
  have start : (gprOffset n + index) / 8 * 8 = gprOffset n := by
    unfold gprOffset rBase
    omega
  have rest : (gprOffset n + index) % 8 = index := by
    unfold gprOffset rBase
    omega
  unfold byteSlot
  rw [if_pos ⟨rfl, rfl, below⟩]
  show some (Varnode.register ((gprOffset n + index) / 8 * 8) 8, (gprOffset n + index) % 8) = _
  rw [start, rest]

theorem byteSlot_wide {offset size : ℕ} (wide : size ≠ 1) : byteSlot (Varnode.register offset size) = none := by
  unfold byteSlot
  rw [if_neg fun h => wide h.2.1]

theorem number_byte (p : Processor) (n : Fin 16) (i : Fin 8) : p.number n 8 / 256 ^ i.val % 256 = (p.gpr n i).toNat := by
  have bytes := LittleEndian.byte_value (f := fun i => if h : i < 8 then p.gpr n ⟨i, h⟩ else 0) i.isLt
  rw [← LittleEndian.toNat_byte]
  unfold Processor.number
  rw [bytes, dif_pos i.isLt]

theorem reg_high (n : Fin 4) :
    reg ⟨.gprHigh, n, .w8⟩ = some (Varnode.register (gprOffset (highRegister n) + 1) 1) := by
  have number : (n : ℕ) &&& 3 = n := by
    rw [show 3 = 2 ^ 2 - 1 from rfl, Nat.and_two_pow_sub_one_eq_mod]
    exact Nat.mod_eq_of_lt n.isLt
  show some (Varnode.register (gprOffset ((n : ℕ) &&& 3) + 1) 1) = _
  rw [number]
  rfl

theorem emits_read_byte (bases : Segment → ℕ) (n : Fin 16) (i : Fin 8) {Q : Varnode → Builder → Machine → Prop} (room : b.nextTemp + 1 ≤ 64)
    (go : ∀ t b' s', Holds low b' s' t 1 ((processor bases s).gpr n i).toNat → Moves everything 1 b s b' s' →
      Q t b' s') :
    Emits (X86Model.read (Varnode.register (gprOffset n + i) 1)) b s Q := by
  unfold X86Model.read
  rw [byteSlot_byte n i.isLt]
  have index : i.val % 256 ^ 1 = i.val := Nat.mod_eq_of_lt (by have := i.isLt; omega)
  refine emits_binary (holds_gpr bases n eight) (holds_constant low i.val (by norm_num))
    (compute_subPiece (by rw [index]; exact i.isLt)) ?_ (by omega) (by norm_num) fun t b₁ s₁ h₁ m₁ => go t b₁ s₁ (h₁ low) m₁
  rw [index]
  exact number_byte _ n i

theorem emits_source_place (bases : Segment → ℕ) {place : Place} {o : Operand} {Q : Varnode → Builder → Machine → Prop}
    (is_ : IsPlace w place o) (plain : PlainPlace place) (start : at_ < 2 ^ 64) (ptr : b.ptr = 8)
    (room : b.nextTemp + 4 ≤ 64)
    (go : ∀ t b' s', Holds low b' s' t w.bytes ((processor bases s).read at_ w place) → Moves everything 4 b s b' s' →
      Q t b' s') :
    Emits (source o w.bytes at_) b s Q := by
  cases place with
  | gpr n =>
    cases o with
    | reg r =>
      have r_eq : r = ⟨.gpr, n, registerWidth w⟩ := is_
      subst r_eq
      have place : reg ⟨.gpr, n, registerWidth w⟩ = some (Varnode.register (gprOffset n) w.bytes) := by
        rw [reg, widthBytes_registerWidth]
      refine emits_bind (emits_given place ?_)
      by_cases byte : w = .byte
      · subst byte
        refine emits_read_byte bases n 0 (by omega) fun t b₁ s₁ h₁ m₁ => go t b₁ s₁ ?_ { m₁ with taken := ?_ }
        · have first : (processor bases s).read at_ .byte (.gpr n) = ((processor bases s).gpr n 0).toNat := by
            show (processor bases s).number n 1 = _
            simp [Processor.number, LittleEndian.value]
          rw [first]
          exact h₁
        · have := m₁.taken
          omega
      · have wide : w.bytes ≠ 1 := by cases w <;> first | exact absurd rfl byte | decide
        unfold X86Model.read
        rw [byteSlot_wide wide]
        exact emits_pure (go _ _ _ (holds_gpr bases n (bytes_short w)) { Moves.refl with taken := by omega })
    | _ => exact is_.elim
  | high n =>
    cases o with
    | reg r =>
      obtain ⟨byte, r_eq⟩ : w = .byte ∧ r = ⟨.gprHigh, n, .w8⟩ := is_
      subst byte r_eq
      refine emits_bind (emits_given (reg_high n) ?_)
      refine emits_read_byte bases (highRegister n) 1 (by omega) fun t b₁ s₁ h₁ m₁ =>
        go t b₁ s₁ h₁ { m₁ with taken := ?_ }
      have := m₁.taken
      omega
    | _ => exact is_.elim
  | mem a =>
    cases o with
    | mem m =>
      obtain ⟨size, address⟩ : m.size = w.bytes ∧ IsAddress a m := is_
      have amount : (if m.size = 0 then w.bytes else min m.size 16) = w.bytes := by
        rw [size]
        cases w <;> rfl
      have straight : Plain a := plain a rfl
      refine emits_bind (emits_address bases address straight start ptr (by omega) fun t b₁ s₁ h₁ m₁ => ?_)
      have n₁ := m₁.taken
      rw [amount]
      refine emits_load h₁ (by omega) (bytes_short w) fun t₂ b₂ s₂ h₂ m₂ => go t₂ b₂ s₂ ?_ (m₁.and_then m₂)
      have same : LittleEndian.value (fun i => s₁.byteAt ((a.linear (processor bases s) at_ + i) % 2 ^ 64)) w.bytes =
          (processor bases s).read at_ w (.mem a) := by
        refine LittleEndian.value_congr fun i _ => ?_
        simp only [Machine.byteAt, m₁.memory, m₁.image, processor]
      rw [← same]
      exact h₂ low
    | _ => exact is_.elim

theorem emits_source (bases : Segment → ℕ) {src : Source} {o : Operand} {Q : Varnode → Builder → Machine → Prop} (is_ : IsSource w src o)
    (plain : ∀ p, src = .place p → PlainPlace p) (start : at_ < 2 ^ 64) (ptr : b.ptr = 8) (room : b.nextTemp + 4 ≤ 64)
    (go : ∀ t b' s', Holds low b' s' t w.bytes ((processor bases s).value at_ w src) → Moves everything 4 b s b' s' →
      Q t b' s') :
    Emits (source o w.bytes at_) b s Q := by
  have short := bytes_short w
  cases src with
  | place p => exact emits_source_place bases is_ (plain p rfl) start ptr room go
  | imm v =>
    have literal (n : ℕ) (cut : n % 256 ^ w.bytes = (v % (w.modulus : ℤ)).toNat) :
        Emits (pure (Varnode.constant n w.bytes)) b s Q := by
      refine emits_pure (go _ _ _ ?_ { Moves.refl with taken := by omega })
      show Holds low b s _ _ (v % (w.modulus : ℤ)).toNat
      rw [← cut]
      exact holds_constant low n short
    cases o with
    | imm u =>
      have same : u = v := is_
      subst same
      refine literal (asU64 u) ?_
      unfold asU64 OperandWidth.modulus
      cases w <;> simp only [OperandWidth.bytes] <;> omega
    | uimm u =>
      have same : (u : ℤ) = v := is_
      subst same
      refine literal u ?_
      unfold OperandWidth.modulus
      omega
    | _ => exact is_.elim

theorem emits_two (bases : Segment → ℕ) {dst : Place} {src : Source} {d o : Operand} {rest : List Operand}
    {Q : Varnode × Varnode → Builder → Machine → Prop} (isDst : IsPlace w dst d) (isSrc : IsSource w src o)
    (plainDst : PlainPlace dst) (plainSrc : ∀ p, src = .place p → PlainPlace p) (start : at_ < 2 ^ 64)
    (ptr : b.ptr = 8) (room : b.nextTemp + 8 ≤ 64)
    (go : ∀ x y b' s', Holds low b' s' x w.bytes ((processor bases s).read at_ w dst) →
      Holds low b' s' y w.bytes ((processor bases s).value at_ w src) → Moves everything 8 b s b' s' →
      Q (x, y) b' s') :
    Emits (two (d :: o :: rest) w.bytes at_) b s Q := by
  unfold two
  refine emits_bind (emits_given (o := (d :: o :: rest)[0]?) rfl ?_)
  refine emits_bind (emits_source_place bases isDst plainDst start ptr (by omega) fun x b₁ s₁ h₁ m₁ => ?_)
  have n₁ := m₁.taken
  refine emits_bind (emits_given (o := (d :: o :: rest)[1]?) rfl ?_)
  refine emits_bind (emits_source bases isSrc plainSrc start (by rw [m₁.ptr, ptr]) (by omega)
    fun y b₂ s₂ h₂ m₂ => ?_)
  have matched : sizeMatched y w.bytes = pure y := by
    rw [sizeMatched, if_pos h₂.sized]
  rw [matched]
  refine emits_bind (emits_pure (emits_pure (go x y b₂ s₂ (h₁.later (m₂.weaken fun _ _ => trivial)) ?_ (m₁.and_then m₂))))
  have same : SameStorage (processor bases s₁) (processor bases s) := sameStorage_of_moves m₁ fun _ _ => trivial
  rwa [same.value rfl] at h₂

end reading

/-! ### Writing operands -/

section writing
variable {b : Builder} {s : Machine} {at_ : ℕ} {w : OperandWidth} {v : Varnode} {z : ℕ}

def outside (n : Fin 16) (o : ℕ) : Prop := o < gprOffset n ∨ gprOffset n + 8 ≤ o

theorem processor_written {b' : Builder} {s' : Machine} {k : ℕ} {n : Fin 16} {f : Fin 8 → UInt8}
    (moved : Moves (outside n) k b s b' s') (written : ∀ i : Fin 8, s'.registers (gprOffset n + i) = f i) :
    (processor bases s').gpr = Function.update (processor bases s).gpr n f ∧
      ∀ a, (processor bases s').memory a = (processor bases s).memory a := by
  constructor
  · funext other i
    show s'.registers (gprOffset other + i) = _
    by_cases same : other = n
    · subst same
      rw [written i, Function.update_self]
    · rw [Function.update_of_ne same, moved.registers]
      · rfl
      · have hi := i.isLt
        have distinct : other.val ≠ n.val := fun h => same (Fin.ext h)
        unfold outside gprOffset rBase
        omega
  · intro a
    simp only [processor, Machine.byteAt, moved.memory, moved.image]

theorem written_gpr {b' : Builder} {s' : Machine} {k : ℕ} {n : Fin 16} (moved : Moves (outside n) k b s b' s')
    (written : ∀ i : Fin 8, s'.registers (gprOffset n + i) =
      if i.val < w.bytes then LittleEndian.byte z i else if w = .dword then 0 else s.registers (gprOffset n + i)) :
    SameStorage (processor bases s') ((processor bases s).write at_ w z (.gpr n)) := by
  obtain ⟨gpr, memory⟩ := processor_written moved written
  refine ⟨?_, fun a _ => memory a⟩
  rw [gpr]
  simp only [Processor.write, processor]

theorem emits_write_byte (n : Fin 16) (i : Fin 8) {Q : Unit → Builder → Machine → Prop}
    (hv : Holds everything b s v 1 z) (room : b.nextTemp + 3 ≤ 64)
    (go : ∀ b' s', Moves (outside n) 3 b s b' s' →
      (∀ j : Fin 8, s'.registers (gprOffset n + j) =
        if j.val = i.val then UInt8.ofNat z else s.registers (gprOffset n + j)) → Q () b' s') :
    Emits (X86Model.write (Varnode.register (gprOffset n + i) 1) v) b s Q := by
  have small : z < 256 := by simpa using hv.lt
  have hi := i.isLt
  have below : i.val * 8 < 64 := by omega
  have amount : i.val * 8 % 256 ^ 1 = i.val * 8 := Nat.mod_eq_of_lt (by omega)
  have whole : Holds everything b s (Varnode.register (gprOffset n) 8) 8
      (LittleEndian.value (fun j => s.registers (gprOffset n + j)) 8) :=
    holds_register everything _ eight fun _ _ => trivial
  unfold X86Model.write
  rw [byteSlot_byte n hi]
  simp only [hv.sized, if_true]
  refine emits_bind (emits_pure ?_)
  refine emits_bind (emits_binary whole (holds_constant everything _ eight) compute_intAnd rfl (by omega) eight
    fun t₁ b₁ s₁ h₁ m₁ => ?_)
  have n₁ := m₁.taken
  refine emits_bind (emits_unary (hv.later m₁) compute_intZExt (z := z) ?_ (by omega) eight fun t₂ b₂ s₂ h₂ m₂ => ?_)
  · exact Nat.mod_eq_of_lt (by omega)
  have n₂ := m₂.taken
  -- Placing a byte at the bottom takes no shift.
  have finish {b₃ : Builder} {s₃ : Machine} {t₃ : Varnode} (h₃ : Holds everything b₃ s₃ t₃ 8 (z * 2 ^ (8 * i.val) % 2 ^ 64))
      (m₃ : Moves everything 1 b₂ s₂ b₃ s₃) :
      Emits (emit .intOr (some (Varnode.register (gprOffset n) 8)) [t₁, t₃]) b₃ s₃ Q := by
    refine emits_register_binary (((h₁ everything).later m₂).later m₃) h₃ eight compute_intOr
      fun b₄ s₄ m₄ written => go b₄ s₄ ?_ fun j => ?_
    · exact (((m₁.and_then m₂).and_then m₃).trans m₄).weaken fun o there => ⟨trivial, there⟩
    · have hj := j.isLt
      have fits : 2 ^ 64 - 1 - 0xff * 2 ^ (i.val * 8) < 256 ^ 8 := by
        norm_num
        omega
      have cut : (LittleEndian.value (fun j => s.registers (gprOffset n + j)) 8 &&&
          (2 ^ 64 - 1 - 0xff * 2 ^ (i.val * 8)) % 256 ^ 8) % 256 ^ 8 =
          LittleEndian.value (fun j => s.registers (gprOffset n + j)) 8 &&& (2 ^ 64 - 1 - 0xff * 2 ^ (8 * i.val)) := by
        rw [Nat.mod_eq_of_lt fits, Nat.mul_comm i.val 8]
        exact Nat.mod_eq_of_lt (lt_of_le_of_lt Nat.and_le_left (LittleEndian.value_lt _ _))
      rw [written j hj, cut, LittleEndian.byte_replace small hi hj]
      by_cases same : j.val = i.val
      · rw [if_pos same, if_pos same]
      · rw [if_neg same, if_neg same, LittleEndian.byte_value hj]
  by_cases bottom : i.val * 8 = 0
  · rw [if_pos bottom]
    refine emits_bind (emits_pure (finish ?_ { Moves.refl with taken := Nat.le_succ _ }))
    have none : z * 2 ^ (8 * i.val) % 2 ^ 64 = z := by
      rw [show 8 * i.val = 0 by omega, pow_zero, mul_one]
      exact Nat.mod_eq_of_lt (by omega)
    rw [none]
    exact h₂ everything
  · rw [if_neg bottom]
    refine emits_bind (emits_binary (h₂ everything) (holds_constant everything _ (by norm_num))
      (compute_intLeft (by omega) eight) ?_ (by omega) eight fun t₃ b₃ s₃ h₃ m₃ => finish (h₃ _) m₃)
    rw [amount, Nat.mul_comm i.val 8]
    exact Nat.mod_mod _ _

theorem byte_zero (z : ℕ) : LittleEndian.byte z 0 = UInt8.ofNat z := by
  simp [LittleEndian.byte]

theorem above_outside (n : Fin 16) {o : ℕ} (above : 128 ≤ o) : outside n o := by
  have hn := n.isLt
  unfold outside gprOffset rBase
  omega

theorem emits_write_gpr (bases : Segment → ℕ) (n : Fin 16) {Q : Unit → Builder → Machine → Prop}
    (room : b.nextTemp + 3 ≤ 64) (hv : Holds everything b s v w.bytes z)
    (go : ∀ b' s', SameStorage (processor bases s') ((processor bases s).write at_ w z (.gpr n)) →
      (∀ o, 128 ≤ o → s'.registers o = s.registers o) → Q () b' s') :
    Emits (writeReg ⟨.gpr, n, registerWidth w⟩ v) b s Q := by
  have place : reg ⟨.gpr, n, registerWidth w⟩ = some (Varnode.register (gprOffset n) w.bytes) := by
    rw [reg, widthBytes_registerWidth]
  unfold writeReg
  rw [place]
  by_cases byte : w = .byte
  · subst byte
    refine emits_bind (emits_write_byte n 0 hv (by omega) fun b₁ s₁ m₁ written => ?_)
    rw [if_neg (fun both => absurd both.1 (by decide : registerWidth .byte ≠ .w32))]
    refine emits_pure (go b₁ s₁ (written_gpr m₁ fun i => ?_) fun o above => m₁.registers o (above_outside n above))
    have zero : (0 : Fin 8).val = 0 := rfl
    rw [written i, zero]
    by_cases first : i.val = 0
    · rw [if_pos first, if_pos (by rw [first]; decide), first, byte_zero]
    · rw [if_neg first, if_neg (by simp only [OperandWidth.bytes]; omega), if_neg (by decide)]
  · have wide : w.bytes ≠ 1 := by cases w <;> first | exact absurd rfl byte | decide
    have short := bytes_short w
    have copied : X86Model.write (Varnode.register (gprOffset n) w.bytes) v =
        emit .copy (some (Varnode.register (gprOffset n) w.bytes)) [v] := by
      unfold X86Model.write
      rw [byteSlot_wide wide]
    dsimp only
    rw [copied]
    refine emits_bind (emits_copy hv short fun b₁ s₁ m₁ written => ?_)
    by_cases dword : w = .dword
    · subst dword
      rw [if_pos ⟨rfl, rfl⟩]
      refine emits_copy (holds_constant everything 0 (by norm_num : 4 ≤ 8)) (by norm_num) fun b₂ s₂ m₂ cleared => ?_
      have moved : Moves (outside n) (0 + 0) b s b₂ s₂ := (m₁.trans m₂).weaken fun o there => by
        unfold outside at there
        simp only [OperandWidth.bytes, Varnode.register] at *
        omega
      refine go b₂ s₂ (written_gpr moved fun i => ?_) fun o above => moved.registers o (above_outside n above)
      have hi := i.isLt
      by_cases lower : i.val < 4
      · rw [if_pos (by simpa [OperandWidth.bytes] using lower), m₂.registers _ (Or.inl (by
          show gprOffset n + i.val < gprOffset n + 4
          omega)), written i (by simpa [OperandWidth.bytes] using lower)]
      · have upper := cleared (i.val - 4) (by omega)
        have position : (Varnode.register (gprOffset n) OperandWidth.dword.bytes).offset + 4 + (i.val - 4) =
            gprOffset n + i.val := by
          show gprOffset n + 4 + (i.val - 4) = _
          omega
        rw [position] at upper
        rw [if_neg (by simpa [OperandWidth.bytes] using lower), if_pos rfl, upper]
        simp [LittleEndian.byte]
    · rw [if_neg (fun both => absurd both.1 (by cases w <;> first | exact absurd rfl dword | decide))]
      have moved : Moves (outside n) 0 b s b₁ s₁ := m₁.weaken fun o there => by
        unfold outside at there
        omega
      refine emits_pure (go b₁ s₁ (written_gpr moved fun i => ?_) fun o above => moved.registers o (above_outside n above))
      by_cases lower : i.val < w.bytes
      · rw [if_pos lower, written i lower]
      · rw [if_neg lower, if_neg dword, m₁.registers _ (Or.inr (by omega))]

theorem emits_store_place (bases : Segment → ℕ) {place : Place} {o : Operand} {Q : Unit → Builder → Machine → Prop}
    (is_ : IsPlace w place o) (plain : PlainPlace place) (start : at_ < 2 ^ 64) (ptr : b.ptr = 8)
    (room : b.nextTemp + 3 ≤ 64) (hv : Holds everything b s v w.bytes z)
    (go : ∀ b' s', SameStorage (processor bases s') ((processor bases s).write at_ w z place) →
      (∀ o, 128 ≤ o → s'.registers o = s.registers o) → Q () b' s') :
    Emits (store o v at_) b s Q := by
  cases place with
  | gpr n =>
    cases o with
    | reg r =>
      have r_eq : r = ⟨.gpr, n, registerWidth w⟩ := is_
      subst r_eq
      exact emits_write_gpr bases n room hv go
    | _ => exact is_.elim
  | high n =>
    cases o with
    | reg r =>
      obtain ⟨byte, r_eq⟩ : w = .byte ∧ r = ⟨.gprHigh, n, .w8⟩ := is_
      subst byte r_eq
      show Emits (writeReg ⟨.gprHigh, n, .w8⟩ v) b s Q
      unfold writeReg
      rw [reg_high]
      refine emits_bind (emits_write_byte (highRegister n) 1 hv (by omega) fun b₁ s₁ m₁ written => ?_)
      rw [if_neg (fun both => absurd both.1 (by decide : Width.w8 ≠ .w32))]
      refine emits_pure (go b₁ s₁ ?_ fun o above => m₁.registers o (above_outside _ above))
      obtain ⟨gpr, memory⟩ := processor_written m₁ written
      refine ⟨?_, fun a _ => memory a⟩
      rw [gpr]
      simp only [Processor.write]
      congr 1
      funext i
      by_cases first : i = 1
      · subst first
        rw [Function.update_self, if_pos rfl, byte_zero]
      · rw [Function.update_of_ne first, if_neg (fun h => first (Fin.ext h))]
        rfl
    | _ => exact is_.elim
  | mem a =>
    cases o with
    | mem m =>
      obtain ⟨_, address⟩ : m.size = w.bytes ∧ IsAddress a m := is_
      refine emits_bind (emits_address bases address (plain a rfl) start ptr (by omega) fun t b₁ s₁ h₁ m₁ => ?_)
      have linear : a.linear (processor bases s) at_ < 2 ^ 64 := Nat.mod_lt _ (by norm_num)
      refine emits_store h₁ (hv.later m₁) linear fun b₂ s₂ _ registers stored => go b₂ s₂ ?_ fun o above => ?_
      · constructor
        · rw [write_mem_gpr]
          funext n i
          show s₂.registers _ = s.registers _
          rw [registers, m₁.registers _ trivial]
        · intro at' below
          rw [write_mem_memory]
          have same : s₁.byteAt at' = (processor bases s).memory at' := by
            simp only [Machine.byteAt, m₁.memory, m₁.image, processor]
          show s₂.byteAt at' = _
          rw [stored at' below, same]
      · rw [registers, m₁.registers _ trivial]
    | _ => exact is_.elim

end writing

end E5r.X86Operands
