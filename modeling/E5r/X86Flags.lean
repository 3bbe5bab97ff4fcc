import E5r.X86Model
import E5r.X86Spec

/-!
The flags that the lifted operations compute are those of the architecture, at every
operand width: one specification for each piece of the lifter that works flags out.
-/
namespace E5r.X86Flags
open IrModel IrBuilder X86Model X86Spec

/-! ### Arithmetic at one width -/

theorem bytes_short (w : OperandWidth) : w.bytes ≤ 8 := by
  cases w <;> decide

theorem bytes_pos (w : OperandWidth) : 0 < w.bytes := by
  cases w <;> decide

theorem half_eq (w : OperandWidth) : w.half = 2 ^ (w.bytes * 8 - 1) := by
  cases w <;> rfl

theorem modulus_eq (w : OperandWidth) : w.modulus = 2 * w.half := by
  cases w <;> rfl

theorem signBit_eq (w : OperandWidth) (v : ℕ) : signBit v w.bytes = decide (w.half ≤ v % w.modulus) := by
  have shifted : signBit v w.bytes = (v / w.half % 2 == 1) := by
    rw [half_eq]
    cases w <;> simp [signBit, OperandWidth.bytes, Nat.shiftRight_eq_div_pow]
  have pos : 0 < w.half := by cases w <;> decide
  have small : v % (2 * w.half) < 2 * w.half := Nat.mod_lt _ (by omega)
  rw [shifted, modulus_eq, ← Nat.mod_mul_right_div_self, Nat.mul_comm w.half 2]
  by_cases high : w.half ≤ v % (2 * w.half)
  · have one : v % (2 * w.half) / w.half = 1 := Nat.div_eq_of_lt_le (by omega) (by omega)
    simp [one, high]
  · simp [Nat.div_eq_of_lt (Nat.lt_of_not_le high), high]

theorem cut_sum (w : OperandWidth) (n : ℕ) : n % 2 ^ 64 % w.modulus = n % w.modulus := by
  apply Nat.mod_mod_of_dvd
  cases w <;> decide

theorem sum_cases (w : OperandWidth) {x y : ℕ} (hx : x < w.modulus) (hy : y < w.modulus) :
    x + y < w.modulus ∧ (x + y) % w.modulus = x + y ∨
      w.modulus ≤ x + y ∧ (x + y) % w.modulus + w.modulus = x + y := by
  by_cases above : w.modulus ≤ x + y
  · refine Or.inr ⟨above, ?_⟩
    rw [Nat.mod_eq_sub_mod above, Nat.mod_eq_of_lt (by omega)]
    omega
  · exact Or.inl ⟨by omega, Nat.mod_eq_of_lt (by omega)⟩

theorem difference_cases (w : OperandWidth) {x y : ℕ} (hx : x < w.modulus) (hy : y < w.modulus) :
    y ≤ x ∧ (x + 2 ^ 64 - y) % 2 ^ 64 % w.modulus = x - y ∨
      x < y ∧ (x + 2 ^ 64 - y) % 2 ^ 64 % w.modulus = x + w.modulus - y := by
  rw [cut_sum]
  unfold OperandWidth.modulus at *
  cases w <;> simp only [OperandWidth.bytes] at * <;> omega

theorem compute_carry (w : OperandWidth) {x y m : ℕ} (hx : x < w.modulus) (hy : y < w.modulus) :
    compute .intCarry [(x, w.bytes), (y, m)] = .value (decide (w.modulus ≤ x + y)).toNat := by
  have mask : (x + y) % 2 ^ 64 &&& (Varnode.constant 0 w.bytes).mask = (x + y) % w.modulus := by
    rw [and_mask _ (show (Varnode.constant 0 w.bytes).size ≤ 8 from bytes_short w)]
    exact cut_sum w _
  have whole : compute .intCarry [(x, w.bytes), (y, m)] =
      .value (decide ((x + y) % 2 ^ 64 &&& (Varnode.constant 0 w.bytes).mask < x)).toNat := rfl
  rw [whole, mask]
  congr 2
  apply decide_eq_decide.mpr
  rcases sum_cases w hx hy with ⟨below, same⟩ | ⟨above, cut⟩ <;> omega

/-- Two operands of one sign whose sum has the other: the signed sum does not fit. -/
theorem compute_scarry (w : OperandWidth) {x y m : ℕ} (hx : x < w.modulus) (hy : y < w.modulus) :
    compute .intSCarry [(x, w.bytes), (y, m)] = .value (!fits w (signed w x + signed w y)).toNat := by
  have whole : compute .intSCarry [(x, w.bytes), (y, m)] =
      .value (signBit x w.bytes == signBit y w.bytes &&
        signBit ((x + y) % 2 ^ 64) w.bytes != signBit x w.bytes).toNat := rfl
  rw [whole, signBit_eq, signBit_eq, signBit_eq, cut_sum, Nat.mod_eq_of_lt hx, Nat.mod_eq_of_lt hy]
  congr 2
  rw [Bool.eq_iff_iff]
  simp only [Bool.and_eq_true, beq_iff_eq, bne_iff_ne, decide_eq_decide, ne_eq, fits, Bool.not_eq_true',
    decide_eq_false_iff_not]
  have split := sum_cases w hx hy
  have double := modulus_eq w
  unfold signed
  split_ifs <;> omega

/-- Two operands of different signs whose difference has the sign of the second. -/
theorem compute_sborrow (w : OperandWidth) {x y m : ℕ} (hx : x < w.modulus) (hy : y < w.modulus) :
    compute .intSBorrow [(x, w.bytes), (y, m)] = .value (!fits w (signed w x - signed w y)).toNat := by
  have whole : compute .intSBorrow [(x, w.bytes), (y, m)] =
      .value (signBit x w.bytes != signBit y w.bytes &&
        signBit ((x + 2 ^ 64 - y) % 2 ^ 64) w.bytes != signBit x w.bytes).toNat := rfl
  rw [whole, signBit_eq, signBit_eq, signBit_eq, Nat.mod_eq_of_lt hx, Nat.mod_eq_of_lt hy]
  congr 2
  rw [Bool.eq_iff_iff]
  simp only [Bool.and_eq_true, bne_iff_ne, decide_eq_decide, ne_eq, fits, Bool.not_eq_true',
    decide_eq_false_iff_not]
  have split := difference_cases w hx hy
  have double := modulus_eq w
  unfold signed
  split_ifs <;> omega

/-! ### Where the flags are -/

def offset : Flag → ℕ
  | .cf => cf
  | .pf => pf
  | .af => af
  | .zf => zf
  | .sf => sf
  | .of => of
  | .df => df

def flagByte (b : Bool) : UInt8 := UInt8.ofNat b.toNat

/-- The registers below the flags. -/
def low (o : ℕ) : Prop := o < cf

/-- The registers that an instruction with these flags does not set. -/
def untouched (flags : Flag → Change) (o : ℕ) : Prop := ∀ f, flags f ≠ .same → o ≠ offset f

def FlagsSet (s : Machine) (flags : Flag → Change) : Prop := ∀ f c, flags f = .set c → s.registers (offset f) = flagByte c

theorem low_untouched {flags : Flag → Change} {o : ℕ} (below : low o) : untouched flags o := by
  intro f _
  unfold low at below
  cases f <;> simp only [offset, cf, pf, af, zf, sf, of, df] at * <;> omega

section pieces
variable {w : OperandWidth} {b : Builder} {s : Machine} {v vx vy vr : Varnode} {x y r c k : ℕ}

theorem cut_bit (p : Bool) : p.toNat % 256 ^ 1 = p.toNat := toNat_cut p

theorem bit_ne_zero (p : Bool) : (p.toNat != 0) = p := by
  cases p <;> rfl

theorem sign_shift (w : OperandWidth) {x m : ℕ} :
    compute .intRight [(x, w.bytes), ((w.bytes * 8 - 1) % 256 ^ 1, m)] = .value (x / w.half) := by
  have amount : (w.bytes * 8 - 1) % 256 ^ 1 = w.bytes * 8 - 1 := by cases w <;> rfl
  have pos := bytes_pos w
  rw [amount, compute_intRight (by omega) (bytes_short w), half_eq]

theorem emits_signOf {kept : ℕ → Prop} {Q : Varnode → Builder → Machine → Prop} (hx : Holds kept b s v w.bytes x)
    (room : b.nextTemp + 2 ≤ 64)
    (go : ∀ t b' s', (∀ kept, Holds kept b' s' t 1 (decide (w.half ≤ x)).toNat) → Moves everything 2 b s b' s' →
      Q t b' s') :
    Emits (signOf v) b s Q := by
  have sized := hx.sized
  have small : x < w.modulus := hx.lt
  have double := modulus_eq w
  have pos : 0 < w.half := by cases w <;> decide
  unfold signOf
  rw [sized]
  apply emits_bind
  refine emits_binary hx (holds_constant low _ (by norm_num)) (sign_shift w)
    (Nat.mod_eq_of_lt (lt_of_le_of_lt (Nat.div_le_self _ _) small)) (by omega) (bytes_short w) fun high b₁ s₁ hh m₁ => ?_
  have first := m₁.taken
  refine emits_binary (hh low) (holds_constant low 0 (bytes_short w)) compute_intNotEqual ?_ (by omega)
    (by norm_num) fun t b₂ s₂ ht m₂ => go t b₂ s₂ ht (m₁.and_then m₂)
  have nonzero : (x / w.half != 0 % 256 ^ w.bytes) = decide (w.half ≤ x) := by
    rw [Nat.zero_mod]
    by_cases high : w.half ≤ x
    · have one : x / w.half = 1 := Nat.div_eq_of_lt_le (by omega) (by omega)
      simp [one, high]
    · simp [Nat.div_eq_of_lt (Nat.lt_of_not_le high), high]
  rw [nonzero, cut_bit]

theorem countOnes_low (r : ℕ) : countOnes (r % 256) = (List.range 8).countP (fun i => r.testBit i) := by
  have split : List.range 64 = List.range 8 ++ (List.range 56).map (fun i => 8 + i) := by decide
  unfold countOnes
  rw [split, List.countP_append, List.countP_map]
  have high : List.countP ((fun i => (r % 256).testBit i) ∘ fun i => 8 + i) (List.range 56) = 0 := by
    rw [List.countP_eq_zero]
    intro i _
    rw [Function.comp_apply, show 256 = 2 ^ 8 from rfl, Nat.testBit_mod_two_pow]
    simp
  rw [high, Nat.add_zero]
  apply List.countP_congr
  intro i inside
  rw [show 256 = 2 ^ 8 from rfl, Nat.testBit_mod_two_pow, decide_eq_true (List.mem_range.mp inside)]
  simp

theorem parity_eq (r : ℕ) : (countOnes (r % 256) % 256 ^ 1 &&& 1 % 256 ^ 1) % 256 ^ 1 = 1 - (evenParity r).toNat := by
  have few : (List.range 8).countP (fun i => r.testBit i) ≤ 8 := List.countP_le_length
  rw [countOnes_low, show 1 % 256 ^ 1 = 2 ^ 1 - 1 from rfl, Nat.and_two_pow_sub_one_eq_mod]
  unfold evenParity
  generalize (List.range 8).countP (fun i => r.testBit i) = n at few
  by_cases even : n % 2 = 0
  · simp only [even, decide_true, Bool.toNat_true]
    omega
  · simp only [even, decide_false, Bool.toNat_false]
    omega

theorem emits_setResultFlags {Q : Unit → Builder → Machine → Prop} (hr : Holds low b s v w.bytes r)
    (room : b.nextTemp + 7 ≤ 64)
    (go : ∀ b' s', Moves (fun o => o ≠ sf ∧ o ≠ zf ∧ o ≠ pf) 7 b s b' s' →
      s'.registers sf = flagByte (decide (w.half ≤ r)) → s'.registers zf = flagByte (decide (r = 0)) →
      s'.registers pf = flagByte (evenParity r) → Q () b' s') :
    Emits (setResultFlags v) b s Q := by
  have sized := hr.sized
  have short := bytes_short w
  have pos := bytes_pos w
  have small : 255 < 256 ^ w.bytes := by cases w <;> decide
  unfold setResultFlags
  rw [sized]
  refine emits_bind (emits_signOf hr (by omega) fun t₁ b₁ s₁ h₁ m₁ => ?_)
  have n₁ := m₁.taken
  refine emits_bind (emits_copy_bit (h₁ low) fun b₂ s₂ m₂ setSf => ?_)
  have n₂ := m₂.taken
  have hr₂ := (hr.later (m₁.weaken fun _ _ => trivial)).later (m₂.weaken fun o below => by
    unfold low at below
    unfold sf
    omega)
  refine emits_bind (emits_binary hr₂ (holds_constant low 0 short) compute_intEqual
    (z := (decide (r = 0)).toNat) ?_ (by omega) (by norm_num) fun t₃ b₃ s₃ h₃ m₃ => ?_)
  · rw [Nat.zero_mod, cut_bit]
    congr 1
  have n₃ := m₃.taken
  refine emits_bind (emits_copy_bit (h₃ low) fun b₄ s₄ m₄ setZf => ?_)
  have n₄ := m₄.taken
  have hr₄ := (hr₂.later (m₃.weaken fun _ _ => trivial)).later (m₄.weaken fun o below => by
    unfold low at below
    unfold zf
    omega)
  refine emits_bind (emits_binary hr₄ (holds_constant low 0xff short) compute_intAnd (z := r % 256) ?_
    (by omega) short fun t₅ b₅ s₅ h₅ m₅ => ?_)
  · rw [Nat.mod_eq_of_lt small, show 0xff = 2 ^ 8 - 1 from rfl, Nat.and_two_pow_sub_one_eq_mod]
    exact Nat.mod_eq_of_lt (lt_of_lt_of_le (Nat.mod_lt _ (by norm_num)) small)
  have n₅ := m₅.taken
  refine emits_bind (emits_unary (h₅ low) compute_popCount rfl (by omega) (by norm_num) fun t₆ b₆ s₆ h₆ m₆ => ?_)
  have n₆ := m₆.taken
  refine emits_bind (emits_binary (h₆ low) (holds_constant low 1 (by norm_num)) compute_intAnd (parity_eq r)
    (by omega) (by norm_num) fun t₇ b₇ s₇ h₇ m₇ => ?_)
  have n₇ := m₇.taken
  refine emits_bind (emits_binary (h₇ low) (holds_constant low 0 (by norm_num)) compute_intEqual
    (z := (evenParity r).toNat) ?_ (by omega) (by norm_num) fun t₈ b₈ s₈ h₈ m₈ => ?_)
  · cases evenParity r <;> rfl
  have n₈ := m₈.taken
  refine emits_copy_bit (h₈ low) fun b₉ s₉ m₉ setPf => ?_
  have pure_ := (((m₅.and_then m₆).and_then m₇).and_then m₈)
  have all := (((m₁.trans m₂).trans m₃).trans m₄).trans (pure_.trans m₉)
  refine go b₉ s₉ ?_ ?_ ?_ setPf
  · exact all.weaken fun o apart => by simp_all [everything]
  · rw [m₉.registers _ (by decide), pure_.registers _ trivial, m₄.registers _ (by decide), m₃.registers _ trivial, setSf]
    rfl
  · rw [m₉.registers _ (by decide), pure_.registers _ trivial, setZf]
    rfl

theorem adjust_bit (w : OperandWidth) {n : ℕ} : (n &&& 0x10 % 256 ^ w.bytes) = (n.testBit 4).toNat * 16 := by
  have sixteen : 0x10 % 256 ^ w.bytes = 2 ^ 4 := by cases w <;> rfl
  rw [sixteen, Nat.and_two_pow]
  rfl

theorem emits_setAdjustFlag {Q : Unit → Builder → Machine → Prop} (hx : Holds low b s vx w.bytes x)
    (hy : Holds low b s vy w.bytes y) (hr : Holds low b s vr w.bytes r) (room : b.nextTemp + 4 ≤ 64)
    (go : ∀ b' s', Moves (fun o => o ≠ af) 4 b s b' s' →
      s'.registers af = flagByte ((x ^^^ y ^^^ r).testBit 4) → Q () b' s') :
    Emits (setAdjustFlag vx vy vr) b s Q := by
  have short := bytes_short w
  have cut (n m : ℕ) (hn : n < 256 ^ w.bytes) (hm : m < 256 ^ w.bytes) : (n ^^^ m) % 256 ^ w.bytes = n ^^^ m := by
    have power : 256 ^ w.bytes = 2 ^ (8 * w.bytes) := by
      rw [pow_mul]
      norm_num
    rw [power] at hn hm ⊢
    exact Nat.mod_eq_of_lt (Nat.xor_lt_two_pow hn hm)
  unfold setAdjustFlag
  simp only [hr.sized]
  refine emits_bind (emits_binary hx hy compute_intXor (cut x y hx.lt hy.lt) (by omega) short fun t₁ b₁ s₁ h₁ m₁ => ?_)
  have n₁ := m₁.taken
  refine emits_bind (emits_binary (h₁ low) (hr.later (m₁.weaken fun _ _ => trivial)) compute_intXor
    (cut _ r (h₁ low).lt hr.lt) (by omega) short fun t₂ b₂ s₂ h₂ m₂ => ?_)
  have n₂ := m₂.taken
  refine emits_bind (emits_binary (h₂ low) (holds_constant low 0x10 short) compute_intAnd
    (z := ((x ^^^ y ^^^ r).testBit 4).toNat * 16) ?_ (by omega) short fun t₃ b₃ s₃ h₃ m₃ => ?_)
  · rw [adjust_bit]
    cases Nat.testBit (x ^^^ y ^^^ r) 4 <;> cases w <;> rfl
  have n₃ := m₃.taken
  refine emits_bind (emits_binary (h₃ low) (holds_constant low 0 short) compute_intNotEqual
    (z := ((x ^^^ y ^^^ r).testBit 4).toNat) ?_ (by omega) (by norm_num) fun t₄ b₄ s₄ h₄ m₄ => ?_)
  · rw [Nat.zero_mod]
    cases Nat.testBit (x ^^^ y ^^^ r) 4 <;> rfl
  refine emits_copy_bit (h₄ low) fun b₅ s₅ m₅ setAf => go b₅ s₅ ?_ setAf
  exact ((((m₁.and_then m₂).and_then m₃).and_then m₄).trans m₅).weaken fun o other => ⟨trivial, other⟩

theorem emits_setCarryFlags {carry overflow : Op} {c o : Bool} {Q : Unit → Builder → Machine → Prop}
    (hx : Holds low b s vx w.bytes x) (hy : Holds low b s vy w.bytes y)
    (carried : compute carry [(x, w.bytes), (y, w.bytes)] = .value c.toNat)
    (overflowed : compute overflow [(x, w.bytes), (y, w.bytes)] = .value o.toNat) (room : b.nextTemp + 2 ≤ 64)
    (go : ∀ b' s', Moves (fun a => a ≠ cf ∧ a ≠ of) 2 b s b' s' → s'.registers cf = flagByte c →
      s'.registers of = flagByte o → Q () b' s') :
    Emits (setCarryFlags carry overflow vx vy) b s Q := by
  unfold setCarryFlags
  refine emits_bind (emits_binary hx hy carried (cut_bit c) (by omega) (by norm_num) fun t₁ b₁ s₁ h₁ m₁ => ?_)
  have n₁ := m₁.taken
  refine emits_bind (emits_copy_bit (h₁ low) fun b₂ s₂ m₂ setCf => ?_)
  have n₂ := m₂.taken
  have kept : ∀ a, low a → a ≠ cf := fun a below => by
    unfold low at below
    omega
  have later (v : Varnode) (z : ℕ) (held : Holds low b s v w.bytes z) : Holds low b₂ s₂ v w.bytes z :=
    (held.later (m₁.weaken fun _ _ => trivial)).later (m₂.weaken kept)
  refine emits_bind (emits_binary (later vx x hx) (later vy y hy) overflowed (cut_bit o) (by omega) (by norm_num)
    fun t₃ b₃ s₃ h₃ m₃ => ?_)
  refine emits_copy_bit (h₃ low) fun b₄ s₄ m₄ setOf => go b₄ s₄ ?_ ?_ setOf
  · exact (((m₁.trans m₂).trans m₃).trans m₄).weaken fun a apart => ⟨⟨⟨trivial, apart.1⟩, trivial⟩, apart.2⟩
  · rw [m₄.registers _ (by decide), m₃.registers _ trivial, setCf]
    rfl

/-- The flags of an arithmetic instruction: carry, overflow and adjust, and those of
    the result. -/
def statusFlags (c o a : Bool) (w : OperandWidth) (r : ℕ) : Flag → Change
  | .cf => .set c
  | .of => .set o
  | .af => .set a
  | f => resultFlags w r f

theorem flagsSet_status {c o a : Bool} (setCf : s.registers cf = flagByte c) (setOf : s.registers of = flagByte o)
    (setAf : s.registers af = flagByte a) (setSf : s.registers sf = flagByte (decide (w.half ≤ r)))
    (setZf : s.registers zf = flagByte (decide (r = 0))) (setPf : s.registers pf = flagByte (evenParity r)) :
    FlagsSet s (statusFlags c o a w r) := by
  intro f c changed
  cases f <;> simp only [statusFlags, resultFlags, Change.set.injEq, reduceCtorEq] at changed <;> subst changed <;>
    assumption

/-- The registers an arithmetic instruction leaves alone, flag by flag. -/
theorem untouched_status {c o a : Bool} {n : ℕ} (apart : untouched (statusFlags c o a w r) n) :
    n ≠ cf ∧ n ≠ of ∧ n ≠ af ∧ n ≠ sf ∧ n ≠ zf ∧ n ≠ pf := by
  refine ⟨apart .cf ?_, apart .of ?_, apart .af ?_, apart .sf ?_, apart .zf ?_, apart .pf ?_⟩ <;>
    simp [statusFlags, resultFlags]

theorem emits_adjust_result {Q : Unit → Builder → Machine → Prop} {a : Bool} {after : Unit → Build Unit}
    (hx : Holds low b s vx w.bytes x) (hy : Holds low b s vy w.bytes y) (hr : Holds low b s vr w.bytes r)
    (adjusts : (x ^^^ y ^^^ r).testBit 4 = a) (room : b.nextTemp + 11 ≤ 64)
    (go : ∀ b' s', Moves (fun n => n ≠ af ∧ n ≠ sf ∧ n ≠ zf ∧ n ≠ pf) 11 b s b' s' →
      s'.registers af = flagByte a → s'.registers sf = flagByte (decide (w.half ≤ r)) →
      s'.registers zf = flagByte (decide (r = 0)) → s'.registers pf = flagByte (evenParity r) →
      Emits (after ()) b' s' Q) :
    Emits (setAdjustFlag vx vy vr >>= fun _ => setResultFlags vr >>= after) b s Q := by
  refine emits_bind (emits_setAdjustFlag hx hy hr (by omega) fun b₁ s₁ m₁ setAf => ?_)
  have n₁ := m₁.taken
  have hr₁ := hr.later (m₁.weaken fun n below => by
    unfold low at below
    unfold af
    omega)
  refine emits_bind (emits_setResultFlags hr₁ (by omega) fun b₂ s₂ m₂ setSf setZf setPf => ?_)
  refine go b₂ s₂ ?_ ?_ setSf setZf setPf
  · exact (m₁.trans m₂).weaken fun n apart => ⟨apart.1, apart.2⟩
  · rw [m₂.registers _ (by decide), setAf, adjusts]

theorem emits_allFlags {carry overflow : Op} {c o a : Bool} {Q : Unit → Builder → Machine → Prop}
    (hx : Holds low b s vx w.bytes x) (hy : Holds low b s vy w.bytes y) (hr : Holds low b s vr w.bytes r)
    (carried : compute carry [(x, w.bytes), (y, w.bytes)] = .value c.toNat)
    (overflowed : compute overflow [(x, w.bytes), (y, w.bytes)] = .value o.toNat)
    (adjusts : (x ^^^ y ^^^ r).testBit 4 = a) (room : b.nextTemp + 13 ≤ 64)
    (go : ∀ b' s', Moves (untouched (statusFlags c o a w r)) 13 b s b' s' → FlagsSet s' (statusFlags c o a w r) →
      Q () b' s') :
    Emits (setCarryFlags carry overflow vx vy >>= fun _ => setAdjustFlag vx vy vr >>= fun _ => setResultFlags vr)
      b s Q := by
  refine emits_bind (emits_setCarryFlags hx hy carried overflowed (by omega) fun b₁ s₁ m₁ setCf setOf => ?_)
  have n₁ := m₁.taken
  have later (v : Varnode) (z : ℕ) (held : Holds low b s v w.bytes z) : Holds low b₁ s₁ v w.bytes z :=
    held.later (m₁.weaken fun n below => by
      unfold low at below
      unfold of
      omega)
  rw [← bind_pure (setResultFlags vr)]
  refine emits_adjust_result (later vx x hx) (later vy y hy) (later vr r hr) adjusts (by omega)
    fun b₂ s₂ m₂ setAf setSf setZf setPf => emits_pure (go b₂ s₂ ?_ ?_)
  · refine (m₁.trans m₂).weaken fun n apart => ?_
    have parts := untouched_status apart
    exact ⟨⟨parts.1, parts.2.1⟩, parts.2.2⟩
  · refine flagsSet_status ?_ ?_ setAf setSf setZf setPf
    · rw [m₂.registers _ (by decide), setCf]
    · rw [m₂.registers _ (by decide), setOf]

/-! ### Sums and differences -/

theorem low_bits {x y z : ℕ} {p : Prop} [Decidable p] (carries : (x / 16 + y / 16 + z / 16) % 2 = 1 ↔ p) :
    (x ^^^ y ^^^ z).testBit 4 = decide p := by
  rw [Nat.testBit_xor, Nat.testBit_xor, Nat.testBit_eq_decide_div_mod_eq, Nat.testBit_eq_decide_div_mod_eq,
    Nat.testBit_eq_decide_div_mod_eq, Bool.eq_iff_iff, decide_eq_true_iff, ← carries]
  have hx := Nat.mod_two_eq_zero_or_one (x / 2 ^ 4)
  have hy := Nat.mod_two_eq_zero_or_one (y / 2 ^ 4)
  have hz := Nat.mod_two_eq_zero_or_one (z / 2 ^ 4)
  rcases hx with hx | hx <;> rcases hy with hy | hy <;> rcases hz with hz | hz <;>
    simp only [hx, hy, hz] <;> norm_num at hx hy hz ⊢ <;> omega

theorem adjust_sum (w : OperandWidth) {x y c : ℕ} (hx : x < w.modulus) (hy : y < w.modulus) (hc : c ≤ 1) :
    (x ^^^ y ^^^ sum w x y c).testBit 4 = decide (16 ≤ x % 16 + y % 16 + c) := by
  apply low_bits
  unfold sum OperandWidth.modulus at *
  cases w <;> simp only [OperandWidth.bytes] at * <;> omega

theorem adjust_difference (w : OperandWidth) {x y c : ℕ} (hx : x < w.modulus) (hy : y < w.modulus) (hc : c ≤ 1) :
    (x ^^^ y ^^^ difference w x y c).testBit 4 = decide (x % 16 < y % 16 + c) := by
  apply low_bits
  unfold difference OperandWidth.modulus at *
  cases w <;> simp only [OperandWidth.bytes] at * <;> omega

theorem cut_difference (w : OperandWidth) {x y : ℕ} (hx : x < w.modulus) (hy : y < w.modulus) :
    (x + 2 ^ 64 - y) % 2 ^ 64 % w.modulus = difference w x y 0 := by
  unfold difference OperandWidth.modulus at *
  cases w <;> simp only [OperandWidth.bytes] at * <;> omega

theorem sumFlags_eq (w : OperandWidth) (x y c : ℕ) :
    sumFlags w x y c = statusFlags (decide (w.modulus ≤ x + y + c)) (!fits w (signed w x + signed w y + c))
      (decide (16 ≤ x % 16 + y % 16 + c)) w (sum w x y c) := by
  funext f
  cases f <;> rfl

theorem differenceFlags_eq (w : OperandWidth) (x y c : ℕ) :
    differenceFlags w x y c = statusFlags (decide (x < y + c)) (!fits w (signed w x - signed w y - c))
      (decide (x % 16 < y % 16 + c)) w (difference w x y c) := by
  funext f
  cases f <;> rfl

theorem emits_setAddFlags {Q : Unit → Builder → Machine → Prop} (hx : Holds low b s vx w.bytes x)
    (hy : Holds low b s vy w.bytes y) (hr : Holds low b s vr w.bytes (sum w x y 0)) (room : b.nextTemp + 13 ≤ 64)
    (go : ∀ b' s', Moves (untouched (sumFlags w x y 0)) 13 b s b' s' → FlagsSet s' (sumFlags w x y 0) → Q () b' s') :
    Emits (setAddFlags vx vy vr) b s Q := by
  rw [sumFlags_eq] at go
  refine emits_allFlags hx hy hr (compute_carry w hx.lt hy.lt) ?_ (adjust_sum w hx.lt hy.lt (by norm_num)) room go
  simpa using compute_scarry w hx.lt hy.lt

theorem emits_setSubFlags {Q : Unit → Builder → Machine → Prop} (hx : Holds low b s vx w.bytes x)
    (hy : Holds low b s vy w.bytes y) (hr : Holds low b s vr w.bytes (difference w x y 0))
    (room : b.nextTemp + 13 ≤ 64)
    (go : ∀ b' s', Moves (untouched (differenceFlags w x y 0)) 13 b s b' s' → FlagsSet s' (differenceFlags w x y 0) →
      Q () b' s') :
    Emits (setSubFlags vx vy vr) b s Q := by
  rw [differenceFlags_eq] at go
  refine emits_allFlags hx hy hr compute_intLess ?_ (adjust_difference w hx.lt hy.lt (by norm_num)) room go
  simpa using compute_sborrow w hx.lt hy.lt

theorem emits_setLogicFlags {Q : Unit → Builder → Machine → Prop} (hr : Holds low b s vr w.bytes r)
    (room : b.nextTemp + 7 ≤ 64)
    (go : ∀ b' s', Moves (untouched (logicFlags w r)) 7 b s b' s' → FlagsSet s' (logicFlags w r) →
      (s'.registers af = flagByte false) → Q () b' s') :
    Emits (setLogicFlags vr) b s Q := by
  have zero (b : Builder) (s : Machine) : Holds low b s (Varnode.constant 0 1) 1 false.toNat :=
    holds_constant low 0 (by norm_num)
  unfold setLogicFlags
  refine emits_bind (emits_copy_bit (zero b s) fun b₁ s₁ m₁ setCf => ?_)
  refine emits_bind (emits_copy_bit (zero b₁ s₁) fun b₂ s₂ m₂ setOf => ?_)
  refine emits_bind (emits_copy_bit (zero b₂ s₂) fun b₃ s₃ m₃ setAf => ?_)
  have first := (m₁.trans m₂).trans m₃
  have n₃ := first.taken
  have hr₃ := hr.later (first.weaken fun n below => by
    unfold low at below
    unfold of af
    omega)
  refine emits_setResultFlags hr₃ (by omega) fun b₄ s₄ m₄ setSf setZf setPf => go b₄ s₄ ?_ ?_ ?_
  · refine (first.trans m₄).weaken fun n apart => ?_
    refine ⟨⟨⟨apart .cf ?_, apart .of ?_⟩, apart .af ?_⟩, apart .sf ?_, apart .zf ?_, apart .pf ?_⟩ <;>
      simp [logicFlags, resultFlags]
  · intro f c changed
    cases f <;> simp only [logicFlags, resultFlags, Change.set.injEq, reduceCtorEq] at changed <;> subst changed
    · show s₄.registers cf = _
      rw [m₄.registers _ (by decide), m₃.registers _ (by decide), m₂.registers _ (by decide), setCf]
      rfl
    · exact setPf
    · exact setZf
    · exact setSf
    · show s₄.registers of = _
      rw [m₄.registers _ (by decide), m₃.registers _ (by decide), setOf]
      rfl
  · rw [m₄.registers _ (by decide), setAf]
    rfl

theorem sum_overflow (w : OperandWidth) {x y c : ℕ} (hx : x < w.modulus) (hy : y < w.modulus) (hc : c ≤ 1) :
    ((decide (w.half ≤ x) == decide (w.half ≤ y)) &&
      (decide (w.half ≤ sum w x y c) != decide (w.half ≤ x))) = !fits w (signed w x + signed w y + c) := by
  have cut : x + y + c < w.modulus ∧ sum w x y c = x + y + c ∨
      w.modulus ≤ x + y + c ∧ sum w x y c + w.modulus = x + y + c := by
    unfold sum OperandWidth.modulus at *
    cases w <;> simp only [OperandWidth.bytes] at * <;> omega
  have double := modulus_eq w
  rw [Bool.eq_iff_iff]
  simp only [Bool.and_eq_true, beq_iff_eq, bne_iff_ne, decide_eq_decide, ne_eq, fits, Bool.not_eq_true',
    decide_eq_false_iff_not]
  unfold signed
  split_ifs <;> omega

theorem difference_overflow (w : OperandWidth) {x y c : ℕ} (hx : x < w.modulus) (hy : y < w.modulus) (hc : c ≤ 1) :
    ((!(decide (w.half ≤ x) == decide (w.half ≤ y))) &&
      (decide (w.half ≤ difference w x y c) != decide (w.half ≤ x))) = !fits w (signed w x - signed w y - c) := by
  have cut : y + c ≤ x ∧ difference w x y c = x - y - c ∨
      x < y + c ∧ difference w x y c + y + c = x + w.modulus := by
    unfold difference OperandWidth.modulus at *
    cases w <;> simp only [OperandWidth.bytes] at * <;> omega
  have double := modulus_eq w
  rw [Bool.eq_iff_iff]
  simp only [Bool.and_eq_true, beq_eq_false_iff_ne, bne_iff_ne, decide_eq_decide, ne_eq, fits, Bool.not_eq_true',
    decide_eq_false_iff_not]
  unfold signed
  split_ifs <;> omega

theorem emits_setSignedOverflow {sub o : Bool} {Q : Unit → Builder → Machine → Prop}
    (hx : Holds low b s vx w.bytes x) (hy : Holds low b s vy w.bytes y) (hr : Holds low b s vr w.bytes r)
    (overflows : ((if sub then !(decide (w.half ≤ x) == decide (w.half ≤ y))
      else decide (w.half ≤ x) == decide (w.half ≤ y)) && (decide (w.half ≤ r) != decide (w.half ≤ x))) = o)
    (room : b.nextTemp + 10 ≤ 64)
    (go : ∀ b' s', Moves (fun n => n ≠ of) 10 b s b' s' → s'.registers of = flagByte o → Q () b' s') :
    Emits (setSignedOverflow vx vy vr sub) b s Q := by
  unfold setSignedOverflow
  refine emits_bind (emits_signOf hx (by omega) fun t₁ b₁ s₁ h₁ m₁ => ?_)
  have n₁ := m₁.taken
  refine emits_bind (emits_signOf (hy.later (m₁.weaken fun _ _ => trivial)) (by omega) fun t₂ b₂ s₂ h₂ m₂ => ?_)
  have n₂ := m₂.taken
  have m₁₂ := m₁.and_then m₂
  refine emits_bind (emits_signOf (hr.later (m₁₂.weaken fun _ _ => trivial)) (by omega) fun t₃ b₃ s₃ h₃ m₃ => ?_)
  have n₃ := m₃.taken
  have sx := ((h₁ everything).later m₂).later m₃
  have sy := (h₂ everything).later m₃
  refine emits_bind (emits_binary sx sy compute_intEqual (z := (decide (w.half ≤ x) == decide (w.half ≤ y)).toNat) ?_
    (by omega) (by norm_num) fun t₄ b₄ s₄ h₄ m₄ => ?_)
  · rw [cut_bit]
    cases decide (w.half ≤ x) <;> cases decide (w.half ≤ y) <;> rfl
  have n₄ := m₄.taken
  refine emits_bind (emits_binary ((h₃ everything).later m₄) (sx.later m₄) compute_intNotEqual
    (z := (decide (w.half ≤ r) != decide (w.half ≤ x)).toNat) ?_ (by omega) (by norm_num) fun t₅ b₅ s₅ h₅ m₅ => ?_)
  · rw [cut_bit]
    cases decide (w.half ≤ r) <;> cases decide (w.half ≤ x) <;> rfl
  have n₅ := m₅.taken
  have all := ((m₁₂.and_then m₃).and_then m₄).and_then m₅
  -- What is left is the same for both once the agreement of the signs is known.
  have finish {b₆ : Builder} {s₆ : Machine} {t₆ : Varnode} {agree : Bool} (h₆ : Holds everything b₆ s₆ t₆ 1 agree.toNat)
      (h₅ : Holds everything b₆ s₆ t₅ 1 (decide (w.half ≤ r) != decide (w.half ≤ x)).toNat)
      (m₆ : Moves everything 1 b₅ s₅ b₆ s₆)
      (value : (agree && (decide (w.half ≤ r) != decide (w.half ≤ x))) = o) :
      Emits (eval .boolAnd 1 [t₆, t₅] >>= fun of => emit .copy (some flagOf) [of]) b₆ s₆ Q := by
    have n₆ := m₆.taken
    refine emits_bind (emits_binary h₆ h₅ compute_boolAnd (z := o.toNat) ?_ (by omega) (by norm_num)
      fun t₇ b₇ s₇ h₇ m₇ => ?_)
    · rw [bit_ne_zero, bit_ne_zero, cut_bit, value]
    refine emits_copy_bit (h₇ low) fun b₈ s₈ m₈ setOf => go b₈ s₈ ?_ setOf
    have whole := ((all.and_then m₆).and_then m₇).trans m₈
    refine { whole.weaken fun n other => ⟨trivial, other⟩ with taken := ?_ }
    have := whole.taken
    omega
  cases sub with
  | true =>
    refine emits_bind (emits_unary ((h₄ everything).later m₅) compute_boolNot
      (z := (!(decide (w.half ≤ x) == decide (w.half ≤ y))).toNat) ?_ (by omega) (by norm_num)
      fun t₆ b₆ s₆ h₆ m₆ => ?_)
    · cases decide (w.half ≤ x) == decide (w.half ≤ y) <;> rfl
    exact finish (h₆ _) ((h₅ _).later m₆) m₆ (by simpa using overflows)
  | false =>
    refine emits_bind (emits_pure ?_)
    refine finish ((h₄ everything).later m₅) (h₅ _) ?_ (by simpa using overflows)
    exact { Moves.refl with taken := Nat.le_succ _ }

end pieces

end E5r.X86Flags
