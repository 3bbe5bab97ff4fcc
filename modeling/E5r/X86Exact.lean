import E5r.LineText
import E5r.X86Operands

/-!
The lifting of x86 integer arithmetic is exact: the operations an instruction is
lifted to, run by the interpreter, take the machine where the architecture takes the
processor in it. This holds for every instruction whose memory operand, if it has one,
is an ordinary 64-bit address; the others are declined or, where the address is
computed in 32 bits, are lifted as if it were not.
-/
namespace E5r.X86Exact
open ArchModel IrModel IrBuilder X86Model X86Spec X86Flags X86Operands
open CfgModel (Flow)

/-! ### Conditions -/

def suffixes : Condition → List String
  | .o => ["o"]
  | .no => ["no"]
  | .b => ["b", "c", "nae"]
  | .ae => ["ae", "nb", "nc"]
  | .e => ["e", "z"]
  | .ne => ["ne", "nz"]
  | .be => ["be", "na"]
  | .a => ["a", "nbe"]
  | .s => ["s"]
  | .ns => ["ns"]
  | .p => ["p", "pe"]
  | .np => ["np", "po"]
  | .l => ["l", "nge"]
  | .ge => ["ge", "nl"]
  | .le => ["le", "ng"]
  | .g => ["g", "nle"]

def FlagsAre (s : Machine) (flag : Flag → Bool) : Prop := ∀ f, s.registers (offset f) = flagByte (flag f)

section conditions
variable {b : Builder} {s : Machine} {flag : Flag → Bool}

theorem holds_flag (flags : FlagsAre s flag) (f : Flag) :
    Holds everything b s (Varnode.register (offset f) 1) 1 (flag f).toNat := by
  have held : Holds everything b s (Varnode.register (offset f) 1) 1
      (LittleEndian.value (fun i => s.registers (offset f + i)) 1) :=
    holds_register everything _ (by norm_num) fun _ _ => trivial
  have byte : LittleEndian.value (fun i => s.registers (offset f + i)) 1 = (flag f).toNat := by
    rw [LittleEndian.value, LittleEndian.value, Nat.add_zero, flags f]
    cases flag f <;> rfl
  rwa [byte] at held

theorem inverse_bit (p : Bool) : (p.toNat == 0).toNat % 256 ^ 1 = (!p).toNat := by
  cases p <;> rfl

section bits
variable (p q : Bool)

theorem different_bits : (p.toNat != q.toNat).toNat % 256 ^ 1 = (p != q).toNat := by
  cases p <;> cases q <;> rfl

theorem equal_bits : (p.toNat == q.toNat).toNat % 256 ^ 1 = (p == q).toNat := by
  cases p <;> cases q <;> rfl

theorem either_bit : (p.toNat != 0 || q.toNat != 0).toNat % 256 ^ 1 = (p || q).toNat := by
  rw [bit_ne_zero, bit_ne_zero, cut_bit]

theorem both_bits : (p.toNat != 0 && q.toNat != 0).toNat % 256 ^ 1 = (p && q).toNat := by
  rw [bit_ne_zero, bit_ne_zero, cut_bit]

end bits

theorem emits_condition {c : Condition} {suffix : String} {Q : Varnode → Builder → Machine → Prop}
    (named : suffix ∈ suffixes c) (flags : FlagsAre s flag) (room : b.nextTemp + 3 ≤ 64)
    (go : ∀ t b' s', Holds everything b' s' t 1 (c.holds flag).toNat → Moves everything 3 b s b' s' → Q t b' s') :
    Emits (condition suffix) b s Q := by
  have flagHolds (b : Builder) (f : Flag) : Holds everything b s (Varnode.register (offset f) 1) 1 (flag f).toNat :=
    holds_flag flags f
  -- A flag as it stands.
  have plain (f : Flag) (same : flag f = c.holds flag) : Emits (pure (Varnode.register (offset f) 1)) b s Q :=
    emits_pure (go _ _ _ (by rw [← same]; exact flagHolds b f) { Moves.refl with taken := Nat.le_add_right _ _ })
  -- A flag negated.
  have negated (f : Flag) (same : (!flag f) = c.holds flag) :
      Emits (eval .boolNot 1 [Varnode.register (offset f) 1]) b s Q := by
    refine emits_unary (flagHolds b f) compute_boolNot (z := (c.holds flag).toNat) ?_ (by omega) (by norm_num)
      fun t b₁ s₁ h₁ m₁ => go t b₁ s₁ (h₁ _) { m₁ with taken := by have := m₁.taken; omega }
    rw [← same, inverse_bit]
  have inverted (f : Flag) (room : b.nextTemp < 64) {R : Varnode → Builder → Machine → Prop}
      (go : ∀ t b' s', (∀ kept, Holds kept b' s' t 1 (!flag f).toNat) → Moves everything 1 b s b' s' → R t b' s') :
      Emits (eval .boolNot 1 [Varnode.register (offset f) 1]) b s R :=
    emits_unary (flagHolds b f) compute_boolNot (inverse_bit _) room (by norm_num) go
  -- Two flags joined.
  have joined (op : Op) (f g : Flag) (r : ℕ)
      (computed : compute op [((flag f).toNat, 1), ((flag g).toNat, 1)] = .value r)
      (value : r % 256 ^ 1 = (c.holds flag).toNat) :
      Emits (eval op 1 [Varnode.register (offset f) 1, Varnode.register (offset g) 1]) b s Q :=
    emits_binary (flagHolds b f) (flagHolds b g) computed value (by omega) (by norm_num)
      fun t b₁ s₁ h₁ m₁ => go t b₁ s₁ (h₁ _) { m₁ with taken := by have := m₁.taken; omega }
  cases c <;> simp only [suffixes, List.mem_cons, List.not_mem_nil, or_false] at named
  case o => subst named; exact plain .of rfl
  case no => subst named; exact negated .of rfl
  case b => rcases named with rfl | rfl | rfl <;> exact plain .cf rfl
  case ae => rcases named with rfl | rfl | rfl <;> exact negated .cf rfl
  case e => rcases named with rfl | rfl <;> exact plain .zf rfl
  case ne => rcases named with rfl | rfl <;> exact negated .zf rfl
  case s => subst named; exact plain .sf rfl
  case ns => subst named; exact negated .sf rfl
  case p => rcases named with rfl | rfl <;> exact plain .pf rfl
  case np => rcases named with rfl | rfl <;> exact negated .pf rfl
  case be => rcases named with rfl | rfl <;> exact joined .boolOr .cf .zf _ compute_boolOr (either_bit _ _)
  case l => rcases named with rfl | rfl <;> exact joined .intNotEqual .sf .of _ compute_intNotEqual (different_bits _ _)
  case ge => rcases named with rfl | rfl <;> exact joined .intEqual .sf .of _ compute_intEqual (equal_bits _ _)
  case a =>
    have value := both_bits (!flag .cf) (!flag .zf)
    rw [← Bool.not_or] at value
    have chain : Emits (eval .boolNot 1 [flagCf] >>= fun ncf => eval .boolNot 1 [flagZf] >>= fun nzf =>
        eval .boolAnd 1 [ncf, nzf]) b s Q := by
      refine emits_bind (inverted .cf (by omega) fun t₁ b₁ s₁ h₁ m₁ => ?_)
      have n₁ := m₁.taken
      have zfLater := (flagHolds b .zf).later m₁
      refine emits_bind (emits_unary zfLater compute_boolNot (z := (!flag .zf).toNat) (inverse_bit _) (by omega)
        (by norm_num) fun t₂ b₂ s₂ h₂ m₂ => ?_)
      have n₂ := m₂.taken
      exact emits_binary ((h₁ everything).later m₂) (h₂ everything) compute_boolAnd value (by omega) (by norm_num)
        fun t₃ b₃ s₃ h₃ m₃ => go t₃ b₃ s₃ (h₃ _) ((m₁.and_then m₂).and_then m₃)
    rcases named with rfl | rfl <;> exact chain
  case le =>
    have chain : Emits (eval .intNotEqual 1 [flagSf, flagOf] >>= fun lt => eval .boolOr 1 [flagZf, lt]) b s Q := by
      refine emits_bind (emits_binary (flagHolds b .sf) (flagHolds b .of) compute_intNotEqual (different_bits _ _)
        (by omega) (by norm_num) fun t₁ b₁ s₁ h₁ m₁ => ?_)
      have n₁ := m₁.taken
      exact emits_binary ((flagHolds b .zf).later m₁) (h₁ everything) compute_boolOr (either_bit _ _) (by omega)
        (by norm_num) fun t₂ b₂ s₂ h₂ m₂ => go t₂ b₂ s₂ (h₂ _) { m₁.and_then m₂ with taken := by have := m₂.taken; omega }
    rcases named with rfl | rfl <;> exact chain
  case g =>
    have chain : Emits (eval .intEqual 1 [flagSf, flagOf] >>= fun ge => eval .boolNot 1 [flagZf] >>= fun nzf =>
        eval .boolAnd 1 [nzf, ge]) b s Q := by
      refine emits_bind (emits_binary (flagHolds b .sf) (flagHolds b .of) compute_intEqual (equal_bits _ _) (by omega)
        (by norm_num) fun t₁ b₁ s₁ h₁ m₁ => ?_)
      have n₁ := m₁.taken
      refine emits_bind (emits_unary ((flagHolds b .zf).later m₁) compute_boolNot (z := (!flag .zf).toNat)
        (inverse_bit _) (by omega) (by norm_num) fun t₂ b₂ s₂ h₂ m₂ => ?_)
      have n₂ := m₂.taken
      exact emits_binary (h₂ everything) ((h₁ everything).later m₂) compute_boolAnd (both_bits _ _) (by omega)
        (by norm_num) fun t₃ b₃ s₃ h₃ m₃ => go t₃ b₃ s₃ (h₃ _) ((m₁.and_then m₂).and_then m₃)
    rcases named with rfl | rfl <;> exact chain

/-- The choice between two values by a mask. -/
theorem emits_select {w : OperandWidth} {c : Bool} {vc vt vf : Varnode} {x y : ℕ} {Q : Varnode → Builder → Machine → Prop}
    (hc : Holds everything b s vc 1 c.toNat) (ht : Holds everything b s vt w.bytes x)
    (hf : Holds everything b s vf w.bytes y) (room : b.nextTemp + 6 ≤ 64)
    (go : ∀ t b' s', Holds everything b' s' t w.bytes (if c then x else y) → Moves everything 6 b s b' s' → Q t b' s') :
    Emits (select vc vt vf w.bytes) b s Q := by
  have short := bytes_short w
  have power := LittleEndian.power_two w.bytes
  have hx := ht.lt
  have hy := hf.lt
  -- The rest of the choice, once the condition has the width of the values.
  have rest {b₁ : Builder} {s₁ : Machine} {t₁ : Varnode} (h₁ : Holds everything b₁ s₁ t₁ w.bytes c.toNat)
      (m₁ : Moves everything 1 b s b₁ s₁) :
      Emits (eval .intNegate w.bytes [t₁] >>= fun mask => eval .intAnd w.bytes [vt, mask] >>= fun keep =>
        eval .intNot w.bytes [mask] >>= fun inverse => eval .intAnd w.bytes [vf, inverse] >>= fun drop =>
          eval .intOr w.bytes [keep, drop]) b₁ s₁ Q := by
    have n₁ := m₁.taken
    refine emits_bind (emits_unary h₁ compute_intNegate (z := if c then 256 ^ w.bytes - 1 else 0) ?_ (by omega) short
      fun t₂ b₂ s₂ h₂ m₂ => ?_)
    · cases c <;> cases w <;> rfl
    have n₂ := m₂.taken
    refine emits_bind (emits_binary ((ht.later m₁).later m₂) (h₂ everything) compute_intAnd (z := if c then x else 0) ?_
      (by omega) short fun t₃ b₃ s₃ h₃ m₃ => ?_)
    · cases c with
      | true =>
        rw [if_pos rfl, if_pos rfl, power, Nat.and_two_pow_sub_one_eq_mod, Nat.mod_mod, ← power, Nat.mod_eq_of_lt hx]
      | false => simp
    have n₃ := m₃.taken
    refine emits_bind (emits_unary ((h₂ everything).later m₃) compute_intNot (z := if c then 0 else 256 ^ w.bytes - 1) ?_
      (by omega) short fun t₄ b₄ s₄ h₄ m₄ => ?_)
    · cases c <;> cases w <;> rfl
    have n₄ := m₄.taken
    have m₁₄ := ((m₁.and_then m₂).and_then m₃).and_then m₄
    refine emits_bind (emits_binary (hf.later m₁₄) (h₄ everything) compute_intAnd (z := if c then 0 else y) ?_ (by omega)
      short fun t₅ b₅ s₅ h₅ m₅ => ?_)
    · cases c with
      | true => simp
      | false =>
        rw [if_neg (by decide), if_neg (by decide), power, Nat.and_two_pow_sub_one_eq_mod, Nat.mod_mod, ← power,
          Nat.mod_eq_of_lt hy]
    have n₅ := m₅.taken
    refine emits_binary (((h₃ everything).later m₄).later m₅) (h₅ everything) compute_intOr
      (z := if c then x else y) ?_ (by omega) short fun t₆ b₆ s₆ h₆ m₆ => go t₆ b₆ s₆ (h₆ _) ((m₁₄.and_then m₅).and_then m₆)
    cases c with
    | true => simpa using Nat.mod_eq_of_lt hx
    | false => simpa using Nat.mod_eq_of_lt hy
  unfold select
  by_cases one : w.bytes = 1
  · rw [if_pos one]
    exact emits_bind (emits_pure (rest (by rw [one]; exact hc) { Moves.refl with taken := Nat.le_succ _ }))
  · rw [if_neg one]
    refine emits_bind (emits_unary hc compute_intZExt (z := c.toNat) ?_ (by omega) short
      fun t₁ b₁ s₁ h₁ m₁ => rest (h₁ _) m₁)
    cases c <;> cases w <;> rfl

end conditions

/-! ### Instructions -/

/-- What an instruction leaves: the storage of a processor, its flags set, those it
    leaves undefined one bit each, and every other register above the general ones as
    it was. -/
structure Done (bases : Segment → ℕ) (s s' : Machine) (flags : Flag → Change) (p : Processor) : Prop where
  storage : SameStorage (processor bases s') p
  kept : ∀ o, 128 ≤ o → untouched flags o → s'.registers o = s.registers o
  set : FlagsSet s' flags
  undefined : ∀ f, flags f = .undefined → ∃ c, s'.registers (offset f) = flagByte c

theorem offset_above (f : Flag) : 128 ≤ offset f := by
  cases f <;> decide

theorem offset_injective {f g : Flag} (same : offset f = offset g) : f = g := by
  cases f <;> cases g <;> first | rfl | exact absurd same (by decide)

theorem untouched_same {flags : Flag → Change} {f : Flag} (same : flags f = .same) : untouched flags (offset f) := by
  intro g changed equal
  rw [← offset_injective equal] at changed
  exact changed same

section done
variable {bases : Segment → ℕ} {s s' : Machine} {flags : Flag → Change} {p : Processor}

theorem Done.allows (done : Done bases s s' flags p) (f : Flag) :
    (flags f).allows ((processor bases s).flag f) ((processor bases s').flag f) := by
  cases change : flags f with
  | same =>
    show (s'.registers (offset f) != 0) = (s.registers (offset f) != 0)
    rw [done.kept _ (offset_above f) (untouched_same change)]
  | set c =>
    show (s'.registers (offset f) != 0) = c
    rw [done.set f c change, flagByte_ne_zero]
  | undefined => trivial

theorem Done.bits (done : Done bases s s' flags p) (bits : FlagBits s) : FlagBits s' := by
  intro f
  cases change : flags f with
  | same => rw [done.kept _ (offset_above f) (untouched_same change), ← bits f]
  | set c => rw [done.set f c change, flagByte_ne_zero]
  | undefined =>
    obtain ⟨c, byte⟩ := done.undefined f change
    rw [byte, flagByte_ne_zero]

end done

section instructions
variable {bases : Segment → ℕ} {b : Builder} {s : Machine} {at_ : ℕ} {w : OperandWidth} {flags : Flag → Change}

theorem emits_result {b₁ : Builder} {s₁ : Machine} {k r : ℕ} {vr : Varnode} {dst : Place} {d : Operand}
    {rest : List Operand} (isDst : IsPlace w dst d) (plain : PlainPlace dst) (start : at_ < 2 ^ 64) (ptr : b.ptr = 8)
    (moved : Moves (untouched flags) k b s b₁ s₁) (room : b.nextTemp + k + 3 ≤ 64) (set : FlagsSet s₁ flags)
    (undefined : ∀ f, flags f = .undefined → ∃ c, s₁.registers (offset f) = flagByte c)
    (hr : Holds low b₁ s₁ vr w.bytes r) :
    Emits (given (d :: rest)[0]? >>= fun o => store o vr at_) b₁ s₁
      (fun _ _ s' => Done bases s s' flags ((processor bases s).write at_ w r dst)) := by
  have taken := moved.taken
  refine emits_bind (emits_given (o := (d :: rest)[0]?) rfl ?_)
  refine emits_store_place bases isDst plain start (by rw [moved.ptr, ptr]) (by omega)
    (hr.strengthen fun _ _ => trivial) fun b₂ s₂ stored above => ?_
  have same : SameStorage (processor bases s₁) (processor bases s) :=
    sameStorage_of_moves moved fun o below => low_untouched below
  refine ⟨stored.trans (same.write rfl at_ w r dst), fun o high apart => ?_, fun f c change => ?_, fun f change => ?_⟩
  · rw [above o high, moved.registers o apart]
  · rw [above _ (offset_above f), set f c change]
  · rw [above _ (offset_above f)]
    exact undefined f change

theorem statusFlags_defined {c o a : Bool} {r : ℕ} {f : Flag} : statusFlags c o a w r f ≠ .undefined := by
  cases f <;> simp [statusFlags, resultFlags]

section binary
variable {dst : Place} {src : Source} {d o : Operand}

/-- The flags of an instruction are set, and nothing else has changed. -/
structure Flagged (flags : Flag → Change) (k : ℕ) (b : Builder) (s : Machine) (b' : Builder) (s' : Machine) : Prop where
  moved : Moves (untouched flags) k b s b' s'
  set : FlagsSet s' flags
  undefined : ∀ f, flags f = .undefined → ∃ c, s'.registers (offset f) = flagByte c

theorem flagged_status {c o a : Bool} {r k : ℕ} {b' : Builder} {s' : Machine}
    (moved : Moves (untouched (statusFlags c o a w r)) k b s b' s') (set : FlagsSet s' (statusFlags c o a w r)) :
    Flagged (statusFlags c o a w r) k b s b' s' :=
  ⟨moved, set, fun _ change => absurd change statusFlags_defined⟩

section setting
variable {vx vy vr : Varnode} {x y r : ℕ}

theorem emits_addFlagged (hx : Holds low b s vx w.bytes x) (hy : Holds low b s vy w.bytes y)
    (hr : Holds low b s vr w.bytes (sum w x y 0)) (room : b.nextTemp + 13 ≤ 64) :
    Emits (setAddFlags vx vy vr) b s (fun _ b' s' => Flagged (sumFlags w x y 0) 13 b s b' s') :=
  emits_setAddFlags hx hy hr room fun _ _ moved set => by
    rw [sumFlags_eq] at *
    exact flagged_status moved set

theorem emits_subFlagged (hx : Holds low b s vx w.bytes x) (hy : Holds low b s vy w.bytes y)
    (hr : Holds low b s vr w.bytes (difference w x y 0)) (room : b.nextTemp + 13 ≤ 64) :
    Emits (setSubFlags vx vy vr) b s (fun _ b' s' => Flagged (differenceFlags w x y 0) 13 b s b' s') :=
  emits_setSubFlags hx hy hr room fun _ _ moved set => by
    rw [differenceFlags_eq] at *
    exact flagged_status moved set

theorem emits_logicFlagged (hr : Holds low b s vr w.bytes r) (room : b.nextTemp + 13 ≤ 64) :
    Emits (setLogicFlags vr) b s (fun _ b' s' => Flagged (logicFlags w r) 13 b s b' s') :=
  emits_setLogicFlags hr (by omega) fun b' s' moved set adjust => by
    refine ⟨{ moved with taken := by have := moved.taken; omega }, set, fun f change => ⟨false, ?_⟩⟩
    cases f <;> simp only [logicFlags, resultFlags, reduceCtorEq] at change
    exact adjust

end setting

theorem emits_end {b₁ : Builder} {s₁ : Machine} {k r : ℕ} {vr : Varnode} {name : String} {writes : Bool}
    (isDst : IsPlace w dst d) (plain : PlainPlace dst) (start : at_ < 2 ^ 64) (ptr : b.ptr = 8)
    (flagged : Flagged flags k b s b₁ s₁) (room : b.nextTemp + k + 3 ≤ 64)
    (hr : Holds low b₁ s₁ vr w.bytes r) (stores : (name ≠ "cmp" ∧ name ≠ "test") ↔ writes = true) :
    Emits (if name ≠ "cmp" ∧ name ≠ "test" then given [d, o][0]? >>= fun q => store q vr at_ else pure ()) b₁ s₁
      (fun _ _ s' => Done bases s s' flags (if writes then (processor bases s).write at_ w r dst else processor bases s)) := by
  cases writes with
  | true =>
    rw [if_pos (stores.mpr rfl)]
    exact emits_result isDst plain start ptr flagged.moved room flagged.set flagged.undefined hr
  | false =>
    rw [if_neg (fun both => absurd (stores.mp both) (by decide))]
    exact emits_pure ⟨sameStorage_of_moves flagged.moved fun n below => low_untouched below,
      fun n _ apart => flagged.moved.registers n apart, flagged.set, flagged.undefined⟩

theorem emits_form {op : Op} {setFlags : Varnode → Build Unit} {name : String} {vx vy : Varnode} {x y r z : ℕ}
    {b₁ : Builder} {s₁ : Machine} {writes : Bool}
    (isDst : IsPlace w dst d) (plain : PlainPlace dst) (start : at_ < 2 ^ 64) (ptr : b.ptr = 8)
    (hx : Holds low b₁ s₁ vx w.bytes x) (hy : Holds low b₁ s₁ vy w.bytes y) (moved : Moves everything 8 b s b₁ s₁)
    (room : b.nextTemp + 25 ≤ 64) (computed : compute op [(x, w.bytes), (y, w.bytes)] = .value r)
    (value : r % 256 ^ w.bytes = z) (stores : (name ≠ "cmp" ∧ name ≠ "test") ↔ writes = true)
    (sets : ∀ {vr b₂ s₂}, Holds low b₂ s₂ vx w.bytes x → Holds low b₂ s₂ vy w.bytes y →
      Holds low b₂ s₂ vr w.bytes z → b₂.nextTemp + 13 ≤ 64 →
      Emits (setFlags vr) b₂ s₂ (fun _ b₃ s₃ => Flagged flags 13 b₂ s₂ b₃ s₃)) :
    Emits (eval op w.bytes [vx, vy] >>= fun vr => setFlags vr >>= fun _ =>
      if name ≠ "cmp" ∧ name ≠ "test" then given [d, o][0]? >>= fun q => store q vr at_ else pure ()) b₁ s₁
      (fun _ _ s' => Done bases s s' flags (if writes then (processor bases s).write at_ w z dst else processor bases s)) := by
  have n₁ := moved.taken
  refine emits_bind (emits_binary hx hy computed value (by omega) (bytes_short w) fun vr b₂ s₂ hr m₂ => ?_)
  have n₂ := m₂.taken
  have toLow : ∀ n, low n → everything n := fun _ _ => trivial
  refine emits_bind (emits_mono (sets (hx.later (m₂.weaken toLow)) (hy.later (m₂.weaken toLow)) (hr low) (by omega))
    fun _ b₃ s₃ flagged => ?_)
  have all : Moves (untouched flags) (8 + 1 + 13) b s b₃ s₃ :=
    ((moved.and_then m₂).trans flagged.moved).weaken fun n apart => ⟨trivial, apart⟩
  exact emits_end isDst plain start ptr ⟨all, flagged.set, flagged.undefined⟩ (by omega)
    ((hr low).later (flagged.moved.weaken fun n below => low_untouched below)) stores

/-- The forms without a carry. -/
theorem emits_liftBinary (op : BinaryOp) {name : String} (c : Bool) (isDst : IsPlace w dst d) (isSrc : IsSource w src o)
    (plainDst : PlainPlace dst) (plainSrc : ∀ p, src = .place p → PlainPlace p) (start : at_ < 2 ^ 64)
    (ptr : b.ptr = 8) (room : b.nextTemp + 25 ≤ 64)
    (named : (name, op) ∈ [("add", BinaryOp.add), ("sub", .sub), ("cmp", .cmp), ("and", .and), ("test", .test),
      ("or", .or), ("xor", .xor)]) :
    Emits (liftBinary name [d, o] w.bytes at_) b s (fun _ _ s' =>
      let outcome := op.outcome w ((processor bases s).read at_ w dst) ((processor bases s).value at_ w src) c
      Done bases s s' outcome.2 (if op.writes then (processor bases s).write at_ w outcome.1 dst else processor bases s)) := by
  unfold liftBinary
  refine emits_bind (emits_two bases isDst isSrc plainDst plainSrc start ptr (by omega) fun vx vy b₁ s₁ hx hy m₁ => ?_)
  have lx := hx.lt
  have ly := hy.lt
  rw [LittleEndian.power_two] at lx ly
  have cut {n : ℕ} (small : n < 2 ^ (8 * w.bytes)) : n % 256 ^ w.bytes = n := by
    rw [LittleEndian.power_two]
    exact Nat.mod_eq_of_lt small
  simp only [List.mem_cons, Prod.mk.injEq, List.not_mem_nil, or_false] at named
  rcases named with ⟨rfl, rfl⟩ | ⟨rfl, rfl⟩ | ⟨rfl, rfl⟩ | ⟨rfl, rfl⟩ | ⟨rfl, rfl⟩ | ⟨rfl, rfl⟩ | ⟨rfl, rfl⟩
  · exact emits_form isDst plainDst start ptr hx hy m₁ room compute_intAdd (cut_sum w _) (by decide) emits_addFlagged
  · exact emits_form isDst plainDst start ptr hx hy m₁ room compute_intSub (cut_difference w hx.lt hy.lt) (by decide)
      emits_subFlagged
  · exact emits_form isDst plainDst start ptr hx hy m₁ room compute_intSub (cut_difference w hx.lt hy.lt) (by decide)
      emits_subFlagged
  · exact emits_form isDst plainDst start ptr hx hy m₁ room compute_intAnd (cut (Nat.and_lt_two_pow _ ly)) (by decide)
      fun _ _ => emits_logicFlagged
  · exact emits_form isDst plainDst start ptr hx hy m₁ room compute_intAnd (cut (Nat.and_lt_two_pow _ ly)) (by decide)
      fun _ _ => emits_logicFlagged
  · exact emits_form isDst plainDst start ptr hx hy m₁ room compute_intOr (cut (Nat.or_lt_two_pow lx ly)) (by decide)
      fun _ _ => emits_logicFlagged
  · exact emits_form isDst plainDst start ptr hx hy m₁ room compute_intXor (cut (Nat.xor_lt_two_pow lx ly)) (by decide)
      fun _ _ => emits_logicFlagged

theorem emits_twoSteps (sub : Bool) {op carry : Op} {vx vy : Varnode} {x y p r p' r' : ℕ} {c c₁ c₂ cOut oOut aOut : Bool}
    {b₁ : Builder} {s₁ : Machine}
    (isDst : IsPlace w dst d) (plain : PlainPlace dst) (start : at_ < 2 ^ 64) (ptr : b.ptr = 8)
    (hx : Holds low b₁ s₁ vx w.bytes x) (hy : Holds low b₁ s₁ vy w.bytes y)
    (hc : Holds everything b₁ s₁ flagCf 1 c.toNat) (moved : Moves everything 8 b s b₁ s₁) (room : b.nextTemp + 40 ≤ 64)
    (step₁ : compute op [(x, w.bytes), (y, w.bytes)] = .value p') (value₁ : p' % 256 ^ w.bytes = p)
    (step₂ : compute op [(p, w.bytes), (c.toNat, w.bytes)] = .value r') (value₂ : r' % 256 ^ w.bytes = r)
    (carry₁ : compute carry [(x, w.bytes), (y, w.bytes)] = .value c₁.toNat)
    (carry₂ : compute carry [(p, w.bytes), (c.toNat, w.bytes)] = .value c₂.toNat) (carries : (c₁ || c₂) = cOut)
    (overflows : ((if sub then !(decide (w.half ≤ x) == decide (w.half ≤ y))
      else decide (w.half ≤ x) == decide (w.half ≤ y)) && (decide (w.half ≤ r) != decide (w.half ≤ x))) = oOut)
    (adjusts : (x ^^^ y ^^^ r).testBit 4 = aOut) :
    Emits (eval .intZExt w.bytes [flagCf] >>= fun carryIn => eval op w.bytes [vx, vy] >>= fun first =>
      eval op w.bytes [first, carryIn] >>= fun result => eval carry 1 [vx, vy] >>= fun c1 =>
      eval carry 1 [first, carryIn] >>= fun c2 => eval .boolOr 1 [c1, c2] >>= fun cf =>
      emit .copy (some flagCf) [cf] >>= fun _ => setSignedOverflow vx vy result sub >>= fun _ =>
      setAdjustFlag vx vy result >>= fun _ => setResultFlags result >>= fun _ =>
      given [d, o][0]? >>= fun q => store q result at_) b₁ s₁
      (fun _ _ s' => Done bases s s' (statusFlags cOut oOut aOut w r) ((processor bases s).write at_ w r dst)) := by
  have short := bytes_short w
  have n₁ := moved.taken
  have toLow : ∀ n, low n → everything n := fun _ _ => trivial
  refine emits_bind (emits_unary hc compute_intZExt (z := c.toNat) ?_ (by omega) short fun t₂ b₂ s₂ h₂ m₂ => ?_)
  · cases c <;> cases w <;> rfl
  have n₂ := m₂.taken
  have hx₂ := hx.later (m₂.weaken toLow)
  have hy₂ := hy.later (m₂.weaken toLow)
  refine emits_bind (emits_binary hx₂ hy₂ step₁ value₁ (by omega) short fun t₃ b₃ s₃ h₃ m₃ => ?_)
  have n₃ := m₃.taken
  refine emits_bind (emits_binary (h₃ low) ((h₂ everything).later m₃) step₂ value₂ (by omega) short
    fun vr b₄ s₄ h₄ m₄ => ?_)
  have n₄ := m₄.taken
  have m₃₄ := m₃.and_then m₄
  have hx₄ := hx₂.later (m₃₄.weaken toLow)
  have hy₄ := hy₂.later (m₃₄.weaken toLow)
  refine emits_bind (emits_binary hx₄ hy₄ carry₁ (cut_bit c₁) (by omega) (by norm_num) fun t₅ b₅ s₅ h₅ m₅ => ?_)
  have n₅ := m₅.taken
  refine emits_bind (emits_binary (((h₃ everything).later m₄).later m₅) (((h₂ everything).later m₃₄).later m₅) carry₂
    (cut_bit c₂) (by omega) (by norm_num) fun t₆ b₆ s₆ h₆ m₆ => ?_)
  have n₆ := m₆.taken
  refine emits_bind (emits_binary ((h₅ everything).later m₆) (h₆ everything) compute_boolOr (z := cOut.toNat) ?_
    (by omega) (by norm_num) fun t₇ b₇ s₇ h₇ m₇ => ?_)
  · rw [bit_ne_zero, bit_ne_zero, cut_bit, carries]
  have n₇ := m₇.taken
  refine emits_bind (emits_copy_bit (h₇ low) fun b₈ s₈ m₈ setCf => ?_)
  have n₈ := m₈.taken
  have m₅₇ := (m₅.and_then m₆).and_then m₇
  have keepCf : ∀ n, low n → n ≠ cf := fun n below => by
    unfold low at below
    omega
  have later {v : Varnode} {z : ℕ} (held : Holds low b₄ s₄ v w.bytes z) : Holds low b₈ s₈ v w.bytes z :=
    (held.later (m₅₇.weaken toLow)).later (m₈.weaken keepCf)
  refine emits_bind (emits_setSignedOverflow (later hx₄) (later hy₄) (later (h₄ low)) overflows (by omega)
    fun b₉ s₉ m₉ setOf => ?_)
  have n₉ := m₉.taken
  have keepOf : ∀ n, low n → n ≠ of := fun n below => by
    unfold low at below
    unfold of
    omega
  refine emits_adjust_result ((later hx₄).later (m₉.weaken keepOf)) ((later hy₄).later (m₉.weaken keepOf))
    ((later (h₄ low)).later (m₉.weaken keepOf)) adjusts (by omega) fun b₀ s₀ m₀ setAf setSf setZf setPf => ?_
  have pure_ := ((moved.and_then m₂).and_then m₃₄).and_then m₅₇
  have all : Moves (untouched (statusFlags cOut oOut aOut w r)) 35 b s b₀ s₀ := by
    have whole := ((pure_.trans m₈).trans m₉).trans m₀
    refine { whole.weaken fun n apart => ?_ with taken := ?_ }
    · have parts := untouched_status apart
      exact ⟨⟨⟨trivial, parts.1⟩, parts.2.1⟩, parts.2.2⟩
    · have := whole.taken
      omega
  have keepAll : ∀ n, low n → n ≠ af ∧ n ≠ sf ∧ n ≠ zf ∧ n ≠ pf := fun n below => by
    unfold low at below
    unfold af sf zf pf
    omega
  have set : FlagsSet s₀ (statusFlags cOut oOut aOut w r) := by
    refine flagsSet_status ?_ ?_ setAf setSf setZf setPf
    · rw [m₀.registers _ (by decide), m₉.registers _ (by decide), setCf]
      rfl
    · rw [m₀.registers _ (by decide), setOf]
  exact emits_result isDst plain start ptr all (by omega) set (fun _ change => absurd change statusFlags_defined)
    (((later (h₄ low)).later (m₉.weaken keepOf)).later (m₀.weaken keepAll))

theorem bit_lt (w : OperandWidth) (c : Bool) : c.toNat < w.modulus := by
  cases c <;> cases w <;> decide

theorem sum_steps (w : OperandWidth) {x y : ℕ} {c : Bool} (hx : x < w.modulus) (hy : y < w.modulus) :
    (sum w x y 0 + c.toNat) % 2 ^ 64 % 256 ^ w.bytes = sum w x y c.toNat ∧
      (decide (w.modulus ≤ x + y) || decide (w.modulus ≤ sum w x y 0 + c.toNat)) =
        decide (w.modulus ≤ x + y + c.toNat) := by
  have one := Bool.toNat_le c
  rw [← Bool.decide_or, decide_eq_decide]
  unfold sum OperandWidth.modulus at *
  cases w <;> simp only [OperandWidth.bytes] at * <;> omega

theorem difference_steps (w : OperandWidth) {x y : ℕ} {c : Bool} (hx : x < w.modulus) (hy : y < w.modulus) :
    (difference w x y 0 + 2 ^ 64 - c.toNat) % 2 ^ 64 % 256 ^ w.bytes = difference w x y c.toNat ∧
      (decide (x < y) || decide (difference w x y 0 < c.toNat)) = decide (x < y + c.toNat) := by
  have one := Bool.toNat_le c
  rw [← Bool.decide_or, decide_eq_decide]
  unfold difference OperandWidth.modulus at *
  cases w <;> simp only [OperandWidth.bytes] at * <;> omega

theorem sum_lt (w : OperandWidth) (x y c : ℕ) : sum w x y c < w.modulus :=
  Nat.mod_lt _ (by cases w <;> decide)

/-- `adc` and `sbb`. -/
theorem emits_liftCarrying (op : BinaryOp) {name : String} (isDst : IsPlace w dst d) (isSrc : IsSource w src o)
    (plainDst : PlainPlace dst) (plainSrc : ∀ p, src = .place p → PlainPlace p) (start : at_ < 2 ^ 64)
    (ptr : b.ptr = 8) (room : b.nextTemp + 40 ≤ 64) (flags : FlagsAre s (processor bases s).flag)
    (named : (name, op) ∈ [("adc", BinaryOp.adc), ("sbb", .sbb)]) :
    Emits (liftCarrying name [d, o] w.bytes at_) b s (fun _ _ s' =>
      let outcome := op.outcome w ((processor bases s).read at_ w dst) ((processor bases s).value at_ w src)
        ((processor bases s).flag .cf)
      Done bases s s' outcome.2 ((processor bases s).write at_ w outcome.1 dst)) := by
  unfold liftCarrying
  refine emits_bind (emits_two bases isDst isSrc plainDst plainSrc start ptr (by omega) fun vx vy b₁ s₁ hx hy m₁ => ?_)
  have lx : _ < w.modulus := hx.lt
  have ly : _ < w.modulus := hy.lt
  have hc : Holds everything b₁ s₁ flagCf 1 ((processor bases s).flag .cf).toNat :=
    (holds_flag (b := b) flags .cf).later m₁
  have one := Bool.toNat_le ((processor bases s).flag .cf)
  simp only [List.mem_cons, Prod.mk.injEq, List.not_mem_nil, or_false] at named
  rcases named with ⟨rfl, rfl⟩ | ⟨rfl, rfl⟩
  · have steps := sum_steps w (c := (processor bases s).flag .cf) lx ly
    simp only [BinaryOp.outcome]
    rw [sumFlags_eq]
    exact emits_twoSteps false isDst plainDst start ptr hx hy hc m₁ room compute_intAdd
      (show _ = sum w _ _ 0 from cut_sum w _) compute_intAdd steps.1 (compute_carry w lx ly)
      (compute_carry w (sum_lt w _ _ _) (bit_lt w _)) steps.2 (by simpa using sum_overflow w lx ly one)
      (adjust_sum w lx ly one)
  · have steps := difference_steps w (c := (processor bases s).flag .cf) lx ly
    simp only [BinaryOp.outcome]
    rw [differenceFlags_eq]
    exact emits_twoSteps true isDst plainDst start ptr hx hy hc m₁ room compute_intSub (cut_difference w lx ly)
      compute_intSub steps.1 compute_intLess compute_intLess steps.2 (by simpa using difference_overflow w lx ly one)
      (adjust_difference w lx ly one)

end binary

section unary
variable {dst : Place} {d : Operand}

theorem untouched_exceptCarry {c o a : Bool} {r n : ℕ} (apart : untouched (exceptCarry (statusFlags c o a w r)) n) :
    n ≠ of ∧ n ≠ af ∧ n ≠ sf ∧ n ≠ zf ∧ n ≠ pf := by
  refine ⟨apart .of ?_, apart .af ?_, apart .sf ?_, apart .zf ?_, apart .pf ?_⟩ <;>
    simp [exceptCarry, statusFlags, resultFlags]

theorem flagsSet_exceptCarry {c o a : Bool} {r : ℕ} {s : Machine} (setOf : s.registers of = flagByte o)
    (setAf : s.registers af = flagByte a) (setSf : s.registers sf = flagByte (decide (w.half ≤ r)))
    (setZf : s.registers zf = flagByte (decide (r = 0))) (setPf : s.registers pf = flagByte (evenParity r)) :
    FlagsSet s (exceptCarry (statusFlags c o a w r)) := by
  intro f c changed
  cases f <;> simp only [exceptCarry, statusFlags, resultFlags, Change.set.injEq, reduceCtorEq] at changed <;>
    subst changed <;> assumption

/-- A form that adds or subtracts one. -/
theorem emits_oneStep {op overflow : Op} {vx : Varnode} {x r z : ℕ} {c oOut aOut : Bool} {b₁ : Builder} {s₁ : Machine}
    (isDst : IsPlace w dst d) (plain : PlainPlace dst) (start : at_ < 2 ^ 64) (ptr : b.ptr = 8)
    (hx : Holds low b₁ s₁ vx w.bytes x) (moved : Moves everything 4 b s b₁ s₁) (room : b.nextTemp + 21 ≤ 64)
    (computed : compute op [(x, w.bytes), (1, w.bytes)] = .value r) (value : r % 256 ^ w.bytes = z)
    (overflows : compute overflow [(x, w.bytes), (1, w.bytes)] = .value oOut.toNat)
    (adjusts : (x ^^^ 1 ^^^ z).testBit 4 = aOut) :
    Emits (eval op w.bytes [vx, Varnode.constant 1 w.bytes] >>= fun result =>
      eval overflow 1 [vx, Varnode.constant 1 w.bytes] >>= fun of => emit .copy (some flagOf) [of] >>= fun _ =>
      setAdjustFlag vx (Varnode.constant 1 w.bytes) result >>= fun _ => setResultFlags result >>= fun _ =>
      given [d][0]? >>= fun q => store q result at_) b₁ s₁
      (fun _ _ s' => Done bases s s' (exceptCarry (statusFlags c oOut aOut w z)) ((processor bases s).write at_ w z dst)) := by
  have short := bytes_short w
  have n₁ := moved.taken
  have toLow : ∀ n, low n → everything n := fun _ _ => trivial
  have one (b : Builder) (s : Machine) : Holds low b s (Varnode.constant 1 w.bytes) w.bytes 1 := by
    have held : Holds low b s (Varnode.constant 1 w.bytes) w.bytes (1 % 256 ^ w.bytes) := holds_constant low 1 short
    have cut : 1 % 256 ^ w.bytes = 1 := by cases w <;> rfl
    rwa [cut] at held
  refine emits_bind (emits_binary hx (one _ _) computed value (by omega) short fun vr b₂ s₂ h₂ m₂ => ?_)
  have n₂ := m₂.taken
  refine emits_bind (emits_binary (hx.later (m₂.weaken toLow)) (one _ _) overflows (cut_bit _) (by omega) (by norm_num)
    fun t₃ b₃ s₃ h₃ m₃ => ?_)
  have n₃ := m₃.taken
  refine emits_bind (emits_copy_bit (h₃ low) fun b₄ s₄ m₄ setOf => ?_)
  have n₄ := m₄.taken
  have keepOf : ∀ n, low n → n ≠ of := fun n below => by
    unfold low at below
    unfold of
    omega
  have hx₄ := ((hx.later (m₂.weaken toLow)).later (m₃.weaken toLow)).later (m₄.weaken keepOf)
  have hr₄ := ((h₂ low).later (m₃.weaken toLow)).later (m₄.weaken keepOf)
  refine emits_adjust_result hx₄ (one _ _) hr₄ adjusts (by omega) fun b₅ s₅ m₅ setAf setSf setZf setPf => ?_
  have all : Moves (untouched (exceptCarry (statusFlags c oOut aOut w z))) (4 + 1 + 1 + 0 + 11) b s b₅ s₅ :=
    ((((moved.and_then m₂).and_then m₃).trans m₄).trans m₅).weaken fun n apart => by
      have parts := untouched_exceptCarry apart
      exact ⟨⟨trivial, parts.1⟩, parts.2⟩
  have set : FlagsSet s₅ (exceptCarry (statusFlags c oOut aOut w z)) := by
    refine flagsSet_exceptCarry ?_ setAf setSf setZf setPf
    rw [m₅.registers _ (by decide), setOf]
    rfl
  refine emits_result isDst plain start ptr all (by omega) set (fun f change => ?_)
    (hr₄.later (m₅.weaken fun n below => ?_))
  · cases f <;> simp [exceptCarry, statusFlags, resultFlags] at change
  · unfold low at below
    unfold af sf zf pf
    omega

theorem one_lt (w : OperandWidth) : 1 < w.modulus := by
  cases w <;> decide

/-- `inc` and `dec`. -/
theorem emits_liftStepping (op : UnaryOp) {name : String} (isDst : IsPlace w dst d) (plain : PlainPlace dst)
    (start : at_ < 2 ^ 64) (ptr : b.ptr = 8) (room : b.nextTemp + 21 ≤ 64)
    (named : (name, op) ∈ [("inc", UnaryOp.inc), ("dec", .dec)]) :
    Emits (liftStepping name [d] w.bytes at_) b s (fun _ _ s' =>
      let outcome := op.outcome w ((processor bases s).read at_ w dst)
      Done bases s s' outcome.2 ((processor bases s).write at_ w outcome.1 dst)) := by
  unfold liftStepping
  refine emits_bind (emits_given (o := [d][0]?) rfl ?_)
  refine emits_bind (emits_source_place bases isDst plain start ptr (by omega) fun vx b₁ s₁ hx m₁ => ?_)
  have lx : _ < w.modulus := hx.lt
  simp only [List.mem_cons, Prod.mk.injEq, List.not_mem_nil, or_false] at named
  rcases named with ⟨rfl, rfl⟩ | ⟨rfl, rfl⟩
  · simp only [UnaryOp.outcome]
    rw [sumFlags_eq]
    exact emits_oneStep isDst plain start ptr hx m₁ room compute_intAdd (show _ = sum w _ _ 0 from cut_sum w _)
      (by simpa using compute_scarry w lx (one_lt w)) (adjust_sum w lx (one_lt w) (by norm_num))
  · simp only [UnaryOp.outcome]
    rw [differenceFlags_eq]
    exact emits_oneStep isDst plain start ptr hx m₁ room compute_intSub (cut_difference w lx (one_lt w))
      (by simpa using compute_sborrow w lx (one_lt w)) (adjust_difference w lx (one_lt w) (by norm_num))

theorem emits_liftNeg (isDst : IsPlace w dst d) (plain : PlainPlace dst) (start : at_ < 2 ^ 64) (ptr : b.ptr = 8)
    (room : b.nextTemp + 21 ≤ 64) :
    Emits (liftNeg [d] w.bytes at_) b s (fun _ _ s' =>
      let outcome := UnaryOp.neg.outcome w ((processor bases s).read at_ w dst)
      Done bases s s' outcome.2 ((processor bases s).write at_ w outcome.1 dst)) := by
  have short := bytes_short w
  have toLow : ∀ n, low n → everything n := fun _ _ => trivial
  unfold liftNeg
  refine emits_bind (emits_given (o := [d][0]?) rfl ?_)
  refine emits_bind (emits_source_place bases isDst plain start ptr (by omega) fun vx b₁ s₁ hx m₁ => ?_)
  have n₁ := m₁.taken
  have lx : _ < w.modulus := hx.lt
  have none : 0 < w.modulus := by cases w <;> decide
  have zero (b : Builder) (s : Machine) : Holds low b s (Varnode.constant 0 w.bytes) w.bytes 0 :=
    holds_constant low 0 short
  simp only [UnaryOp.outcome]
  rw [differenceFlags_eq]
  refine emits_bind (emits_unary hx compute_intNegate (z := difference w 0 ((processor bases s).read at_ w dst) 0) ?_
    (by omega) short fun vr b₂ s₂ h₂ m₂ => ?_)
  · have cut := cut_difference w none lx
    rwa [Nat.zero_add] at cut
  have n₂ := m₂.taken
  have hx₂ := hx.later (m₂.weaken toLow)
  refine emits_bind (emits_binary hx₂ (zero _ _) compute_intNotEqual
    (z := (decide (0 < (processor bases s).read at_ w dst + 0)).toNat) ?_ (by omega) (by norm_num)
    fun t₃ b₃ s₃ h₃ m₃ => ?_)
  · rw [cut_bit]
    congr 1
    rw [Bool.eq_iff_iff, bne_iff_ne, decide_eq_true_iff]
    omega
  have n₃ := m₃.taken
  refine emits_bind (emits_copy_bit (h₃ low) fun b₄ s₄ m₄ setCf => ?_)
  have n₄ := m₄.taken
  have keepCf : ∀ n, low n → n ≠ cf := fun n below => by
    unfold low at below
    omega
  have hx₄ := (hx₂.later (m₃.weaken toLow)).later (m₄.weaken keepCf)
  have overflows := compute_sborrow w (m := w.bytes) none lx
  refine emits_bind (emits_binary (zero _ _) hx₄ overflows (cut_bit _) (by omega) (by norm_num) fun t₅ b₅ s₅ h₅ m₅ => ?_)
  have n₅ := m₅.taken
  refine emits_bind (emits_copy_bit (h₅ low) fun b₆ s₆ m₆ setOf => ?_)
  have n₆ := m₆.taken
  have keepOf : ∀ n, low n → n ≠ of := fun n below => by
    unfold low at below
    unfold of
    omega
  have hx₆ := (hx₄.later (m₅.weaken toLow)).later (m₆.weaken keepOf)
  have hr₆ := ((((h₂ low).later (m₃.weaken toLow)).later (m₄.weaken keepCf)).later (m₅.weaken toLow)).later
    (m₆.weaken keepOf)
  refine emits_adjust_result (zero _ _) hx₆ hr₆ (adjust_difference w none lx (by norm_num)) (by omega)
    fun b₇ s₇ m₇ setAf setSf setZf setPf => ?_
  have whole := (((((m₁.and_then m₂).and_then m₃).trans m₄).trans m₅).trans m₆).trans m₇
  refine emits_result isDst plain start ptr (k := 18) ?_ (by omega) (flagsSet_status ?_ ?_ setAf setSf setZf setPf)
    (fun _ change => absurd change statusFlags_defined) (hr₆.later (m₇.weaken fun n below => ?_))
  · refine { whole.weaken fun n apart => ?_ with taken := whole.taken }
    have parts := untouched_status apart
    exact ⟨⟨⟨⟨trivial, parts.1⟩, trivial⟩, parts.2.1⟩, parts.2.2⟩
  · rw [m₇.registers _ (by decide), m₆.registers _ (by decide), m₅.registers _ trivial, setCf]
    rfl
  · rw [m₇.registers _ (by decide), setOf]
    simp [flagByte]
  · unfold low at below
    unfold af sf zf pf
    omega

/-- `not`, which writes no flags. -/
theorem emits_liftNot (isDst : IsPlace w dst d) (plain : PlainPlace dst) (start : at_ < 2 ^ 64) (ptr : b.ptr = 8)
    (room : b.nextTemp + 8 ≤ 64) :
    Emits (liftNot [d] w.bytes at_) b s (fun _ _ s' =>
      let outcome := UnaryOp.not.outcome w ((processor bases s).read at_ w dst)
      Done bases s s' outcome.2 ((processor bases s).write at_ w outcome.1 dst)) := by
  unfold liftNot
  refine emits_bind (emits_given (o := [d][0]?) rfl ?_)
  refine emits_bind (emits_source_place bases isDst plain start ptr (by omega) fun vx b₁ s₁ hx m₁ => ?_)
  have n₁ := m₁.taken
  have lx : _ < w.modulus := hx.lt
  refine emits_bind (emits_unary hx compute_intNot (z := w.modulus - 1 - (processor bases s).read at_ w dst) ?_
    (by omega) (bytes_short w) fun vr b₂ s₂ h₂ m₂ => ?_)
  · unfold OperandWidth.modulus at *
    cases w <;> simp only [OperandWidth.bytes] at * <;> omega
  refine emits_result isDst plain start ptr (k := 5) ((m₁.and_then m₂).weaken fun _ _ => trivial) (by omega)
    (fun f c change => ?_) (fun f change => ?_) (h₂ low)
  · simp [UnaryOp.outcome] at change
  · simp [UnaryOp.outcome] at change

end unary

/-! ### Conditional instructions -/

theorem emits_conditional {b₁ : Builder} {s₁ : Machine} {k r : ℕ} {vr : Varnode} {dst : Place} {d : Operand}
    {rest : List Operand} (isDst : IsPlace w dst d) (plain : PlainPlace dst) (start : at_ < 2 ^ 64) (ptr : b.ptr = 8)
    (moved : Moves everything k b s b₁ s₁) (room : b.nextTemp + k + 3 ≤ 64)
    (hr : Holds everything b₁ s₁ vr w.bytes r) :
    Emits (given (d :: rest)[0]? >>= fun o => store o vr at_) b₁ s₁
      (fun _ _ s' => Done bases s s' (fun _ => .same) ((processor bases s).write at_ w r dst)) := by
  have taken := moved.taken
  refine emits_bind (emits_given (o := (d :: rest)[0]?) rfl ?_)
  refine emits_store_place bases isDst plain start (by rw [moved.ptr, ptr]) (by omega) hr fun b₂ s₂ stored above => ?_
  have same : SameStorage (processor bases s₁) (processor bases s) := sameStorage_of_moves moved fun _ _ => trivial
  refine ⟨stored.trans (same.write rfl at_ w r dst), fun o high _ => ?_, fun f c change => ?_, fun f change => ?_⟩
  · rw [above o high, moved.registers o trivial]
  · exact absurd change (by simp)
  · exact absurd change (by simp)

theorem suffixes_plain {c : Condition} {name : String} (named : name ∈ suffixes c) :
    (!name.isEmpty && !name.toList.contains ' ') = true := by
  cases c <;> simp only [suffixes, List.mem_cons, List.not_mem_nil, or_false] at named <;>
    rcases named with rfl | rfl | rfl <;> decide

theorem suffix_of (start : String) {c : Condition} {name : String} (named : name ∈ suffixes c) :
    suffix (start ++ name) start = some name := by
  rw [suffix, String.toList_append, LineText.stripPrefix_append, Option.map_some, String.ofList_toList,
    Option.filter_some, if_pos (suffixes_plain named)]

/-- `setcc`. -/
theorem emits_liftSet {c : Condition} {name : String} {dst : Place} {d : Operand} (isDst : IsPlace .byte dst d)
    (plain : PlainPlace dst) (start : at_ < 2 ^ 64) (ptr : b.ptr = 8) (room : b.nextTemp + 6 ≤ 64)
    (flags : FlagsAre s (processor bases s).flag) (named : name ∈ suffixes c) :
    Emits (liftSet ("set" ++ name) [d] at_) b s (fun _ _ s' => Done bases s s' (fun _ => .same)
      ((processor bases s).write at_ .byte (c.holds (processor bases s).flag).toNat dst)) := by
  unfold liftSet
  refine emits_bind (emits_given (suffix_of _ named) ?_)
  refine emits_bind (emits_condition named flags (by omega) fun t b₁ s₁ h₁ m₁ => ?_)
  exact emits_conditional isDst plain start ptr m₁ (by omega) h₁

/-- `cmovcc`. -/
theorem emits_liftCmov {c : Condition} {name : String} {dst : Fin 16} {src : Place} {d o : Operand}
    (isDst : IsPlace w (.gpr dst) d) (isSrc : IsPlace w src o) (plain : PlainPlace src) (start : at_ < 2 ^ 64)
    (ptr : b.ptr = 8) (room : b.nextTemp + 20 ≤ 64) (flags : FlagsAre s (processor bases s).flag)
    (named : name ∈ suffixes c) :
    Emits (liftCmov ("cmov" ++ name) [d, o] w.bytes at_) b s (fun _ _ s' => Done bases s s' (fun _ => .same)
      ((processor bases s).write at_ w (if c.holds (processor bases s).flag then (processor bases s).read at_ w src
        else (processor bases s).read at_ w (.gpr dst)) (.gpr dst))) := by
  have plainDst : PlainPlace (.gpr dst) := fun a there => by simp [Place.addresses] at there
  have toAll : ∀ n, low n → everything n := fun _ _ => trivial
  unfold liftCmov
  refine emits_bind (emits_two bases isDst (show IsSource w (.place src) o from isSrc) plainDst
    (fun p same => by injection same with same; rwa [← same]) start ptr (by omega) fun vx vy b₁ s₁ hx hy m₁ => ?_)
  have n₁ := m₁.taken
  have flags₁ : FlagsAre s₁ (processor bases s).flag := fun f => by rw [m₁.registers _ trivial, flags f]
  refine emits_bind (emits_given (suffix_of _ named) ?_)
  refine emits_bind (emits_condition named flags₁ (by omega) fun t b₂ s₂ h₂ m₂ => ?_)
  have n₂ := m₂.taken
  refine emits_bind (emits_select h₂ ((hy.strengthen toAll).later m₂) ((hx.strengthen toAll).later m₂) (by omega)
    fun chosen b₃ s₃ h₃ m₃ => ?_)
  exact emits_conditional isDst plainDst start ptr ((m₁.and_then m₂).and_then m₃) (by omega) h₃

end instructions

/-! ### The lifter -/

def binaryName : BinaryOp → String
  | .add => "add"
  | .adc => "adc"
  | .sub => "sub"
  | .sbb => "sbb"
  | .cmp => "cmp"
  | .and => "and"
  | .or => "or"
  | .xor => "xor"
  | .test => "test"

def unaryName : UnaryOp → String
  | .inc => "inc"
  | .dec => "dec"
  | .neg => "neg"
  | .not => "not"

/-- The decoded instructions that stand for an instruction of the architecture. -/
def Decodes (i : Insn) : Instr → Prop
  | .binary op w dst src =>
    i.flow = .next ∧ i.mnemonic = binaryName op ∧ ∃ d o, i.operands = [d, o] ∧ IsPlace w dst d ∧ IsSource w src o
  | .unary op w dst => i.flow = .next ∧ i.mnemonic = unaryName op ∧ ∃ d, i.operands = [d] ∧ IsPlace w dst d
  | .set c dst =>
    i.flow = .next ∧ ∃ name ∈ suffixes c, i.mnemonic = "set" ++ name ∧ ∃ d, i.operands = [d] ∧ IsPlace .byte dst d
  | .cmov c w dst src =>
    i.flow = .next ∧ ∃ name ∈ suffixes c, i.mnemonic = "cmov" ++ name ∧
      ∃ d o, i.operands = [d, o] ∧ IsPlace w (.gpr dst) d ∧ IsPlace w src o
  | .jump c target => i.flow = .condBranch target ∧ ∃ name ∈ suffixes c, i.mnemonic = "j" ++ name

/-- Whether an instruction carries a prefix that repeats string operations. -/
def Repeated (i : Insn) : Prop := i.leading = some "rep" ∨ i.leading = some "repne" ∨ i.leading = some "repe"

instance (i : Insn) : Decidable (Repeated i) := by
  unfold Repeated
  infer_instance

/-- The lifted operations run through, and take the machine where the architecture
    takes the processor in it; the rest of the register file stays as it is. -/
def Lifts (others : Insn → ℕ → Lifted) (i : Insn) (instr : Instr) : Prop :=
  ∀ (bases : Segment → ℕ) (m : Machine), FlagBits m →
    (lift others i).complete = true ∧ ∃ m' branch,
      runOps m (lift others i).ops = (m', match branch with
        | some target => .jump target
        | none => .next) ∧
      Executes i.next (processor bases m) (processor bases m') branch instr ∧ FlagBits m' ∧
      ∀ o, 128 ≤ o → (∀ f, o ≠ offset f) → m'.registers o = m.registers o

section lifter
variable {others : Insn → ℕ → Lifted} {i : Insn} {w : OperandWidth}

theorem operandSize_place {place : Place} {d : Operand} {rest : List Operand} (is_ : IsPlace w place d) :
    operandSize (d :: rest) = some w.bytes := by
  cases place with
  | gpr n =>
    cases d with
    | reg r =>
      have r_eq : r = ⟨.gpr, n, registerWidth w⟩ := is_
      rw [r_eq, operandSize, widthBytes_registerWidth]
    | _ => exact is_.elim
  | high n =>
    cases d with
    | reg r =>
      obtain ⟨byte, r_eq⟩ : w = .byte ∧ r = ⟨.gprHigh, n, .w8⟩ := is_
      rw [r_eq, byte]
      rfl
    | _ => exact is_.elim
  | mem a =>
    cases d with
    | mem m =>
      obtain ⟨size, _⟩ : m.size = w.bytes ∧ IsAddress a m := is_
      rw [operandSize, size, if_pos (bytes_pos w)]
      cases w <;> rfl
    | _ => exact is_.elim

/-- The operands that instructions of the architecture are decoded to. -/
def Ordinary (o : Operand) : Prop := ∀ r, o = .reg r → r.class ≠ .vec

theorem place_ordinary {place : Place} {d : Operand} (is_ : IsPlace w place d) : Ordinary d := by
  intro r register
  subst register
  cases place with
  | gpr n =>
    have r_eq : r = ⟨.gpr, n, registerWidth w⟩ := is_
    rw [r_eq]
    exact RegClass.noConfusion
  | high n =>
    obtain ⟨_, r_eq⟩ : w = .byte ∧ r = ⟨.gprHigh, n, .w8⟩ := is_
    rw [r_eq]
    exact RegClass.noConfusion
  | mem a => exact is_.elim

theorem source_ordinary {src : Source} {o : Operand} (is_ : IsSource w src o) : Ordinary o := by
  cases src with
  | place p => exact place_ordinary is_
  | imm v =>
    intro r register
    subst register
    exact is_.elim

/-- Such an instruction does not go to the vector lifter. -/
theorem handles_ordinary (ordinary : ∀ o ∈ i.operands, Ordinary o) (integer : startsWith i.mnemonic "cvt" = false) :
    handles i = false := by
  unfold handles
  rw [integer, Bool.or_false, List.any_eq_false]
  intro o inside
  cases o with
  | reg r => simpa using ordinary _ inside r rfl
  | _ => simp

theorem lifts_of_done (body : Build Unit) {instr : Instr} (lifts : lift others i = lifted body (Builder.sized i.addr 8))
    (done : ∀ bases m, FlagBits m → ∃ flags p, Emits body (Builder.sized i.addr 8) m (fun _ _ s' => Done bases m s' flags p) ∧
      ∀ s', Done bases m s' flags p → Executes i.next (processor bases m) (processor bases s') none instr) :
    Lifts others i instr := by
  intro bases m bits
  obtain ⟨flags, p, emitted, executes⟩ := done bases m bits
  obtain ⟨complete, b', s', ran, left⟩ := lifted_of_emits emitted
  rw [lifts]
  refine ⟨complete, s', none, ran, executes s' left, left.bits bits, fun o above apart => ?_⟩
  exact left.kept o above fun f _ => apart f

theorem next_lt (i : Insn) : i.next < 2 ^ 64 := Nat.mod_lt _ (by norm_num)

/-- An instruction without a branch goes to the arm of its mnemonic. -/
theorem lift_next (once : ¬Repeated i) (next : i.flow = .next) (ordinary : ∀ o ∈ i.operands, Ordinary o)
    (integer : startsWith i.mnemonic "cvt" = false) : lift others i = liftArm others i 8 := by
  unfold Repeated at once
  unfold lift liftSized
  dsimp only
  rw [if_neg once, next]
  dsimp only
  rw [handles_ordinary ordinary integer]
  rfl

theorem lifts_binary {op : BinaryOp} {dst : Place} {src : Source} (decoded : Decodes i (.binary op w dst src))
    (plain : ∀ a ∈ (Instr.binary op w dst src).addresses, Plain a) (once : ¬Repeated i) :
    Lifts others i (.binary op w dst src) := by
  obtain ⟨next, named, d, o, operands, isDst, isSrc⟩ := decoded
  have plainDst : PlainPlace dst := fun a there => plain a (by
    cases src <;> simp [Instr.addresses, Option.mem_def.mp there])
  have plainSrc : ∀ p, src = .place p → PlainPlace p := fun p same a there => plain a (by
    subst same
    simp [Instr.addresses, Option.mem_def.mp there])
  have ordinary : ∀ q ∈ i.operands, Ordinary q := by
    rw [operands]
    intro q inside
    simp only [List.mem_cons, List.not_mem_nil, or_false] at inside
    rcases inside with rfl | rfl
    · exact place_ordinary isDst
    · exact source_ordinary isSrc
  have size : (operandSize i.operands).getD 8 = w.bytes := by
    rw [operands, operandSize_place isDst]
    rfl
  have arm := @lift_next others _ once next ordinary (by rw [named]; cases op <;> decide)
  by_cases carrying : op = .adc ∨ op = .sbb
  · refine lifts_of_done (liftCarrying (binaryName op) [d, o] w.bytes i.next) ?_ fun bases m bits => ?_
    · rw [arm, liftArm, size, operands, named]
      rcases carrying with rfl | rfl <;> rfl
    · refine ⟨_, _, emits_liftCarrying op isDst isSrc plainDst plainSrc (next_lt i) rfl (by norm_num [Builder.sized])
        bits (by rcases carrying with rfl | rfl <;> simp [binaryName]), fun s' done => ⟨?_, done.allows, rfl⟩⟩
      rcases carrying with rfl | rfl <;> exact done.storage
  · refine lifts_of_done (liftBinary (binaryName op) [d, o] w.bytes i.next) ?_ fun bases m bits => ?_
    · rw [arm, liftArm, size, operands, named]
      cases op <;> first | rfl | exact absurd (Or.inl rfl) carrying | exact absurd (Or.inr rfl) carrying
    · exact ⟨_, _, emits_liftBinary op ((processor bases m).flag .cf) isDst isSrc plainDst plainSrc (next_lt i) rfl
        (by norm_num [Builder.sized]) (by cases op <;> simp_all [binaryName]),
        fun s' done => ⟨done.storage, done.allows, rfl⟩⟩

theorem lifts_unary {op : UnaryOp} {dst : Place} (decoded : Decodes i (.unary op w dst))
    (plain : ∀ a ∈ (Instr.unary op w dst).addresses, Plain a) (once : ¬Repeated i) : Lifts others i (.unary op w dst) := by
  obtain ⟨next, named, d, operands, isDst⟩ := decoded
  have plainDst : PlainPlace dst := fun a there => plain a (by simp [Instr.addresses, Option.mem_def.mp there])
  have ordinary : ∀ q ∈ i.operands, Ordinary q := by
    rw [operands]
    intro q inside
    simp only [List.mem_cons, List.not_mem_nil, or_false] at inside
    rw [inside]
    exact place_ordinary isDst
  have size : (operandSize i.operands).getD 8 = w.bytes := by
    rw [operands, operandSize_place isDst]
    rfl
  have arm := @lift_next others _ once next ordinary (by rw [named]; cases op <;> decide)
  by_cases stepping : op = .inc ∨ op = .dec
  · refine lifts_of_done (liftStepping (unaryName op) [d] w.bytes i.next) ?_ fun bases m bits =>
      ⟨_, _, emits_liftStepping op isDst plainDst (next_lt i) rfl (by norm_num [Builder.sized])
        (by rcases stepping with rfl | rfl <;> simp [unaryName]), fun s' done => ⟨done.storage, done.allows, rfl⟩⟩
    rw [arm, liftArm, size, operands, named]
    rcases stepping with rfl | rfl <;> rfl
  cases op with
  | inc | dec => simp at stepping
  | neg =>
    refine lifts_of_done (liftNeg [d] w.bytes i.next) ?_ fun bases m bits =>
      ⟨_, _, emits_liftNeg isDst plainDst (next_lt i) rfl (by norm_num [Builder.sized]),
        fun s' done => ⟨done.storage, done.allows, rfl⟩⟩
    rw [arm, liftArm, size, operands, named]
    rfl
  | not =>
    refine lifts_of_done (liftNot [d] w.bytes i.next) ?_ fun bases m bits =>
      ⟨_, _, emits_liftNot isDst plainDst (next_lt i) rfl (by norm_num [Builder.sized]),
        fun s' done => ⟨done.storage, done.allows, rfl⟩⟩
    rw [arm, liftArm, size, operands, named]
    rfl

theorem Done.flags {bases : Segment → ℕ} {s s' : Machine} {p : Processor} (done : Done bases s s' (fun _ => .same) p) :
    (processor bases s').flag = (processor bases s).flag :=
  funext fun f => done.allows f

def namedArms : List String :=
  ["add", "sub", "and", "or", "xor", "cmp", "test", "adc", "sbb", "inc", "dec", "neg", "not"]

theorem namedArms_other : ∀ arm ∈ namedArms ++ otherArms,
    startsWith arm "set" = false ∧ startsWith arm "cmov" = false := by
  decide +kernel

theorem liftArm_prefixed (plain : i.mnemonic ∉ namedArms ++ otherArms) : liftArm others i 8 =
    if startsWith i.mnemonic "set" then lifted (liftSet i.mnemonic i.operands i.next) (Builder.sized i.addr 8)
    else if startsWith i.mnemonic "cmov" then
      lifted (liftCmov i.mnemonic i.operands ((operandSize i.operands).getD 8) i.next) (Builder.sized i.addr 8)
    else (Builder.sized i.addr 8).unimplemented := by
  rw [List.mem_append, not_or] at plain
  obtain ⟨arms, other⟩ := plain
  simp only [namedArms, List.mem_cons, List.not_mem_nil, or_false, not_or] at arms
  unfold liftArm
  split
  all_goals first | (simp_all; done) | rw [if_neg other]

theorem startsWith_append (start name : String) : startsWith (start ++ name) start = true := by
  rw [startsWith, String.toList_append, LineText.stripPrefix_append]
  rfl

theorem startsWith_other {start other name : String}
    (apart : ¬ other.toList <+: start.toList ∧ ¬ start.toList <+: other.toList) : startsWith (start ++ name) other = false := by
  rw [startsWith, String.toList_append, RustText.stripPrefix]
  split
  · next begins =>
    have either := List.prefix_or_prefix_of_prefix (List.isPrefixOf_iff_prefix.mp begins) (List.prefix_append _ _)
    exact absurd either (not_or.mpr apart)
  · rfl

theorem liftArm_conditional {start name : String} {c : Condition} (among : start ∈ ["set", "cmov"])
    (named : name ∈ suffixes c) (mnemonic : i.mnemonic = start ++ name) :
    startsWith i.mnemonic "cvt" = false ∧ liftArm others i 8 =
      if start = "set" then lifted (liftSet (start ++ name) i.operands i.next) (Builder.sized i.addr 8)
      else lifted (liftCmov (start ++ name) i.operands ((operandSize i.operands).getD 8) i.next) (Builder.sized i.addr 8) := by
  have starts := startsWith_append start name
  simp only [List.mem_cons, List.not_mem_nil, or_false] at among
  have plain : i.mnemonic ∉ namedArms ++ otherArms := fun inside => by
    have other := namedArms_other _ inside
    rw [mnemonic] at other
    rcases among with rfl | rfl
    · exact absurd starts (by simp [other.1])
    · exact absurd starts (by simp [other.2])
  rw [liftArm_prefixed plain, mnemonic]
  rcases among with rfl | rfl
  · exact ⟨startsWith_other (by decide), by rw [if_pos starts, if_pos rfl]⟩
  · have notSet : startsWith ("cmov" ++ name) "set" = false := startsWith_other (by decide)
    refine ⟨startsWith_other (by decide), ?_⟩
    rw [if_neg (by rw [notSet]; decide), if_pos starts, if_neg (by decide)]

theorem lifts_set {c : Condition} {dst : Place} (decoded : Decodes i (.set c dst))
    (plain : ∀ a ∈ (Instr.set c dst).addresses, Plain a) (once : ¬Repeated i) : Lifts others i (.set c dst) := by
  obtain ⟨next, name, named, mnemonic, d, operands, isDst⟩ := decoded
  have plainDst : PlainPlace dst := fun a there => plain a (by simp [Instr.addresses, Option.mem_def.mp there])
  have ordinary : ∀ q ∈ i.operands, Ordinary q := by
    rw [operands]
    intro q inside
    simp only [List.mem_cons, List.not_mem_nil, or_false] at inside
    rw [inside]
    exact place_ordinary isDst
  obtain ⟨integer, arm⟩ := @liftArm_conditional others i "set" _ _ (by simp) named mnemonic
  refine lifts_of_done (liftSet ("set" ++ name) [d] i.next) ?_ fun bases m bits =>
    ⟨_, _, emits_liftSet isDst plainDst (next_lt i) rfl (by norm_num [Builder.sized]) bits named,
      fun s' done => ⟨done.storage, done.flags, rfl⟩⟩
  rw [lift_next once next ordinary integer, arm, if_pos rfl, operands]

theorem lifts_cmov {c : Condition} {dst : Fin 16} {src : Place} (decoded : Decodes i (.cmov c w dst src))
    (plain : ∀ a ∈ (Instr.cmov c w dst src).addresses, Plain a) (once : ¬Repeated i) :
    Lifts others i (.cmov c w dst src) := by
  obtain ⟨next, name, named, mnemonic, d, o, operands, isDst, isSrc⟩ := decoded
  have plainSrc : PlainPlace src := fun a there => plain a (by simp [Instr.addresses, Option.mem_def.mp there])
  have ordinary : ∀ q ∈ i.operands, Ordinary q := by
    rw [operands]
    intro q inside
    simp only [List.mem_cons, List.not_mem_nil, or_false] at inside
    rcases inside with rfl | rfl
    · exact place_ordinary isDst
    · exact place_ordinary isSrc
  obtain ⟨integer, arm⟩ := @liftArm_conditional others i "cmov" _ _ (by simp) named mnemonic
  refine lifts_of_done (liftCmov ("cmov" ++ name) [d, o] w.bytes i.next) ?_ fun bases m bits =>
    ⟨_, _, emits_liftCmov isDst isSrc plainSrc (next_lt i) rfl (by norm_num [Builder.sized]) bits named,
      fun s' done => ⟨done.storage, done.flags, rfl⟩⟩
  rw [lift_next once next ordinary integer, arm, if_neg (by decide), operands, operandSize_place isDst]
  rfl

theorem lifts_jump {c : Condition} {target : ℕ} (decoded : Decodes i (.jump c target)) (once : ¬Repeated i) :
    Lifts others i (.jump c target) := by
  obtain ⟨flow, name, named, mnemonic⟩ := decoded
  have arm : lift others i = lifted (liftJump ("j" ++ name) target) (Builder.sized i.addr 8) := by
    unfold Repeated at once
    unfold lift liftSized
    dsimp only
    rw [if_neg once, flow, mnemonic]
  intro bases m bits
  have flags : FlagsAre m (processor bases m).flag := bits
  obtain ⟨t, b', added, s', built, appended, ran, held, moved⟩ : Emits (condition name) (Builder.sized i.addr 8) m
      (fun t b' s' => Holds everything b' s' t 1 (c.holds (processor bases m).flag).toNat ∧
        Moves everything 3 (Builder.sized i.addr 8) m b' s') :=
    emits_condition named flags (by norm_num [Builder.sized]) fun t b' s' held moved => ⟨held, moved⟩
  have whole : lifted (liftJump ("j" ++ name) target) (Builder.sized i.addr 8) =
      ⟨added ++ [⟨.cbranch, none, [Varnode.constant target b'.ptr, t], b'.addr⟩], true⟩ := by
    have run : liftJump ("j" ++ name) target (Builder.sized i.addr 8) =
        (some (), { b' with ops := b'.ops ++ [⟨.cbranch, none, [Varnode.constant target b'.ptr, t], b'.addr⟩] }) := by
      unfold liftJump
      rw [suffix_of _ named]
      show (OptionT.bind (condition name) _) (Builder.sized i.addr 8) = _
      simp only [OptionT.bind, OptionT.mk, bind, StateT.bind, built]
      rfl
    have all : b'.ops = added := appended
    simp only [lifted, run, Builder.finish, all]
  have registers : s'.registers = m.registers := funext fun o => moved.registers o trivial
  have same : SameStorage (processor bases s') (processor bases m) := sameStorage_of_moves moved fun _ _ => trivial
  rw [arm, whole]
  refine ⟨rfl, s', if c.holds (processor bases m).flag then some target else none, ?_, ⟨same, ?_, rfl⟩, ?_, ?_⟩
  · rw [runOps_append _ ran]
    have cond := held.reads
    cases taken : c.holds (processor bases m).flag with
    | true =>
      rw [taken] at cond
      simp [runOps, step, cond, Varnode.value, Varnode.constant, Varnode.isConst]
    | false =>
      rw [taken] at cond
      simp [runOps, step, cond]
  · funext f
    show (s'.registers (offset f) != 0) = _
    rw [registers]
    rfl
  · intro f
    rw [registers]
    exact bits f
  · exact fun o _ _ => by rw [registers]

/-- Lifting is exact for every instruction that is not repeated and whose memory
    operand, if any, is an ordinary 64-bit address. -/
theorem lift_exact {instr : Instr} (decoded : Decodes i instr) (plain : ∀ a ∈ instr.addresses, Plain a)
    (once : ¬Repeated i) : Lifts others i instr := by
  cases instr with
  | binary op w dst src => exact lifts_binary decoded plain once
  | unary op w dst => exact lifts_unary decoded plain once
  | set c dst => exact lifts_set decoded plain once
  | cmov c w dst src => exact lifts_cmov decoded plain once
  | jump c target => exact lifts_jump decoded once

end lifter

def addRegisters : Insn :=
  ⟨0x1000, 2, "add", .next, none, [.reg ⟨.gpr, 0, .w32⟩, .reg ⟨.gpr, 3, .w32⟩]⟩

theorem lift_exact_registers :
    Lifts (fun _ _ => ⟨[], false⟩) addRegisters (.binary .add .dword (.gpr 0) (.place (.gpr 3))) :=
  lift_exact ⟨rfl, rfl, _, _, rfl, rfl, rfl⟩ (by simp [Instr.addresses, Place.addresses])
    (by simp [Repeated, addRegisters])

/-- `add eax, fs:[rbx]`. -/
def addSegment : Insn :=
  ⟨0x1000, 3, "add", .next, none,
    [.reg ⟨.gpr, 0, .w32⟩, .mem ⟨some ⟨.seg, 4, .w16⟩, some ⟨.gpr, 3, .w64⟩, none, 0, .offset, 4⟩]⟩

def segmentAddition : Instr := .binary .add .dword (.gpr 0) (.place (.mem ⟨some .fs, false, .gpr 3, .none, 0⟩))

theorem segment_declined (others : Insn → ℕ → Lifted) :
    Decodes addSegment segmentAddition ∧ lift others addSegment = ⟨[⟨.unimplemented, none, [], 0x1000⟩], false⟩ :=
  ⟨⟨rfl, rfl, _, _, rfl, rfl, rfl, rfl, rfl, rfl, rfl⟩, rfl⟩

/-- Not every instruction is lifted. -/
theorem not_every_lifts :
    ¬∀ (others : Insn → ℕ → Lifted) (i : Insn) (instr : Instr), Decodes i instr → Lifts others i instr := by
  intro all
  have declined := segment_declined (fun _ _ => ⟨[], true⟩)
  have lifts := all (fun _ _ => ⟨[], true⟩) addSegment segmentAddition declined.1
  have complete := (lifts (fun _ => 0) ⟨fun _ => 0, fun _ => none, fun _ => none, fun _ => 0⟩ (fun f => rfl)).1
  rw [declined.2] at complete
  exact absurd complete (by decide)

end E5r.X86Exact
