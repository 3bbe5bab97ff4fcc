import E5r.IrModel

/-!
The builder a lifter appends its operations to, and how what it appends is run. A
lifter is a program over the builder that hands out temporaries, so a specification
of one is a statement about the state its operations leave, in the manner of a
weakest precondition: `Emits` for one piece, and a rule for each way to go on.
-/
namespace E5r.IrBuilder
open IrModel

/-- The most temporaries one instruction's lifting may use. -/
def maxTemps : ℕ := 64

def maxInputs : ℕ := 3

/-- A builder that hands out temporaries and collects operations; `ptr` is how wide a
    pointer is on the machine the code came from. -/
structure Builder where
  addr : ℕ
  ops : List IrOp
  nextTemp : ℕ
  ptr : ℕ

def Builder.sized (addr ptr : ℕ) : Builder := ⟨addr, [], 0, ptr⟩

/-- A part of a lifter: it appends to the builder and answers or gives up. -/
abbrev Build (α : Type) := OptionT (StateM Builder) α

/-- The operations for one machine instruction, and whether it was modelled
    completely. -/
structure Lifted where
  ops : List IrOp
  complete : Bool
  deriving DecidableEq

/-- A fresh temporary. -/
def temp (size : ℕ) : Build Varnode := fun b =>
  (some (Varnode.temp (b.nextTemp % maxTemps) size), { b with nextTemp := b.nextTemp + 1 })

def emit (op : Op) (out : Option Varnode) (inputs : List Varnode) : Build Unit := fun b =>
  (some (), { b with ops := b.ops ++ [⟨op, out, inputs.take maxInputs, b.addr⟩] })

/-- Emit an operation into a fresh temporary and return it. -/
def eval (op : Op) (size : ℕ) (inputs : List Varnode) : Build Varnode := do
  let t ← temp size
  emit op (some t) inputs
  return t

def pointer : Build ℕ := fun b => (some b.ptr, b)

/-- What may be missing gives up when it is. -/
def given {α : Type} (o : Option α) : Build α := fun b => (o, b)

/-- Give up on this instruction, honestly. -/
def Builder.unimplemented (b : Builder) : Lifted :=
  ⟨b.ops ++ [⟨.unimplemented, none, [], b.addr⟩], false⟩

def Builder.finish (b : Builder) (complete : Bool) : Lifted := ⟨b.ops, complete⟩

/-- Run a lifter: an instruction it gives up on is `unimplemented`. -/
def lifted (f : Build Unit) (b : Builder) : Lifted :=
  match f b with
  | (some (), b) => b.finish true
  | (none, b) => b.unimplemented

/-- Run in `s`, the operations that `f` appends go through to a state, and `f` answers;
    both satisfy `Q`. -/
def Emits {α : Type} (f : Build α) (b : Builder) (s : Machine) (Q : α → Builder → Machine → Prop) : Prop :=
  ∃ a b' added s', f b = (some a, b') ∧ b'.ops = b.ops ++ added ∧ runOps s added = (s', .next) ∧ Q a b' s'

section rules
variable {α β : Type} {b : Builder} {s : Machine}

theorem emits_pure {a : α} {Q : α → Builder → Machine → Prop} (holds : Q a b s) : Emits (pure a) b s Q :=
  ⟨a, b, [], s, rfl, (List.append_nil _).symm, rfl, holds⟩

theorem emits_bind {f : Build α} {g : α → Build β} {Q : β → Builder → Machine → Prop}
    (first : Emits f b s (fun a b' s' => Emits (g a) b' s' Q)) : Emits (f >>= g) b s Q := by
  obtain ⟨a, mid, added, s₁, built, appended, ran, c, last, more, s₂, built', appended', ran', holds⟩ := first
  refine ⟨c, last, added ++ more, s₂, ?_, ?_, ?_, holds⟩
  · show (OptionT.bind f g) b = _
    simp only [OptionT.bind, OptionT.mk, bind, StateT.bind, built]
    exact built'
  · rw [appended', appended, List.append_assoc]
  · rw [runOps_append more ran, ran']

theorem emits_mono {f : Build α} {Q R : α → Builder → Machine → Prop} (first : Emits f b s Q)
    (weaker : ∀ a b' s', Q a b' s' → R a b' s') : Emits f b s R := by
  obtain ⟨a, mid, added, s₁, built, appended, ran, holds⟩ := first
  exact ⟨a, mid, added, s₁, built, appended, ran, weaker a mid s₁ holds⟩

theorem emits_given {a : α} {o : Option α} {Q : α → Builder → Machine → Prop} (there : o = some a)
    (holds : Q a b s) : Emits (given o) b s Q :=
  ⟨a, b, [], s, by rw [given, there], (List.append_nil _).symm, rfl, holds⟩

theorem emits_pointer {Q : ℕ → Builder → Machine → Prop} (holds : Q b.ptr b s) : Emits pointer b s Q :=
  ⟨b.ptr, b, [], s, rfl, (List.append_nil _).symm, rfl, holds⟩

/-- A lifter that goes through is complete, and its operations run. -/
theorem lifted_of_emits {f : Build Unit} {Q : Unit → Builder → Machine → Prop} {addr ptr : ℕ}
    (through : Emits f (Builder.sized addr ptr) s Q) :
    (lifted f (Builder.sized addr ptr)).complete = true ∧
      ∃ b' s', runOps s (lifted f (Builder.sized addr ptr)).ops = (s', .next) ∧ Q () b' s' := by
  obtain ⟨_, b', added, s', built, appended, ran, holds⟩ := through
  have ops : (lifted f (Builder.sized addr ptr)) = ⟨added, true⟩ := by
    have all : b'.ops = added := appended
    simp only [lifted, built, Builder.finish, all]
  rw [ops]
  exact ⟨rfl, b', s', ran, holds⟩

end rules

/-- From one point to a later one: at most `k` more temporaries are taken, the older
    ones, the registers in `kept` and memory are as they were. -/
structure Moves (kept : ℕ → Prop) (k : ℕ) (b : Builder) (s : Machine) (b' : Builder) (s' : Machine) : Prop where
  next : b.nextTemp ≤ b'.nextTemp
  taken : b'.nextTemp ≤ b.nextTemp + k
  ptr : b'.ptr = b.ptr
  temps : ∀ t < b.nextTemp, s'.temps t = s.temps t
  registers : ∀ o, kept o → s'.registers o = s.registers o
  memory : s'.memory = s.memory
  image : s'.image = s.image

/-- All registers. -/
def everything : ℕ → Prop := fun _ => True

/-- A location whose value stays as long as the registers in `kept` do: a literal, a
    register in there, or a temporary that was handed out. -/
def Lasting (kept : ℕ → Prop) (b : Builder) (v : Varnode) : Prop :=
  match v.space with
  | .const => True
  | .register => ∀ i < v.size, kept (v.offset + i)
  | .unique => v.offset < b.nextTemp
  | .ram | .stack => False

/-- A location of `size` bytes that holds the value `x`, and keeps it. -/
structure Holds (kept : ℕ → Prop) (b : Builder) (s : Machine) (v : Varnode) (size x : ℕ) : Prop where
  sized : v.size = size
  short : size ≤ 8
  lasting : Lasting kept b v
  reads : s.read v = x

section moves
variable {kept other : ℕ → Prop} {k j size x : ℕ} {b b₁ b₂ : Builder} {s s₁ s₂ : Machine} {v : Varnode}

theorem Moves.refl : Moves kept 0 b s b s :=
  ⟨le_refl _, le_refl _, rfl, fun _ _ => rfl, fun _ _ => rfl, rfl, rfl⟩

theorem Moves.trans (first : Moves kept k b s b₁ s₁) (second : Moves other j b₁ s₁ b₂ s₂) :
    Moves (fun o => kept o ∧ other o) (k + j) b s b₂ s₂ where
  next := first.next.trans second.next
  taken := by
    have one := first.taken
    have two := second.taken
    omega
  ptr := by rw [second.ptr, first.ptr]
  temps := fun t older => by rw [second.temps t (lt_of_lt_of_le older first.next), first.temps t older]
  registers := fun o both => by rw [second.registers o both.2, first.registers o both.1]
  memory := by rw [second.memory, first.memory]
  image := by rw [second.image, first.image]

theorem Moves.weaken (moved : Moves kept k b s b₁ s₁) (fewer : ∀ o, other o → kept o) :
    Moves other k b s b₁ s₁ :=
  { moved with registers := fun o there => moved.registers o (fewer o there) }

theorem Moves.and_then (first : Moves kept k b s b₁ s₁) (second : Moves kept j b₁ s₁ b₂ s₂) :
    Moves kept (k + j) b s b₂ s₂ :=
  (first.trans second).weaken fun _ there => ⟨there, there⟩

theorem Moves.read (moved : Moves kept k b s b₁ s₁) (lasting : Lasting kept b v) (short : v.size ≤ 8) :
    s₁.read v = s.read v := by
  unfold Machine.read
  unfold Lasting at lasting
  cases space : v.space with
  | const => rfl
  | register =>
    rw [space] at lasting
    have bytes : s₁.reg v.offset v.size = s.reg v.offset v.size := by
      rw [reg_eq s₁ _ short, reg_eq s _ short]
      exact LittleEndian.value_congr fun i below => moved.registers _ (lasting i below)
    simp only [bytes]
  | unique =>
    rw [space] at lasting
    simp only [moved.temps _ lasting]
  | ram | stack =>
    rw [space] at lasting
    exact lasting.elim

theorem Moves.lasting (moved : Moves kept k b s b₁ s₁) (lasting : Lasting other b v) : Lasting other b₁ v := by
  unfold Lasting at lasting ⊢
  cases space : v.space with
  | const => trivial
  | register => simpa only [space] using lasting
  | unique =>
    simp only [space] at lasting ⊢
    exact lt_of_lt_of_le lasting moved.next
  | ram | stack => simp only [space] at lasting

theorem Holds.later (held : Holds kept b s v size x) (moved : Moves kept k b s b₁ s₁) :
    Holds kept b₁ s₁ v size x :=
  ⟨held.sized, held.short, moved.lasting held.lasting, by
    rw [moved.read held.lasting (by rw [held.sized]; exact held.short), held.reads]⟩

/-- A location that lasts as long as fewer registers are kept lasts when more are. -/
theorem Holds.strengthen (held : Holds kept b s v size x) (more : ∀ o, kept o → other o) :
    Holds other b s v size x := by
  refine ⟨held.sized, held.short, ?_, held.reads⟩
  have lasting := held.lasting
  unfold Lasting at lasting ⊢
  cases space : v.space with
  | const => trivial
  | register =>
    simp only [space] at lasting ⊢
    exact fun i below => more _ (lasting i below)
  | unique => simpa only [space] using lasting
  | ram | stack => simp only [space] at lasting

theorem holds_constant (kept : ℕ → Prop) (value : ℕ) (short : size ≤ 8) :
    Holds kept b s (Varnode.constant value size) size (value % 256 ^ size) :=
  ⟨rfl, short, trivial, by
    show value &&& (Varnode.constant value size).mask = _
    rw [and_mask _ (show (Varnode.constant value size).size ≤ 8 from short)]
    rfl⟩

theorem holds_register (kept : ℕ → Prop) (offset : ℕ) (short : size ≤ 8) (there : ∀ i < size, kept (offset + i)) :
    Holds kept b s (Varnode.register offset size) size
      (LittleEndian.value (fun i => s.registers (offset + i)) size) :=
  ⟨rfl, short, there, by
    show s.reg offset size &&& (Varnode.register offset size).mask = _
    rw [and_mask _ (show (Varnode.register offset size).size ≤ 8 from short), reg_eq s offset short]
    exact Nat.mod_eq_of_lt (LittleEndian.value_lt _ _)⟩

theorem Holds.lt (held : Holds kept b s v size x) : x < 256 ^ size := by
  have short : v.size ≤ 8 := by
    rw [held.sized]
    exact held.short
  rw [← held.reads, Machine.read, and_mask _ short, held.sized]
  exact Nat.mod_lt _ (Nat.pow_pos (by norm_num))

end moves

section evaluating
variable {α : Type} {kept : ℕ → Prop} {b : Builder} {s : Machine} {op : Op} {size : ℕ} {r : ℕ}

/-- An operation that works a value out of what its inputs hold goes on to the next
    one, with the value in its output. -/
theorem step_compute (ir : IrOp) {out : Varnode} (written : ir.out = some out)
    (computed : compute ir.op (ir.inputs.map (fun v => (s.read v, v.size))) = .value r) :
    step s ir = (s.write out r, .next) := by
  obtain ⟨op, o, inputs, addr⟩ := ir
  subst written
  cases op <;> first
    | (simp only [compute, reduceCtorEq] at computed; done)
    | (simp only [step, computed, reduceCtorEq, if_false])

/-- The state after a value was written to a temporary. -/
theorem moves_temp {added : List IrOp} :
    Moves everything 1 b s { b with ops := b.ops ++ added, nextTemp := b.nextTemp + 1 }
      (s.write (Varnode.temp b.nextTemp size) r) where
  next := Nat.le_succ _
  taken := le_refl _
  ptr := rfl
  temps := fun t older => by
    show Function.update s.temps b.nextTemp _ t = s.temps t
    rw [Function.update_of_ne (by omega)]
  registers := fun _ _ => rfl
  memory := rfl
  image := rfl

variable {inputs : List Varnode}

theorem emits_fresh {z : ℕ} {Q : Varnode → Builder → Machine → Prop} (room : b.nextTemp < 64)
    (few : inputs.length ≤ 3) (short : size ≤ 8)
    (writes : ∀ out, out.size = size → step s ⟨op, some out, inputs, b.addr⟩ = (s.write out r, .next))
    (value : r % 256 ^ size = z)
    (go : ∀ t b' s', (∀ kept, Holds kept b' s' t size z) → Moves everything 1 b s b' s' → Q t b' s') :
    Emits (eval op size inputs) b s Q := by
  have slot : b.nextTemp % maxTemps = b.nextTemp := Nat.mod_eq_of_lt room
  have all : inputs.take maxInputs = inputs := List.take_of_length_le few
  refine ⟨Varnode.temp b.nextTemp size,
    { b with ops := b.ops ++ [⟨op, some (Varnode.temp b.nextTemp size), inputs, b.addr⟩],
             nextTemp := b.nextTemp + 1 },
    [⟨op, some (Varnode.temp b.nextTemp size), inputs, b.addr⟩],
    s.write (Varnode.temp b.nextTemp size) r, ?_, rfl, ?_, ?_⟩
  · show (some (Varnode.temp (b.nextTemp % maxTemps) size), _) = _
    rw [slot, all]
  · rw [runOps, writes _ rfl]
    rfl
  · refine go _ _ _ (fun kept => ⟨rfl, short, ?_, ?_⟩) moves_temp
    · show b.nextTemp < b.nextTemp + 1
      omega
    · show Function.update s.temps b.nextTemp (r &&& (Varnode.temp b.nextTemp size).mask) b.nextTemp &&&
        (Varnode.temp b.nextTemp size).mask = _
      rw [Function.update_self, and_mask _ (show (Varnode.temp b.nextTemp size).size ≤ 8 from short),
        and_mask _ (show (Varnode.temp b.nextTemp size).size ≤ 8 from short), ← value]
      exact Nat.mod_mod _ _

/-- Evaluating an operation leaves its value in a fresh temporary. -/
theorem emits_eval {z : ℕ} {Q : Varnode → Builder → Machine → Prop} (room : b.nextTemp < 64) (few : inputs.length ≤ 3)
    (short : size ≤ 8) (computed : compute op (inputs.map (fun v => (s.read v, v.size))) = .value r)
    (value : r % 256 ^ size = z)
    (go : ∀ t b' s', (∀ kept, Holds kept b' s' t size z) → Moves everything 1 b s b' s' → Q t b' s') :
    Emits (eval op size inputs) b s Q :=
  emits_fresh room few short (fun _ _ => step_compute _ rfl computed) value go

section operands
variable {first second : ℕ → Prop} {u v : Varnode} {n m x y z : ℕ} {Q : Varnode → Builder → Machine → Prop}

theorem emits_unary (hx : Holds first b s u n x) (computed : compute op [(x, n)] = .value r)
    (value : r % 256 ^ size = z) (room : b.nextTemp < 64) (short : size ≤ 8)
    (go : ∀ t b' s', (∀ kept, Holds kept b' s' t size z) → Moves everything 1 b s b' s' → Q t b' s') :
    Emits (eval op size [u]) b s Q := by
  refine emits_eval room (by simp) short ?_ value go
  rw [List.map_singleton, hx.reads, hx.sized, computed]

theorem emits_binary (hx : Holds first b s u n x) (hy : Holds second b s v m y)
    (computed : compute op [(x, n), (y, m)] = .value r)
    (value : r % 256 ^ size = z) (room : b.nextTemp < 64) (short : size ≤ 8)
    (go : ∀ t b' s', (∀ kept, Holds kept b' s' t size z) → Moves everything 1 b s b' s' → Q t b' s') :
    Emits (eval op size [u, v]) b s Q := by
  refine emits_eval room (by simp) short ?_ value go
  rw [List.map_cons, List.map_singleton, hx.reads, hx.sized, hy.reads, hy.sized, computed]

theorem emits_load (ha : Holds first b s u n x) (room : b.nextTemp < 64) (short : size ≤ 8)
    (go : ∀ t b' s', (∀ kept, Holds kept b' s' t size (LittleEndian.value (fun i => s.byteAt ((x + i) % 2 ^ 64)) size)) →
      Moves everything 1 b s b' s' → Q t b' s') :
    Emits (eval .load size [u]) b s Q := by
  have bytes := LittleEndian.value_lt (fun i => s.byteAt ((x + i) % 2 ^ 64)) size
  refine emits_fresh (r := s.readMem x size) room (by simp) short (fun out sized => ?_) ?_ go
  · simp only [step, List.getElem?_cons_zero, Option.map_some, Option.getD_some, ha.reads, sized, if_true]
  · rw [readMem_eq s x short, Nat.mod_eq_of_lt bytes]

/-- Storing a value at an address. -/
theorem emits_store {Q : Unit → Builder → Machine → Prop} (ha : Holds first b s u n x) (hv : Holds second b s v m y)
    (inside : x < 2 ^ 64)
    (go : ∀ b' s', b'.nextTemp = b.nextTemp → s'.registers = s.registers →
      (∀ a < 2 ^ 64, s'.byteAt a = if position x a < m then LittleEndian.byte y (position x a) else s.byteAt a) →
      Q () b' s') :
    Emits (emit .store none [u, v]) b s Q := by
  refine ⟨(), { b with ops := b.ops ++ [⟨.store, none, [u, v], b.addr⟩] }, [⟨.store, none, [u, v], b.addr⟩],
    s.storeMem x m y, rfl, rfl, ?_, go _ _ rfl (storeMem_frame s x m y).1 fun a below => ?_⟩
  · simp only [runOps, step, List.getElem?_cons_zero, List.getElem?_cons_succ, ha.reads, hv.reads, hv.sized]
  · exact byteAt_storeMem s y hv.short inside below

end operands

theorem emits_register {offset : ℕ} {Q : Unit → Builder → Machine → Prop}
    (few : inputs.length ≤ 3) (short : size ≤ 8)
    (computed : compute op (inputs.map (fun v => (s.read v, v.size))) = .value r)
    (go : ∀ b' s', Moves (fun o => o < offset ∨ offset + size ≤ o) 0 b s b' s' →
      (∀ i < size, s'.registers (offset + i) = LittleEndian.byte r i) → Q () b' s') :
    Emits (emit op (some (Varnode.register offset size)) inputs) b s Q := by
  have all : inputs.take maxInputs = inputs := List.take_of_length_le few
  have cut : s.write (Varnode.register offset size) r = s.setReg offset size (r % 256 ^ size) := by
    show s.setReg offset size (r &&& (Varnode.register offset size).mask) = _
    rw [and_mask _ (show (Varnode.register offset size).size ≤ 8 from short)]
    rfl
  refine ⟨(), _, [⟨op, some (Varnode.register offset size), inputs, b.addr⟩],
    s.setReg offset size (r % 256 ^ size), rfl, ?_, ?_, go _ _ ?_ ?_⟩
  · rw [all]
  · rw [runOps, step_compute _ rfl computed, cut]
    rfl
  · refine ⟨le_refl _, le_refl _, rfl, fun _ _ => rfl, fun o outside => ?_, rfl, rfl⟩
    rw [setReg_registers _ _ _ short, LittleEndian.put, if_neg (by omega)]
  · intro i below
    rw [setReg_registers _ _ _ short, LittleEndian.put, if_pos (by omega), Nat.add_sub_cancel_left,
      LittleEndian.byte_mod r below]

theorem emits_register_binary {other : ℕ → Prop} {u v : Varnode} {n m x y offset : ℕ}
    {Q : Unit → Builder → Machine → Prop} (hx : Holds kept b s u n x) (hy : Holds other b s v m y)
    (short : size ≤ 8) (computed : compute op [(x, n), (y, m)] = .value r)
    (go : ∀ b' s', Moves (fun o => o < offset ∨ offset + size ≤ o) 0 b s b' s' →
      (∀ i < size, s'.registers (offset + i) = LittleEndian.byte r i) → Q () b' s') :
    Emits (emit op (some (Varnode.register offset size)) [u, v]) b s Q := by
  refine emits_register (by simp) short ?_ go
  rw [List.map_cons, List.map_singleton, hx.reads, hx.sized, hy.reads, hy.sized, computed]

theorem emits_copy {v : Varnode} {n offset x : ℕ} {Q : Unit → Builder → Machine → Prop}
    (held : Holds kept b s v n x) (short : size ≤ 8)
    (go : ∀ b' s', Moves (fun o => o < offset ∨ offset + size ≤ o) 0 b s b' s' →
      (∀ i < size, s'.registers (offset + i) = LittleEndian.byte x i) → Q () b' s') :
    Emits (emit .copy (some (Varnode.register offset size)) [v]) b s Q := by
  refine emits_register (by simp) short ?_ go
  rw [List.map_singleton, held.reads]
  rfl

theorem emits_copy_bit {v : Varnode} {offset : ℕ} {c : Bool} {Q : Unit → Builder → Machine → Prop}
    (held : Holds kept b s v 1 c.toNat)
    (go : ∀ b' s', Moves (fun o => o ≠ offset) 0 b s b' s' → s'.registers offset = UInt8.ofNat c.toNat → Q () b' s') :
    Emits (emit .copy (some (Varnode.register offset 1)) [v]) b s Q := by
  refine emits_copy held (by norm_num) fun b' s' moved written => go b' s' ?_ ?_
  · exact moved.weaken fun o other => by omega
  · have first := written 0 (by norm_num)
    simpa [LittleEndian.byte] using first

end evaluating

section operations
variable {x y n m : ℕ}

theorem compute_intAdd : compute .intAdd [(x, n), (y, m)] = .value ((x + y) % 2 ^ 64) := rfl
theorem compute_intSub : compute .intSub [(x, n), (y, m)] = .value ((x + 2 ^ 64 - y) % 2 ^ 64) := rfl
theorem compute_intAnd : compute .intAnd [(x, n), (y, m)] = .value (x &&& y) := rfl
theorem compute_intOr : compute .intOr [(x, n), (y, m)] = .value (x ||| y) := rfl
theorem compute_intXor : compute .intXor [(x, n), (y, m)] = .value (x ^^^ y) := rfl
theorem compute_intNot : compute .intNot [(x, n)] = .value (2 ^ 64 - 1 - x) := rfl
theorem compute_intNegate : compute .intNegate [(x, n)] = .value ((2 ^ 64 - x) % 2 ^ 64) := rfl
theorem compute_intEqual : compute .intEqual [(x, n), (y, m)] = .value (x == y).toNat := rfl
theorem compute_intNotEqual : compute .intNotEqual [(x, n), (y, m)] = .value (x != y).toNat := rfl
theorem compute_intLess : compute .intLess [(x, n), (y, m)] = .value (decide (x < y)).toNat := rfl
theorem compute_intZExt : compute .intZExt [(x, n)] = .value x := rfl
theorem compute_popCount : compute .popCount [(x, n)] = .value (countOnes x) := rfl
theorem compute_boolAnd : compute .boolAnd [(x, n), (y, m)] = .value (x != 0 && y != 0).toNat := rfl
theorem compute_boolOr : compute .boolOr [(x, n), (y, m)] = .value (x != 0 || y != 0).toNat := rfl
theorem compute_boolNot : compute .boolNot [(x, n)] = .value (x == 0).toNat := rfl

theorem compute_intRight (inside : y < n * 8) (short : n ≤ 8) :
    compute .intRight [(x, n), (y, m)] = .value (x / 2 ^ y) := by
  have whole : compute .intRight [(x, n), (y, m)] = if n * 8 ≤ y then .value 0 else .value (shr64 x y) := rfl
  rw [whole, if_neg (by omega), shr64, Nat.mod_eq_of_lt (by omega : y < 64), Nat.shiftRight_eq_div_pow]

theorem compute_intLeft (inside : y < n * 8) (short : n ≤ 8) :
    compute .intLeft [(x, n), (y, m)] = .value (x * 2 ^ y % 2 ^ 64) := by
  have whole : compute .intLeft [(x, n), (y, m)] = if n * 8 ≤ y then .value 0 else .value (shl64 x y) := rfl
  rw [whole, if_neg (by omega), shl64, Nat.mod_eq_of_lt (by omega : y < 64), Nat.shiftLeft_eq]

theorem compute_subPiece (inside : y < 8) : compute .subPiece [(x, n), (y, m)] = .value (x / 256 ^ y) := by
  have whole : compute .subPiece [(x, n), (y, m)] = .value (shr64 x (y * 8 % 2 ^ 64)) := rfl
  have power : 2 ^ (y * 8) = 256 ^ y := by
    rw [Nat.mul_comm, pow_mul]
    norm_num
  rw [whole, shr64, Nat.mod_eq_of_lt (by omega : y * 8 < 2 ^ 64), Nat.mod_eq_of_lt (by omega : y * 8 < 64),
    Nat.shiftRight_eq_div_pow, power]

/-- A truth value fits in a byte. -/
theorem toNat_cut (c : Bool) : c.toNat % 256 ^ 1 = c.toNat := by
  cases c <;> rfl

end operations

end E5r.IrBuilder
