import E5r.LittleEndian

/-!
The intermediate representation that machine instructions are lifted to, and its
interpreter: storage locations, operations, the machine they run on and one step of
it. The floating point operations are left out, as is the list of addresses that
were read before anything was written to them.
-/
namespace E5r.IrModel

/-- Where a value lives. -/
inductive Space where
  | const
  | register
  | ram
  | unique
  | stack
  deriving DecidableEq

/-- A storage location: a space, an offset in it, and a size in bytes. -/
structure Varnode where
  space : Space
  offset : ℕ
  size : ℕ
  deriving DecidableEq

def Varnode.constant (value size : ℕ) : Varnode := ⟨.const, value, size⟩
def Varnode.register (offset size : ℕ) : Varnode := ⟨.register, offset, size⟩
def Varnode.temp (id size : ℕ) : Varnode := ⟨.unique, id, size⟩
def Varnode.isConst (v : Varnode) : Bool := v.space == .const
def Varnode.value (v : Varnode) : Option ℕ := if v.isConst then some v.offset else none

def Varnode.mask (v : Varnode) : ℕ :=
  if v.size = 0 then 0 else if v.size ≤ 7 then 2 ^ (v.size * 8) - 1 else 2 ^ 64 - 1

/-- What an operation does. -/
inductive Op where
  | copy | load | store
  | branch | cbranch | branchInd | call | callInd | ret
  | intAdd | intSub | intMul | intDiv | intSDiv | intRem | intSRem | intMulHigh | intSMulHigh
  | intDiv128 | intSDiv128 | intRem128 | intSRem128
  | intAnd | intOr | intXor | intNot | intNegate | intLeft | intRight | intSRight
  | intEqual | intNotEqual | intLess | intSLess | intLessEqual | intSLessEqual
  | intCarry | intSCarry | intSBorrow | intZExt | intSExt | popCount | lzCount
  | boolAnd | boolOr | boolXor | boolNot
  | undefine | piece | subPiece | unimplemented
  deriving DecidableEq

/-- One operation, with the address of the machine instruction it came from. -/
structure IrOp where
  op : Op
  out : Option Varnode
  inputs : List Varnode
  addr : ℕ
  deriving DecidableEq

/-- The machine the operations run on. Memory overlays the image, which is read where
    nothing was written. -/
structure Machine where
  registers : ℕ → UInt8
  memory : ℕ → Option UInt8
  image : ℕ → Option UInt8
  temps : ℕ → ℕ

/-- A shift of a 64-bit word, whose amount is taken modulo the width. -/
def shl64 (x n : ℕ) : ℕ := x <<< (n % 64) % 2 ^ 64
def shr64 (x n : ℕ) : ℕ := x >>> (n % 64)

/-- `u64 as i64`. -/
def asI64 (v : ℕ) : ℤ := if v < 2 ^ 63 then v else v - 2 ^ 64

/-- `i64 as u64`. -/
def asU64 (z : ℤ) : ℕ := (z % 2 ^ 64).toNat

/-- Read a register as an integer. -/
def Machine.reg (m : Machine) (offset size : ℕ) : ℕ :=
  (List.range size).foldl (fun v i => v ||| shl64 (m.registers (offset + i)).toNat (i * 8)) 0

/-- Write a register. -/
def Machine.setReg (m : Machine) (offset size value : ℕ) : Machine :=
  { m with registers := fun a =>
      if offset ≤ a ∧ a < offset + size then UInt8.ofNat (shr64 value ((a - offset) * 8)) else m.registers a }

/-- The byte at an address: what was written, else the image's, else zero. -/
def Machine.byteAt (m : Machine) (at_ : ℕ) : UInt8 := ((m.memory at_).or (m.image at_)).getD 0

/-- Read bytes from memory, falling back to the image. -/
def Machine.readMem (m : Machine) (at_ size : ℕ) : ℕ :=
  (List.range size).foldl (fun v i => v ||| shl64 (m.byteAt ((at_ + i) % 2 ^ 64)).toNat (i * 8)) 0

def Machine.storeByte (m : Machine) (a : ℕ) (b : UInt8) : Machine :=
  { m with memory := Function.update m.memory a (some b) }

/-- Store the lowest `size` bytes of a value, going around the end of memory. -/
def Machine.storeMem (m : Machine) (at_ size value : ℕ) : Machine :=
  (List.range size).foldl (fun m i =>
    m.storeByte ((at_ + i) % 2 ^ 64) (UInt8.ofNat (shr64 value (i * 8)))) m

def Machine.read (m : Machine) (v : Varnode) : ℕ :=
  (match v.space with
    | .const => v.offset
    | .register => m.reg v.offset v.size
    | .unique | .stack => m.temps v.offset
    | .ram => m.readMem v.offset v.size) &&& v.mask

def Machine.write (m : Machine) (v : Varnode) (value : ℕ) : Machine :=
  let value := value &&& v.mask
  match v.space with
  | .const => m
  | .register => m.setReg v.offset v.size value
  | .unique | .stack => { m with temps := Function.update m.temps v.offset value }
  | .ram => m.storeMem v.offset v.size value

/-- Clear the lifting temporaries, which do not live across a machine instruction. -/
def Machine.endInstruction (m : Machine) : Machine := { m with temps := fun _ => 0 }

/-- The sign bit of the low `size` bytes of `v`. -/
def signBit (v size : ℕ) : Bool :=
  if size = 0 ∨ 8 < size then false else v >>> (size * 8 - 1) &&& 1 == 1

/-- Sign-extend the low `size` bytes of `v`. -/
def sext (v size : ℕ) : ℤ :=
  if size = 0 then 0
  else if size ≤ 7 then asI64 (shl64 v (64 - size * 8)) >>> (64 - size * 8)
  else asI64 v

/-- Read a double-width value as signed. -/
def sext128 (v bits : ℕ) : ℤ :=
  let asI128 (v : ℕ) : ℤ := if v < 2 ^ 127 then v else v - 2 ^ 128
  if 128 ≤ bits then asI128 v else asI128 (v <<< (128 - bits) % 2 ^ 128) >>> (128 - bits)

/-- `u64::count_ones` and `u64::leading_zeros`. -/
def countOnes (x : ℕ) : ℕ := (List.range 64).countP (fun i => x.testBit i)
def leadingZeros (x : ℕ) : ℕ := if x = 0 then 64 else 63 - x.log2

/-- What the operation works out: a value for its output, nothing, or a division by
    zero. -/
inductive Computed where
  | value (v : ℕ)
  | nothing
  | divideByZero
  deriving DecidableEq

def bit (b : Bool) : Computed := .value b.toNat

/-- The value of an operation that reads nothing but its inputs, each given with its
    size in bytes. -/
def compute (op : Op) (inputs : List (ℕ × ℕ)) : Computed :=
  let input (n : ℕ) : ℕ := (inputs[n]?.map (fun i => i.1)).getD 0
  let signed (n : ℕ) : ℤ := (inputs[n]?.map (fun i => sext i.1 i.2)).getD 0
  let size (n : ℕ) : ℕ := (inputs[n]?.map (fun i => i.2)).getD 8
  let x := input 0
  let xs := signed 0
  let y := input 1
  let ys := signed 1
  let bits := size 0 * 8
  let dividend := x <<< (size 1 * 8 % 128) % 2 ^ 128 ||| y
  match op with
  | .copy => .value x
  | .intAdd => .value ((x + y) % 2 ^ 64)
  | .intSub => .value ((x + 2 ^ 64 - y) % 2 ^ 64)
  | .intMul => .value (x * y % 2 ^ 64)
  | .intDiv => if y = 0 then .divideByZero else .value (x / y)
  | .intRem => if y = 0 then .divideByZero else .value (x % y)
  | .intSDiv => if y = 0 then .divideByZero else .value (asU64 (xs.tdiv ys))
  | .intSRem => if y = 0 then .divideByZero else .value (asU64 (xs.tmod ys))
  | .intAnd => .value (x &&& y)
  | .intOr => .value (x ||| y)
  | .intXor => .value (x ^^^ y)
  | .intNot => .value (2 ^ 64 - 1 - x)
  | .intNegate => .value ((2 ^ 64 - x) % 2 ^ 64)
  | .intLeft => if bits ≤ y then .value 0 else .value (shl64 x y)
  | .intRight => if bits ≤ y then .value 0 else .value (shr64 x y)
  | .intSRight =>
    if bits ≤ y then if xs < 0 then .value (2 ^ 64 - 1) else .value 0
    else .value (asU64 (xs >>> (y % 64)))
  | .intEqual => bit (x == y)
  | .intNotEqual => bit (x != y)
  | .intLess => bit (decide (x < y))
  | .intSLess => bit (decide (xs < ys))
  | .intLessEqual => bit (decide (x ≤ y))
  | .intSLessEqual => bit (decide (xs ≤ ys))
  | .intCarry =>
    let mask := (inputs[0]?.map (fun i => (Varnode.constant 0 i.2).mask)).getD (2 ^ 64 - 1)
    bit (decide ((x + y) % 2 ^ 64 &&& mask < x))
  | .intSCarry =>
    let sum := (x + y) % 2 ^ 64
    bit (signBit x (size 0) == signBit y (size 0) && signBit sum (size 0) != signBit x (size 0))
  | .intSBorrow =>
    let difference := (x + 2 ^ 64 - y) % 2 ^ 64
    bit (signBit x (size 0) != signBit y (size 0) && signBit difference (size 0) != signBit x (size 0))
  | .intMulHigh => .value ((x * y) >>> (bits % 128) % 2 ^ 64)
  | .intSMulHigh => .value (asU64 ((xs * ys) >>> (bits % 128)))
  | .intDiv128 => if input 2 = 0 then .divideByZero else .value (dividend / input 2 % 2 ^ 64)
  | .intRem128 => if input 2 = 0 then .divideByZero else .value (dividend % input 2 % 2 ^ 64)
  | .intSDiv128 =>
    if input 2 = 0 then .divideByZero
    else .value (asU64 ((sext128 dividend (size 1 * 8 * 2)).tdiv (sext (input 2) (size 1))))
  | .intSRem128 =>
    if input 2 = 0 then .divideByZero
    else .value (asU64 ((sext128 dividend (size 1 * 8 * 2)).tmod (sext (input 2) (size 1))))
  | .intZExt => .value x
  | .intSExt => .value (asU64 xs)
  | .popCount => .value (countOnes x)
  | .lzCount => .value (leadingZeros (shl64 x ((2 ^ 32 + 64 - bits) % 2 ^ 32)))
  | .boolAnd => bit (x != 0 && y != 0)
  | .boolOr => bit (x != 0 || y != 0)
  | .boolXor => bit ((x != 0) ^^ (y != 0))
  | .boolNot => bit (x == 0)
  | .piece => .value (shl64 x ((inputs[1]?.map (fun i => i.2 * 8)).getD 0) ||| y)
  | .subPiece => .value (shr64 x (y * 8 % 2 ^ 64))
  | .load | .store | .branch | .cbranch | .branchInd | .call | .callInd | .ret | .undefine | .unimplemented =>
    .nothing

/-- Why execution stopped. -/
inductive Stop where
  | unimplemented (addr : ℕ)
  | divideByZero (addr : ℕ)
  deriving DecidableEq

/-- What one operation did. -/
inductive Step where
  | next
  | jump (addr : ℕ)
  | call (addr : ℕ)
  | leave (addr : ℕ)
  | halt (stop : Stop)
  deriving DecidableEq

/-- Run one operation. -/
def step (m : Machine) (ir : IrOp) : Machine × Step :=
  let a := (ir.inputs[0]?.map m.read).getD 0
  let target := ir.inputs[0]?.bind Varnode.value
  match ir.op with
  | .unimplemented => (m, .halt (.unimplemented ir.addr))
  | .branch =>
    match target with
    | some t => (m, .jump t)
    | none => (m, .halt (.unimplemented ir.addr))
  | .cbranch =>
    if (ir.inputs[1]?.map m.read).getD 0 ≠ 0 then
      match target with
      | some t => (m, .jump t)
      | none => (m, .halt (.unimplemented ir.addr))
    else (m, .next)
  | .branchInd => (m, .jump a)
  | .ret => (m, .leave a)
  | .call | .callInd => (m, .call a)
  | op =>
    match ir.out with
    | none =>
      match op, ir.inputs[0]?, ir.inputs[1]? with
      | .store, some addr, some value => (m.storeMem (m.read addr) value.size (m.read value), .next)
      | _, _, _ => (m, .next)
    | some out =>
      if op = .load then (m.write out (m.readMem a out.size), .next)
      else
        match compute op (ir.inputs.map (fun v => (m.read v, v.size))) with
        | .value v => (m.write out v, .next)
        | .nothing => (m, .next)
        | .divideByZero => (m, .halt (.divideByZero ir.addr))

/-- Run the operations of one machine instruction: up to the first that does not go on
    to the next. -/
def runOps (m : Machine) : List IrOp → Machine × Step
  | [] => (m, .next)
  | ir :: rest =>
    match step m ir with
    | (m, .next) => runOps m rest
    | stopped => stopped

private theorem joined_bytes (f : ℕ → UInt8) {size : ℕ} (short : size ≤ 8) :
    (List.range size).foldl (fun v i => v ||| shl64 (f i).toNat (i * 8)) 0 = LittleEndian.value f size := by
  induction size with
  | zero => rfl
  | succ n ih =>
    have byteShifted : shl64 (f n).toNat (n * 8) = (f n).toNat <<< (8 * n) := by
      have small := (f n).toNat_lt
      have top : (f n).toNat * 2 ^ (8 * n) < 2 ^ 64 :=
        calc (f n).toNat * 2 ^ (8 * n) < 2 ^ 8 * 2 ^ (8 * n) := Nat.mul_lt_mul_of_pos_right small (by norm_num)
          _ = 2 ^ (8 + 8 * n) := by rw [pow_add]
          _ ≤ 2 ^ 64 := Nat.pow_le_pow_right (by norm_num) (by omega)
      rw [shl64, Nat.mod_eq_of_lt (by omega : n * 8 < 64), Nat.mul_comm n 8, Nat.shiftLeft_eq, Nat.mod_eq_of_lt top]
    rw [List.range_succ, List.foldl_append, ih (by omega), List.foldl_cons, List.foldl_nil, byteShifted,
      LittleEndian.value_or]

theorem reg_eq (m : Machine) (offset : ℕ) {size : ℕ} (short : size ≤ 8) :
    m.reg offset size = LittleEndian.value (fun i => m.registers (offset + i)) size :=
  joined_bytes (fun i => m.registers (offset + i)) short

theorem readMem_eq (m : Machine) (at_ : ℕ) {size : ℕ} (short : size ≤ 8) :
    m.readMem at_ size = LittleEndian.value (fun i => m.byteAt ((at_ + i) % 2 ^ 64)) size :=
  joined_bytes (fun i => m.byteAt ((at_ + i) % 2 ^ 64)) short

theorem and_mask (x : ℕ) {v : Varnode} (short : v.size ≤ 8) : x &&& v.mask = x % 256 ^ v.size := by
  have power : 256 ^ v.size = 2 ^ (v.size * 8) := by
    rw [Nat.mul_comm, pow_mul]
    norm_num
  unfold Varnode.mask
  by_cases none : v.size = 0
  · simp [none, Nat.mod_one]
  · rw [if_neg none, power]
    by_cases below : v.size ≤ 7
    · rw [if_pos below, Nat.and_two_pow_sub_one_eq_mod]
    · have whole : v.size = 8 := by omega
      rw [if_neg below, whole, Nat.and_two_pow_sub_one_eq_mod]

theorem shr64_byte (v : ℕ) {i : ℕ} (below : i < 8) : UInt8.ofNat (shr64 v (i * 8)) = LittleEndian.byte v i := by
  rw [shr64, Nat.mod_eq_of_lt (by omega : i * 8 < 64), Nat.shiftRight_eq_div_pow, LittleEndian.byte, Nat.mul_comm,
    pow_mul]
  norm_num

theorem setReg_registers (m : Machine) (offset : ℕ) {size : ℕ} (value : ℕ) (short : size ≤ 8) :
    (m.setReg offset size value).registers = LittleEndian.put m.registers offset size value := by
  funext a
  simp only [Machine.setReg, LittleEndian.put]
  by_cases inside : offset ≤ a ∧ a < offset + size
  · rw [if_pos inside, if_pos inside, shr64_byte value (by omega)]
  · rw [if_neg inside, if_neg inside]

/-- The position of an address in an access, going around the end of memory. -/
def position (at_ a : ℕ) : ℕ := if at_ ≤ a then a - at_ else a + 2 ^ 64 - at_

theorem byteAt_storeByte (m : Machine) (a other : ℕ) (v : UInt8) :
    (m.storeByte a v).byteAt other = if other = a then v else m.byteAt other := by
  unfold Machine.byteAt Machine.storeByte
  by_cases same : other = a
  · subst same
    simp
  · simp [same]

theorem storeMem_frame (m : Machine) (at_ size value : ℕ) :
    (m.storeMem at_ size value).registers = m.registers ∧ (m.storeMem at_ size value).image = m.image ∧
      (m.storeMem at_ size value).temps = m.temps := by
  unfold Machine.storeMem
  induction size with
  | zero => exact ⟨rfl, rfl, rfl⟩
  | succ n ih =>
    rw [List.range_succ, List.foldl_append]
    exact ih

theorem byteAt_storeMem (m : Machine) {at_ a size : ℕ} (value : ℕ) (short : size ≤ 8) (start : at_ < 2 ^ 64)
    (inside : a < 2 ^ 64) :
    (m.storeMem at_ size value).byteAt a =
      if position at_ a < size then LittleEndian.byte value (position at_ a) else m.byteAt a := by
  induction size with
  | zero => simp [Machine.storeMem]
  | succ n ih =>
    have last : m.storeMem at_ (n + 1) value =
        (m.storeMem at_ n value).storeByte ((at_ + n) % 2 ^ 64) (UInt8.ofNat (shr64 value (n * 8))) := by
      unfold Machine.storeMem
      rw [List.range_succ, List.foldl_append]
      rfl
    rw [last]
    by_cases here : position at_ a = n
    · have address : a = (at_ + n) % 2 ^ 64 := by
        unfold position at here
        split_ifs at here <;> omega
      rw [if_pos (by omega), here, ← shr64_byte value (by omega), byteAt_storeByte, if_pos address]
    · have address : a ≠ (at_ + n) % 2 ^ 64 := by
        unfold position at here
        split_ifs at here <;> omega
      rw [byteAt_storeByte, if_neg address, ih (by omega)]
      by_cases before : position at_ a < n
      · rw [if_pos before, if_pos (by omega)]
      · rw [if_neg before, if_neg (by omega)]

theorem runOps_append {m mid : Machine} {first : List IrOp} (rest : List IrOp)
    (ran : runOps m first = (mid, .next)) : runOps m (first ++ rest) = runOps mid rest := by
  induction first generalizing m with
  | nil =>
    cases ran
    rfl
  | cons ir first ih =>
    rw [List.cons_append, runOps]
    rw [runOps] at ran
    split at ran
    · next stepped => exact ih ran
    · next other => exact absurd ran (by
        intro same
        exact other _ same)

end E5r.IrModel
