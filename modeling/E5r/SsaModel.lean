import E5r.ConstantFold

/-!
# Static single assignment form

Functions whose operations read versioned values, and what a calling convention says about
the registers they stand in.
-/

namespace E5r.SsaModel

open IrModel ConstantFold

inductive Arch where
  | x86 | x86_64 | arm | thumb | aarch64
  | sleigh (name : String)
  | unknown (machine : ℕ)
  deriving DecidableEq

/-- A storage location, at the granularity values are versioned. -/
structure Location where
  space : Space
  offset : ℕ
  size : ℕ
  deriving DecidableEq

/-- The registers a convention uses, as byte offsets into the register file. -/
structure Abi where
  integerArguments : List ℕ
  floatArguments : List ℕ
  results : List ℕ
  calleeSaved : List ℕ
  stackPointer : ℕ
  deriving DecidableEq

/-- General purpose registers are eight bytes each, from the start of the register file. -/
def gprOffset (n : ℕ) : ℕ := n * 8

def x86VecOffset (n : ℕ) : ℕ := 18 * 8 + n * 16
def armVecOffset (n : ℕ) : ℕ := 18 * 8 + n * 8
def aarch64VecOffset (n : ℕ) : ℕ := 34 * 8 + n * 16

def sysv64 : Abi where
  integerArguments := [7, 6, 2, 1, 8, 9].map gprOffset
  floatArguments := (List.range 8).map x86VecOffset
  results := [gprOffset 0, gprOffset 2, x86VecOffset 0]
  calleeSaved := [3, 5, 12, 13, 14, 15].map gprOffset
  stackPointer := 4 * 8

def cdecl : Abi where
  integerArguments := []
  floatArguments := []
  results := [gprOffset 0, gprOffset 2, x86VecOffset 0]
  calleeSaved := [3, 5, 6, 7].map gprOffset
  stackPointer := 4 * 8

def aapcs32 : Abi where
  integerArguments := (List.range 4).map gprOffset
  floatArguments := (List.range 8).map armVecOffset
  results := [gprOffset 0, gprOffset 1, armVecOffset 0]
  calleeSaved := (List.range' 4 8).map gprOffset
  stackPointer := 13 * 8

def aapcs64 : Abi where
  integerArguments := (List.range 8).map gprOffset
  floatArguments := (List.range 8).map aarch64VecOffset
  results := [gprOffset 0, gprOffset 1, aarch64VecOffset 0]
  calleeSaved := (List.range' 19 11).map gprOffset
  stackPointer := 31 * 8

/-- The default convention for an architecture. -/
def Abi.of : Arch → Abi
  | .x86_64 => sysv64
  | .x86 => cdecl
  | .arm | .thumb => aapcs32
  | _ => aapcs64

def wholeRegister (offset : ℕ) : Location := ⟨.register, offset, 8⟩

def Abi.liveAtReturn (abi : Abi) : List Location :=
  (abi.results ++ abi.calleeSaved).map wholeRegister ++ [wholeRegister abi.stackPointer]

def Abi.argumentLocations (abi : Abi) : List Location :=
  (abi.integerArguments ++ abi.floatArguments).map wholeRegister

/-- A location and which definition of it this is. -/
structure Value where
  location : Location
  version : ℕ
  deriving DecidableEq

inductive Operand where
  | value (v : Value)
  | const (v : UInt64) (size : ℕ)
  | undefined (l : Location)
  deriving DecidableEq

def Operand.asConst : Operand → Option ℕ
  | .const v _ => some v.toNat
  | _ => none

def Operand.asValue : Operand → Option Value
  | .value v => some v
  | _ => none

def Operand.size : Operand → ℕ
  | .value v => v.location.size
  | .const _ size => size
  | .undefined l => l.size

inductive SsaKind where
  | phi
  | op (o : Operation)
  deriving DecidableEq

structure SsaOp where
  addr : ℕ
  kind : SsaKind
  out : Option Value
  inputs : List Operand
  size : ℕ
  deriving DecidableEq

structure SsaBlock where
  ops : List SsaOp
  successors : List ℕ
  predecessors : List ℕ
  deriving DecidableEq

/-- The operations of blocks, in order. -/
def opsOf (blocks : List (ℕ × SsaBlock)) : List SsaOp := blocks.flatMap fun b => b.2.ops

def outsOf (ops : List SsaOp) : List Value := ops.filterMap SsaOp.out

/-- Blocks by address; every value has one definition. -/
structure SsaFunction where
  arch : Arch
  entry : ℕ
  blocks : List (ℕ × SsaBlock)
  sorted : blocks.Pairwise fun a b => a.1 < b.1
  single : (outsOf (opsOf blocks)).Nodup

theorem opsOf_filter (keep : SsaOp → Bool) (blocks : List (ℕ × SsaBlock)) :
    opsOf (blocks.map fun b => (b.1, { b.2 with ops := b.2.ops.filter keep })) = (opsOf blocks).filter keep := by
  induction blocks with
  | nil => rfl
  | cons b blocks ih =>
    show b.2.ops.filter keep ++ opsOf (blocks.map _) = (b.2.ops ++ opsOf blocks).filter keep
    rw [List.filter_append, ih]

namespace SsaFunction

variable (f : SsaFunction)

def ops : List SsaOp := opsOf f.blocks

def get (at_ : ℕ) : Option SsaBlock := (f.blocks.find? fun b => b.1 = at_).map Prod.snd

def definition (v : Value) : Option SsaOp := f.ops.find? fun op => op.out = some v

variable {f}

theorem mem_ops {op : SsaOp} : op ∈ f.ops ↔ ∃ b ∈ f.blocks, op ∈ b.2.ops := by
  rw [ops, opsOf, List.mem_flatMap]

theorem mem_blocks_of_get {at_ : ℕ} {b : SsaBlock} (found : f.get at_ = some b) : (at_, b) ∈ f.blocks := by
  obtain ⟨⟨a, c⟩, first, rfl⟩ := Option.map_eq_some_iff.mp found
  have same : a = at_ := by simpa using List.find?_some first
  rw [← same]
  exact List.mem_of_find?_eq_some first

theorem eq_of_out {l : List SsaOp} (single : (outsOf l).Nodup) {v : Value} {a b : SsaOp} (first : a ∈ l) (second : b ∈ l)
    (outA : a.out = some v) (outB : b.out = some v) : a = b := by
  induction l with
  | nil => cases first
  | cons x l ih =>
    have rest : (outsOf l).Nodup := by
      refine single.sublist ?_
      exact (List.sublist_cons_self x l).filterMap _
    have apart : ∀ y ∈ l, x.out = some v → y.out ≠ some v := by
      intro y there out out'
      rw [outsOf, List.filterMap_cons_some out] at single
      exact (List.nodup_cons.mp single).1 (List.mem_filterMap.mpr ⟨y, there, out'⟩)
    rcases List.mem_cons.mp first with rfl | firstLater
    · rcases List.mem_cons.mp second with rfl | secondLater
      · rfl
      · exact absurd outB (apart b secondLater outA)
    · rcases List.mem_cons.mp second with rfl | secondLater
      · exact absurd outA (apart a firstLater outB)
      · exact ih rest firstLater secondLater

theorem definition_eq_some_iff {v : Value} {op : SsaOp} : f.definition v = some op ↔ op ∈ f.ops ∧ op.out = some v := by
  constructor
  · intro found
    exact ⟨List.mem_of_find?_eq_some found, by simpa using List.find?_some found⟩
  · rintro ⟨there, out⟩
    cases found : f.definition v with
    | none => exact absurd (List.find?_eq_none.mp found op there) (by simp [out])
    | some other =>
      have member := List.mem_of_find?_eq_some found
      have out' : other.out = some v := by simpa using List.find?_some found
      rw [eq_of_out f.single member there out' out]

end SsaFunction

end E5r.SsaModel
