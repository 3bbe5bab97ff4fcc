import E5r.CallingConventions
import E5r.PrototypeModel
import Mathlib.Tactic.Common

/-!
For which signatures the parameters are placed where their convention passes
them.
-/
namespace E5r.PrototypePlaces
open StructLayout (CType Types resolve resolveFrom)
open CheckedWords (wrapping)
open PrototypeModel CallingConventions

/-! ### Declared signatures -/

/-- The class of a parameter whose type is an integer, a pointer, `float` or
    `double`. -/
def kindOf (types : Types) (ty : CType) : Option Kind :=
  match resolve ty with
  | .bool => some (.integer 1)
  | .int size _ | .enum size => some (.integer size.toNat)
  | .pointer => some (.integer types.model.pointer.toNat)
  | .float size => if size = 4 then some .single else if size = 8 then some .double else none
  | _ => none

/-- A result is in memory when it is an aggregate of more than 16 bytes, and not
    when it is a scalar. -/
def resultOf (types : Types) (ty : CType) : Option Bool :=
  match resolve ty with
  | .void | .bool | .int .. | .enum _ | .pointer | .float _ => some false
  | .composite _ =>
    match (types.sizeOf wrapping ty).getD none with
    | none => some true
    | some size => if 16 < size then some true else none
  | _ => none

def inMemory (types : Types) (sig : Signature) : Bool :=
  match sig.returns with
  | none => false
  | some ty => resultOf types ty = some true

def kinds (types : Types) (sig : Signature) : List Kind := sig.parameters.filterMap fun p => kindOf types p.2

/-- A signature of integers, pointers, `float` and `double` whose result is void, a
    scalar or a large aggregate. -/
structure Declares (c : Convention) (types : Types) (sig : Signature) : Prop where
  parameters : ∀ p ∈ sig.parameters, ∃ k, kindOf types p.2 = some k ∧ c.Passes k
  result : ∀ ty ∈ sig.returns, (resultOf types ty).isSome = true

/-- The registers and the stack of a convention. -/
def abi : Convention → Abi
  | .sysV => sysv64
  | .aapcs64 => aapcs64
  | .aapcs32 => aapcs32
  | .win64 => win64
  | .cdecl => x86_32 .cdecl

def placeOf : Storage → Place
  | .integer n => .core n
  | .float n => .vector n
  | .stack offset => .stack offset

/-- Two parameters share no register and no byte of the stack, and the first one is
    lower. -/
def Apart (a b : Parameter) : Prop :=
  (∀ s ∈ a.storage, s ∉ b.storage) ∧
    ∀ low high : ℤ, .stack low ∈ a.storage → .stack high ∈ b.storage → low + a.size ≤ high

/-- The places that a signature is given are those of its convention. -/
structure Assigned (c : Convention) (types : Types) (sig : Signature) : Prop where
  places : (classify types sig (abi c)).1.map (fun p => p.storage.map placeOf) =
    c.places (inMemory types sig) (kinds types sig)
  apart : (classify types sig (abi c)).1.Pairwise Apart
  hidden : inMemory types sig = true → ∀ r ∈ (abi c).indirectResult,
    (classify types sig (abi c)).2.2 = 1 ∧ (abi c).integerArguments[0]? = some r

/-! ### When a convention and the code agree -/

/-- What is known of the parameters so far: how many of each class there are, the
    hidden one among them, whether one is a `float`, whether the last one on the
    stack leaves half of its 8 bytes free, and the bytes on the stack. -/
structure Passed where
  integers : ℕ
  floats : ℕ
  single : Bool
  short : Bool
  stack : ℕ
deriving DecidableEq

/-- The next parameter is placed where the convention passes it. -/
def Suits : Convention → Passed → Kind → Prop
  | .sysV, p, .integer size => size ≤ 8 ∨ 6 ≤ p.integers ∧ 16 ∣ p.stack
  | .sysV, _, _ => True
  | .aapcs64, p, .integer size => size ≤ 8 ∨ 8 ≤ p.integers ∧ 16 ∣ p.stack
  | .aapcs64, _, _ => True
  | .aapcs32, p, .integer size =>
    (4 < size → 4 ≤ p.integers) ∧ (size ≤ 4 → 4 ≤ p.integers → p.short = false)
  | .aapcs32, p, .single => (p.single = true → 9 ≤ p.floats) ∧ (8 ≤ p.floats → p.short = false)
  | .aapcs32, _, .double => True
  | .win64, p, .integer _ => p.floats = 0 ∧ p.integers ≤ 4
  | .win64, p, _ => p.integers = 0 ∧ p.floats ≤ 4
  | .cdecl, p, _ => p.short = false

def Passed.next (c : Convention) (p : Passed) (k : Kind) : Passed :=
  match c, k with
  | .sysV, .integer size =>
    { p with integers := p.integers + 1, stack := if 6 ≤ p.integers then p.stack + alignUp size 8 else p.stack }
  | .aapcs64, .integer size =>
    { p with integers := p.integers + 1, stack := if 8 ≤ p.integers then p.stack + alignUp size 8 else p.stack }
  | .aapcs32, .integer size =>
    if 4 ≤ p.integers then
      { p with integers := p.integers + 1, stack := p.stack + 8, short := decide (size ≤ 4) }
    else { p with integers := p.integers + 1 }
  | .aapcs32, k =>
    if 8 ≤ p.floats then
      { p with floats := p.floats + 1, single := p.single || k == .single, stack := p.stack + 8,
               short := k == .single }
    else { p with floats := p.floats + 1, single := p.single || k == .single }
  | .win64, .integer _ => { p with integers := p.integers + 1 }
  | .cdecl, k => { p with stack := p.stack + 8, short := decide (k.size ≤ 4) }
  | .win64, _ => { p with floats := p.floats + 1 }
  | _, _ => { p with floats := p.floats + 1, stack := if 8 ≤ p.floats then p.stack + 8 else p.stack }

def Along (c : Convention) : Passed → List Kind → Prop
  | _, [] => True
  | p, k :: ks => Suits c p k ∧ Along c (p.next c k) ks

/-- Before the first parameter: the hidden pointer is an integer, or on the stack a
    word of 4 bytes. -/
def before (c : Convention) (memory : Bool) : Passed :=
  match c, memory with
  | .cdecl, memory => ⟨0, 0, false, memory, 0⟩
  | _, true => ⟨1, 0, false, false, 0⟩
  | _, false => ⟨0, 0, false, false, 0⟩

/-! ### The code on classes -/

/-- A parameter of a class is placed. -/
def placeKind (abi : Abi) (k : Kind) (st : Placing) : List Storage × Placing :=
  match k with
  | .integer size =>
    if st.integers < abi.integerArguments.length then
      ([.integer st.integers], { st with integers := st.integers + 1 })
    else onStack abi size st
  | k =>
    if st.floats < abi.floatArguments.length then ([.float st.floats], { st with floats := st.floats + 1 })
    else onStack abi k.size st

section
variable {types : Types} {ty : CType} {k : Kind}

private theorem sizeOf_resolve (fuel : ℕ) (ty : CType) :
    types.sizeOf wrapping (resolveFrom fuel ty) = types.sizeOf wrapping ty := by
  induction fuel generalizing ty with
  | zero => rfl
  | succ fuel ih =>
    cases ty with
    | typedef name inner => exact ih inner
    | qualified inner => exact ih inner
    | _ => rfl

private theorem size_eq (known : kindOf types ty = some k) : sizeOr0 types ty = k.size := by
  rw [sizeOr0, ← sizeOf_resolve 64 ty]
  unfold kindOf resolve at known
  cases seen : resolveFrom 64 ty with
  | float size =>
    rw [seen] at known
    dsimp only at known
    split at known
    · next four =>
      cases known
      rw [four]
      rfl
    split at known
    · next eight =>
      cases known
      rw [eight]
      rfl
    · cases known
  | bool | int | pointer | enum =>
    rw [seen] at known
    cases known
    rfl
  | _ =>
    rw [seen] at known
    cases known

theorem place_eq (abi : Abi) (st : Placing) (known : kindOf types ty = some k) :
    place abi (resolve ty) (sizeOr0 types ty) st = placeKind abi k st := by
  rw [size_eq known]
  unfold kindOf at known
  have one (h : ∀ size, registerCount (resolve ty) size abi = 1) (plain : wantsFloat (resolve ty) = false) (size : ℕ) :
      place abi (resolve ty) size st = placeKind abi (.integer size) st := by
    rw [place, inRegisters, plain, if_neg (by decide), placeKind]
    dsimp only
    rw [h]
    by_cases free : st.integers < abi.integerArguments.length
    · rw [if_pos free, if_pos (by omega)]
      rfl
    · rw [if_neg free, if_neg (by omega)]
  have wide (h : wantsFloat (resolve ty) = true) (k : Kind) (notInteger : ∀ size, k ≠ .integer size) :
      place abi (resolve ty) k.size st = placeKind abi k st := by
    rw [place, inRegisters, h, if_pos rfl]
    by_cases free : st.floats < abi.floatArguments.length
    · rw [if_pos free]
      cases k with
      | integer size => exact absurd rfl (notInteger size)
      | single | double => exact (if_pos free).symm
    · rw [if_neg free]
      cases k with
      | integer size => exact absurd rfl (notInteger size)
      | single | double => exact (if_neg free).symm
  cases seen : resolve ty with
  | float size =>
    rw [seen] at known wide
    dsimp only at known
    split at known
    · next four =>
      cases known
      exact wide (by rw [four]; decide) .single nofun
    split at known
    · next eight =>
      cases known
      exact wide (by rw [eight]; decide) .double nofun
    · cases known
  | bool | int | pointer | enum =>
    rw [seen] at known one
    cases known
    exact one (fun _ => rfl) rfl _
  | _ =>
    rw [seen] at known
    cases known
end

/-- The storages of parameters of some classes. -/
def slots (abi : Abi) : Placing → List Kind → List (List Storage)
  | _, [] => []
  | st, k :: ks => (placeKind abi k st).1 :: slots abi (placeKind abi k st).2 ks

/-! ### One parameter -/

/-- What the code and a convention have taken agrees with what is known. -/
def Linked : Convention → Passed → Placing → Used → Prop
  | .sysV, p, st, u => st = ⟨min p.integers 6, min p.floats 8, 8 + p.stack⟩ ∧
      u = ⟨min p.integers 6, min p.floats 8, none, p.stack⟩ ∧ 8 ∣ p.stack
  | .aapcs64, p, st, u => st = ⟨min p.integers 8, min p.floats 8, p.stack⟩ ∧
      u = ⟨min p.integers 8, min p.floats 8, none, p.stack⟩ ∧ 8 ∣ p.stack
  | .aapcs32, p, st, u => st = ⟨min p.integers 4, min p.floats 8, p.stack⟩ ∧
      u.core = min p.integers 4 ∧ u.vector = min p.floats 8 ∧ (u.half.isSome ↔ p.single = true ∧ p.floats ≤ 8) ∧
      8 ∣ p.stack ∧ u.stack + (if p.short then 4 else 0) = p.stack
  | .win64, p, st, u => st = ⟨min p.integers 4, min p.floats 4, 40 + 40 * (p.integers + p.floats - 4 : ℕ)⟩ ∧
      u = ⟨p.integers + p.floats, 0, none, 8 * (p.integers + p.floats - 4)⟩ ∧
      (p.integers = 0 ∨ p.floats = 0) ∧ p.integers + p.floats ≤ 5
  | .cdecl, p, st, u => st = ⟨0, 0, 4 + p.stack⟩ ∧ 4 ∣ u.stack ∧ (p.short = false ↔ u.stack = p.stack)

/-- One parameter is placed where it is passed exactly when it suits, and then what
    is known of the next ones stays true. -/
def Steps (c : Convention) (p : Passed) (st : Placing) (u : Used) (k : Kind) : Prop :=
  ((placeKind (abi c) k st).1.map placeOf = (c.pass k u).1 ↔ Suits c p k) ∧
    (Suits c p k → Linked c (p.next c k) (placeKind (abi c) k st).2 (c.pass k u).2)

section
variable {p : Passed} {st : Placing} {u : Used} {k : Kind}

/-- In slots of 8 bytes the code leaves no gap that a convention with such slots
    would not leave. -/
private theorem onStack_eq {abi : Abi} (slot : abi.slot = 8) {size : ℕ} (some : 1 ≤ size) :
    onStack abi size st = ([.stack st.stack], { st with stack := st.stack + (alignUp size 8 : ℕ) }) := by
  rw [onStack, slot, Nat.max_eq_left some, alignUp]

private theorem inArea_eq {origin slot align size core vector stack : ℕ} {half : Option ℕ}
    (aligned : alignUp stack align = stack) : inArea origin slot align size ⟨core, vector, half, stack⟩ =
      ([.stack ((origin + stack : ℕ) : ℤ)], ⟨core, vector, half, stack + alignUp size slot⟩) := by
  rw [inArea, aligned]

private theorem alignUp_of_dvd {n unit : ℕ} (positive : 0 < unit) (whole : unit ∣ n) : alignUp n unit = n := by
  obtain ⟨m, rfl⟩ := whole
  have cut : (unit * m + unit - 1) / unit = m := by
    rw [Nat.add_sub_assoc positive, Nat.mul_add_div positive, Nat.div_eq_of_lt (by omega), Nat.add_zero]
  rw [alignUp, cut, Nat.mul_comm]

private theorem dvd_alignUp (n unit : ℕ) : unit ∣ alignUp n unit := ⟨(n + unit - 1) / unit, Nat.mul_comm ..⟩

private theorem steps_sysV (linked : Linked .sysV p st u) (passes : Convention.sysV.Passes k) :
    Steps .sysV p st u k := by
  obtain ⟨rfl, rfl, whole⟩ := linked
  have here := alignUp_of_dvd (by decide) whole
  have six : (abi .sysV).integerArguments.length = 6 := rfl
  have eight : (abi .sysV).floatArguments.length = 8 := rfl
  have area {size : ℕ} (some : 1 ≤ size) (st : Placing) : onStack (abi .sysV) size st = _ := onStack_eq rfl some
  cases k with
  | integer size =>
    have some : 1 ≤ size := by unfold Convention.Passes at passes; omega
    have later := Nat.dvd_add whole (dvd_alignUp size 8)
    by_cases free : p.integers < 6
    · have low : min p.integers 6 = p.integers := by omega
      have next : min (p.integers + 1) 6 = p.integers + 1 := by omega
      by_cases narrow : size ≤ 8
      · simp [Steps, placeKind, six, Convention.pass, passSysV, narrow, low, next, free, Suits, Linked, Passed.next,
          placeOf, whole, not_le.mpr free]
      · have pair : ¬([Place.core p.integers] = [.core p.integers, .core (p.integers + 1)]) := by simp
        simp only [Steps, placeKind, six, low, free, if_true, Convention.pass, passSysV, narrow, if_false, Suits,
          List.map_cons, List.map_nil, placeOf, false_or, not_le.mpr free, false_and, iff_false, false_imp_iff,
          and_true]
        split
        · exact pair
        · simp [inArea]
    · have low : min p.integers 6 = 6 := by omega
      have next : min (p.integers + 1) 6 = 6 := by omega
      have above := not_lt.mp free
      by_cases narrow : size ≤ 8
      · simp [Steps, placeKind, six, area some, Convention.pass, passSysV, inArea_eq here, narrow, low, next, Suits,
          Linked, Passed.next, placeOf, above, later, Int.add_assoc]
      by_cases even : 16 ∣ p.stack
      · simp [Steps, placeKind, six, area some, Convention.pass, passSysV, inArea_eq (alignUp_of_dvd (by decide) even),
          narrow, low, next, Suits, Linked, Passed.next, placeOf, above, later, even, Int.add_assoc]
      · have apart : alignUp p.stack 16 ≠ p.stack := fun same => even (by rw [← same]; exact dvd_alignUp p.stack 16)
        simp [Steps, placeKind, six, area some, Convention.pass, passSysV, inArea, narrow, low, Suits, placeOf, even]
        omega
  | single | double =>
    by_cases free : p.floats < 8
    · have low : min p.floats 8 = p.floats := by omega
      have next : min (p.floats + 1) 8 = p.floats + 1 := by omega
      simp [Steps, placeKind, eight, Convention.pass, passSysV, low, next, free, Suits, Linked, Passed.next, placeOf,
        whole, not_le.mpr free]
    · have low : min p.floats 8 = 8 := by omega
      have next : min (p.floats + 1) 8 = 8 := by omega
      have above := not_lt.mp free
      have later := Nat.dvd_add whole (Nat.dvd_refl 8)
      simp [Steps, placeKind, eight, area, Convention.pass, passSysV, inArea_eq here, low, next, Suits, Linked,
        Passed.next, placeOf, above, later, Int.add_assoc, Kind.size, alignUp]

private theorem steps_aapcs64 (linked : Linked .aapcs64 p st u) (passes : Convention.aapcs64.Passes k) :
    Steps .aapcs64 p st u k := by
  obtain ⟨rfl, rfl, whole⟩ := linked
  have here := alignUp_of_dvd (by decide) whole
  have eight : (abi .aapcs64).integerArguments.length = 8 := rfl
  have eight' : (abi .aapcs64).floatArguments.length = 8 := rfl
  have area {size : ℕ} (some : 1 ≤ size) (st : Placing) : onStack (abi .aapcs64) size st = _ := onStack_eq rfl some
  cases k with
  | integer size =>
    have some : 1 ≤ size := by unfold Convention.Passes at passes; omega
    have later := Nat.dvd_add whole (dvd_alignUp size 8)
    by_cases free : p.integers < 8
    · have low : min p.integers 8 = p.integers := by omega
      have next : min (p.integers + 1) 8 = p.integers + 1 := by omega
      by_cases narrow : size ≤ 8
      · simp [Steps, placeKind, eight, Convention.pass, passAapcs64, narrow, low, next, free, Suits, Linked,
          Passed.next, placeOf, whole, not_le.mpr free]
      · simp only [Steps, placeKind, eight, low, free, if_true, Convention.pass, passAapcs64, narrow, if_false, Suits,
          List.map_cons, List.map_nil, placeOf, false_or, not_le.mpr free, false_and, iff_false, false_imp_iff,
          and_true]
        split
        · simp
        · simp [inArea]
    · have low : min p.integers 8 = 8 := by omega
      have next : min (p.integers + 1) 8 = 8 := by omega
      have above := not_lt.mp free
      by_cases narrow : size ≤ 8
      · simp [Steps, placeKind, eight, area some, Convention.pass, passAapcs64, inArea_eq here, narrow, low, next,
          Suits, Linked, Passed.next, placeOf, above, later]
      have pair : ¬alignUp 8 2 + 2 ≤ 8 := by decide
      by_cases even : 16 ∣ p.stack
      · simp [Steps, placeKind, eight, area some, Convention.pass, passAapcs64,
          inArea_eq (alignUp_of_dvd (by decide) even), narrow, low, next, Suits, Linked, Passed.next, placeOf, above,
          later, even, pair]
      · have apart : alignUp p.stack 16 ≠ p.stack := fun same => even (by rw [← same]; exact dvd_alignUp p.stack 16)
        simp [Steps, placeKind, eight, area some, Convention.pass, passAapcs64, inArea, narrow, low, Suits, placeOf,
          even, pair]
        omega
  | single | double =>
    by_cases free : p.floats < 8
    · have low : min p.floats 8 = p.floats := by omega
      have next : min (p.floats + 1) 8 = p.floats + 1 := by omega
      simp [Steps, placeKind, eight', Convention.pass, passAapcs64, low, next, free, Suits, Linked, Passed.next,
        placeOf, whole, not_le.mpr free]
    · have low : min p.floats 8 = 8 := by omega
      have next : min (p.floats + 1) 8 = 8 := by omega
      have above := not_lt.mp free
      have later := Nat.dvd_add whole (Nat.dvd_refl 8)
      simp [Steps, placeKind, eight', area, Convention.pass, passAapcs64, inArea_eq here, low, next, Suits, Linked,
        Passed.next, placeOf, above, later, Kind.size, alignUp]

private theorem steps_cdecl (linked : Linked .cdecl p st u) (passes : Convention.cdecl.Passes k) :
    Steps .cdecl p st u k := by
  obtain ⟨rfl, words, lined⟩ := linked
  have here := alignUp_of_dvd (by decide) words
  have later := Nat.dvd_add words (dvd_alignUp k.size 4)
  have some : 1 ≤ k.size ∧ k.size ≤ 8 := by
    cases k with
    | integer size =>
      unfold Convention.Passes at passes
      simp only [Kind.size]
      simp at passes
      omega
    | single | double => decide
  have whole : alignUp k.size 8 = 8 := by
    unfold alignUp
    omega
  have half : alignUp k.size 4 = if k.size ≤ 4 then 4 else 8 := by
    unfold alignUp
    split <;> omega
  have code : placeKind (abi .cdecl) k ⟨0, 0, 4 + p.stack⟩ =
      ([.stack (4 + p.stack)], ⟨0, 0, 4 + (p.stack + 8 : ℕ)⟩) := by
    have area : onStack (abi .cdecl) k.size ⟨0, 0, 4 + p.stack⟩ = _ := onStack_eq rfl some.1
    rw [whole, Int.add_assoc] at area
    cases k with
    | integer size => exact area
    | single | double => exact area
  rw [Steps, code, Convention.pass, passCdecl, inArea, here]
  constructor
  · simp [placeOf, Suits, lined]
    omega
  · intro suits
    rw [Suits] at suits
    have same := lined.mp suits
    refine ⟨rfl, later, ?_⟩
    rw [Passed.next, half]
    simp only [decide_eq_false_iff_not, same]
    split <;> omega

/-- The code's slots of this convention have 40 bytes, those of the convention 8. -/
private theorem onStack_win64 {size : ℕ} (fits : size ≤ 40) :
    onStack (abi .win64) size st = ([.stack st.stack], { st with stack := st.stack + 40 }) := by
  have slot : (abi .win64).slot = 40 := rfl
  have width : (max size 1 + 40 - 1) / 40 * 40 = 40 := by omega
  rw [onStack, slot, width]
  rfl

private theorem steps_win64 (linked : Linked .win64 p st u) (passes : Convention.win64.Passes k) :
    Steps .win64 p st u k := by
  obtain ⟨rfl, rfl, one, few⟩ := linked
  have four : (abi .win64).integerArguments.length = 4 := rfl
  have four' : (abi .win64).floatArguments.length = 4 := rfl
  cases k with
  | integer size =>
    have fits : size ≤ 40 := by
      unfold Convention.Passes at passes
      omega
    have area (st : Placing) : onStack (abi .win64) size st = _ := onStack_win64 fits
    by_cases mixed : p.floats = 0
    · simp only [Steps, placeKind, four, Convention.pass, passWin64, mixed, Nat.add_zero, Suits, true_and]
      by_cases free : p.integers < 4
      · have low : min p.integers 4 = p.integers := by omega
        have next : min (p.integers + 1) 4 = p.integers + 1 := by omega
        have none : p.integers - 4 = 0 := by omega
        have none' : p.integers + 1 - 4 = 0 := by omega
        simp [low, free, placeOf, Linked, Passed.next, next, mixed, none, none']
        omega
      · have low : min p.integers 4 = 4 := by omega
        by_cases last : p.integers = 4
        · simp [last, area, placeOf, inArea, alignUp, Linked, Passed.next, mixed]
        · have five : p.integers = 5 := by omega
          simp [five, area, placeOf, inArea, alignUp]
    · have zero : p.integers = 0 := one.resolve_right mixed
      simp only [Steps, placeKind, four, Convention.pass, passWin64, mixed, zero, Nat.zero_add, Suits, false_and,
        iff_false, false_imp_iff, and_true]
      rw [if_pos (by decide)]
      split
      · simp [placeOf]
        omega
      · simp [placeOf, inArea]
  | single | double =>
    have area (st : Placing) {size : ℕ} (fits : size ≤ 40) : onStack (abi .win64) size st = _ := onStack_win64 fits
    by_cases mixed : p.integers = 0
    · simp only [Steps, placeKind, four', Convention.pass, passWin64, mixed, Nat.zero_add, Suits, true_and]
      by_cases free : p.floats < 4
      · have low : min p.floats 4 = p.floats := by omega
        have next : min (p.floats + 1) 4 = p.floats + 1 := by omega
        have none : p.floats - 4 = 0 := by omega
        have none' : p.floats + 1 - 4 = 0 := by omega
        simp [low, free, placeOf, Linked, Passed.next, next, mixed, none, none']
        omega
      · have low : min p.floats 4 = 4 := by omega
        by_cases last : p.floats = 4
        · simp [last, area, placeOf, inArea, alignUp, Linked, Passed.next, mixed, Kind.size]
        · have five : p.floats = 5 := by omega
          simp [five, area, placeOf, inArea, alignUp, Kind.size]
    · have zero : p.floats = 0 := one.resolve_left mixed
      simp only [Steps, placeKind, four', Convention.pass, passWin64, mixed, zero, Nat.add_zero, Suits, false_and,
        iff_false, false_imp_iff, and_true]
      rw [if_pos (by decide)]
      split
      · simp [placeOf]
        omega
      · simp [placeOf, inArea]

private theorem steps_aapcs32 (linked : Linked .aapcs32 p st u) (passes : Convention.aapcs32.Passes k) :
    Steps .aapcs32 p st u k := by
  obtain ⟨core, vector, half, used⟩ := u
  obtain ⟨rfl, rfl, rfl, halves, whole, gap⟩ := linked
  dsimp only at halves gap
  have four : (abi .aapcs32).integerArguments.length = 4 := rfl
  have eight : (abi .aapcs32).floatArguments.length = 8 := rfl
  have area {size : ℕ} (some : 1 ≤ size) (st : Placing) : onStack (abi .aapcs32) size st = _ := onStack_eq rfl some
  have words : 4 ∣ used := by
    split at gap <;> omega
  have here := alignUp_of_dvd (by decide) words
  have up : alignUp used 8 = p.stack := by
    unfold alignUp
    split at gap <;> omega
  have same : p.short = false → used = p.stack := by
    intro none
    rw [none] at gap
    simpa using gap
  have lined : (p.stack : ℤ) = used ↔ p.short = false := by
    refine ⟨?_, fun none => by rw [same none]⟩
    intro none
    rw [← Bool.not_eq_true]
    intro short
    rw [if_pos short] at gap
    omega
  have later := Nat.dvd_add whole (Nat.dvd_refl 8)
  cases k with
  | integer size =>
    have some : 1 ≤ size ∧ size ≤ 8 := by
      simp [Convention.Passes] at passes
      omega
    have width : alignUp size 8 = 8 := by
      unfold alignUp
      omega
    by_cases free : p.integers < 4
    · have low : min p.integers 4 = p.integers := by omega
      have next : min (p.integers + 1) 4 = p.integers + 1 := by omega
      by_cases narrow : size ≤ 4
      · simp [Steps, placeKind, four, Convention.pass, passAapcs32, narrow, low, next, free, Suits, Linked, Passed.next,
          placeOf, halves, whole, gap, not_le.mpr free, not_lt.mpr narrow]
      · simp only [Steps, placeKind, four, low, free, if_true, Convention.pass, passAapcs32, narrow, if_false, Suits,
          List.map_cons, List.map_nil, placeOf, not_le.mpr free, not_le.mp narrow, false_imp_iff, true_imp_iff,
          and_true, iff_false]
        split
        · simp
        · simp [inArea]
    · have low : min p.integers 4 = 4 := by omega
      have next : min (p.integers + 1) 4 = 4 := by omega
      have above := not_lt.mp free
      by_cases narrow : size ≤ 4
      · have word : alignUp size 4 = 4 := by
          unfold alignUp
          omega
        simp [Steps, placeKind, four, area some.1, width, Convention.pass, passAapcs32, inArea_eq here, word, narrow,
          low, next, Suits, Linked, Passed.next, placeOf, halves, above, later, not_lt.mpr narrow, lined]
        exact same
      · have pair : ¬alignUp 4 2 + 2 ≤ 4 := by decide
        have double : alignUp size 4 = 8 := by
          unfold alignUp
          omega
        simp [Steps, placeKind, four, area some.1, width, Convention.pass, passAapcs32, inArea, up, double, narrow, low,
          next, Suits, Linked, Passed.next, placeOf, halves, above, later, pair]
  | single =>
    by_cases back : p.single = true ∧ p.floats ≤ 8
    · obtain ⟨n, rfl⟩ := Option.isSome_iff_exists.mp (halves.mpr back)
      simp only [Steps, placeKind, eight, Convention.pass, passAapcs32, Suits, back.1, true_imp_iff,
        not_le.mpr (Nat.lt_succ_of_le back.2), false_and, iff_false, false_imp_iff, and_true]
      split
      · simp [placeOf]
      · simp [area, placeOf, Kind.size]
    · obtain rfl : half = none := by
        rw [← Option.not_isSome_iff_eq_none, halves]
        exact back
      by_cases free : p.floats < 8
      · have low : min p.floats 8 = p.floats := by omega
        have next : min (p.floats + 1) 8 = p.floats + 1 := by omega
        have first : ¬p.single = true := fun single => back ⟨single, by omega⟩
        have few : p.floats ≤ 7 := Nat.le_of_lt_succ free
        simp [Steps, placeKind, eight, Convention.pass, passAapcs32, low, next, free, Suits, Linked, Passed.next,
          placeOf, whole, gap, first, few, not_le.mpr free]
      · have low : min p.floats 8 = 8 := by omega
        have next : min (p.floats + 1) 8 = 8 := by omega
        have above := not_lt.mp free
        have past : p.single = true → 9 ≤ p.floats := by
          intro single
          by_contra few
          exact back ⟨single, by omega⟩
        have widths : alignUp 4 8 = 8 ∧ alignUp 4 4 = 4 := by decide
        simp [Steps, placeKind, eight, area, Convention.pass, passAapcs32, inArea_eq here, low, next, Suits, Linked,
          Passed.next, placeOf, above, later, Kind.size, lined, eq_true past, widths, Nat.lt_of_succ_le above]
        exact same
  | double =>
    by_cases free : p.floats < 8
    · have low : min p.floats 8 = p.floats := by omega
      have next : min (p.floats + 1) 8 = p.floats + 1 := by omega
      have few : p.floats ≤ 7 ∧ p.floats ≤ 8 := by omega
      simp [Steps, placeKind, eight, Convention.pass, passAapcs32, low, next, free, Suits, Linked, Passed.next, placeOf,
        whole, gap, halves, few, not_le.mpr free]
    · have low : min p.floats 8 = 8 := by omega
      have next : min (p.floats + 1) 8 = 8 := by omega
      have above := not_lt.mp free
      have widths : alignUp 8 8 = 8 ∧ alignUp 8 4 = 8 := by decide
      simp [Steps, placeKind, eight, area, Convention.pass, passAapcs32, inArea, up, low, next, Suits, Linked,
        Passed.next, placeOf, above, later, Kind.size, widths, Nat.lt_of_succ_le above]

private theorem steps {c : Convention} (linked : Linked c p st u) (passes : c.Passes k) : Steps c p st u k := by
  cases c with
  | sysV => exact steps_sysV linked passes
  | aapcs64 => exact steps_aapcs64 linked passes
  | aapcs32 => exact steps_aapcs32 linked passes
  | win64 => exact steps_win64 linked passes
  | cdecl => exact steps_cdecl linked passes

/-- Parameters are placed where they are passed exactly when each suits after those
    before it. -/
theorem slots_iff {c : Convention} {ks : List Kind} (passes : ∀ k ∈ ks, c.Passes k) (linked : Linked c p st u) :
    (slots (abi c) st ks).map (List.map placeOf) = c.placesFrom u ks ↔ Along c p ks := by
  induction ks generalizing p st u with
  | nil => exact ⟨fun _ => trivial, fun _ => rfl⟩
  | cons k ks ih =>
    obtain ⟨same, next⟩ := steps linked (passes k (List.mem_cons_self ..))
    rw [slots, List.map_cons, Convention.placesFrom, List.cons.injEq, same, Along]
    constructor
    · rintro ⟨suits, rest⟩
      exact ⟨suits, (ih (fun k member => passes k (List.mem_cons_of_mem _ member)) (next suits)).mp rest⟩
    · rintro ⟨suits, rest⟩
      exact ⟨suits, (ih (fun k member => passes k (List.mem_cons_of_mem _ member)) (next suits)).mpr rest⟩
end

end E5r.PrototypePlaces
