import Mathlib.Data.Int.Basic

/-!
Where five calling conventions pass integers, pointers, `float` and `double`:
System V on x86-64, the 64-bit and the 32-bit ARM convention with its floating
point registers, the Microsoft x64 convention, and `cdecl`.
-/
namespace E5r.CallingConventions

inductive Convention where
  | sysV | aapcs64 | aapcs32 | win64 | cdecl
deriving DecidableEq

/-- A parameter as a convention sees it: an integer or a pointer of some bytes, a
    `float` or a `double`. -/
inductive Kind where
  | integer (size : ℕ)
  | single
  | double
deriving DecidableEq

def Kind.size : Kind → ℕ
  | .integer size => size
  | .single => 4
  | .double => 8

/-- A place of a convention: a register, the upper half of a vector register, or an
    offset from the stack pointer at entry. -/
inductive Place where
  | core (n : ℕ)
  | vector (n : ℕ)
  | upperHalf (n : ℕ)
  | stack (offset : ℤ)
deriving DecidableEq

/-- What the arguments so far have taken: registers, a vector register whose upper
    half is free, and bytes of the argument area. -/
structure Used where
  core : ℕ
  vector : ℕ
  half : Option ℕ
  stack : ℕ
deriving DecidableEq

def alignUp (n unit : ℕ) : ℕ := (n + unit - 1) / unit * unit

/-- An argument in the argument area, which starts at an origin: aligned, and in
    slots of some bytes. -/
def inArea (origin slot align size : ℕ) (u : Used) : List Place × Used :=
  ([.stack ((origin + alignUp u.stack align : ℕ) : ℤ)], { u with stack := alignUp u.stack align + alignUp size slot })

/-- Integers of 16 bytes take two registers or none. -/
def passSysV : Kind → Used → List Place × Used
  | .integer size, u =>
    if size ≤ 8 then
      if u.core < 6 then ([.core u.core], { u with core := u.core + 1 }) else inArea 8 8 8 size u
    else if u.core + 2 ≤ 6 then ([.core u.core, .core (u.core + 1)], { u with core := u.core + 2 })
    else inArea 8 8 16 size u
  | k, u => if u.vector < 8 then ([.vector u.vector], { u with vector := u.vector + 1 }) else inArea 8 8 8 k.size u

/-- Integers of 16 bytes take two registers from an even one on. -/
def passAapcs64 : Kind → Used → List Place × Used
  | .integer size, u =>
    if size ≤ 8 then
      if u.core < 8 then ([.core u.core], { u with core := u.core + 1 }) else inArea 0 8 8 size u
    else
      let first := alignUp u.core 2
      if first + 2 ≤ 8 then ([.core first, .core (first + 1)], { u with core := first + 2 })
      else inArea 0 8 16 size { u with core := 8 }
  | k, u => if u.vector < 8 then ([.vector u.vector], { u with vector := u.vector + 1 }) else inArea 0 8 8 k.size u

/-- Integers of 8 bytes take two registers from an even one on. A `float` takes
    the free half of a vector register, and no vector register is used after an
    argument that found none. -/
def passAapcs32 : Kind → Used → List Place × Used
  | .integer size, u =>
    if size ≤ 4 then
      if u.core < 4 then ([.core u.core], { u with core := u.core + 1 }) else inArea 0 4 4 size u
    else
      let first := alignUp u.core 2
      if first + 2 ≤ 4 then ([.core first, .core (first + 1)], { u with core := first + 2 })
      else inArea 0 4 8 size { u with core := 4 }
  | .single, u =>
    match u.half with
    | some n => ([.upperHalf n], { u with half := none })
    | none =>
      if u.vector < 8 then ([.vector u.vector], { u with vector := u.vector + 1, half := some u.vector })
      else inArea 0 4 4 4 u
  | .double, u =>
    if u.vector < 8 then ([.vector u.vector], { u with vector := u.vector + 1 })
    else inArea 0 4 8 8 { u with half := none }

/-- The first four positions are in registers, of either file, and an integer of 16
    bytes is passed by its address. -/
def passWin64 (k : Kind) (u : Used) : List Place × Used :=
  if u.core < 4 then
    ([match k with | .integer _ => .core u.core | _ => .vector u.core], { u with core := u.core + 1 })
  else inArea 40 8 8 8 { u with core := u.core + 1 }

def passCdecl (k : Kind) (u : Used) : List Place × Used := inArea 4 4 4 k.size u

def Convention.pass : Convention → Kind → Used → List Place × Used
  | .sysV => passSysV
  | .aapcs64 => passAapcs64
  | .aapcs32 => passAapcs32
  | .win64 => passWin64
  | .cdecl => passCdecl

/-- What the address of a result in memory has taken: the first register, the first
    word of the stack, or a register of its own. -/
def Convention.start (c : Convention) (memory : Bool) : Used :=
  match c, memory with
  | .aapcs64, true => ⟨0, 0, none, 0⟩
  | .cdecl, true => ⟨0, 0, none, 4⟩
  | _, true => ⟨1, 0, none, 0⟩
  | _, false => ⟨0, 0, none, 0⟩

def Convention.placesFrom (c : Convention) : Used → List Kind → List (List Place)
  | _, [] => []
  | u, k :: ks => (c.pass k u).1 :: c.placesFrom (c.pass k u).2 ks

def Convention.places (c : Convention) (memory : Bool) (ks : List Kind) : List (List Place) :=
  c.placesFrom (c.start memory) ks

/-- The integers and pointers of a convention: the 32-bit ones have none of 16
    bytes. -/
def Convention.Passes (c : Convention) : Kind → Prop
  | .integer size => size = 1 ∨ size = 2 ∨ size = 4 ∨ size = 8 ∨ size = 16 ∧ c ≠ .aapcs32 ∧ c ≠ .cdecl
  | _ => True

end E5r.CallingConventions
