import Mathlib.Algebra.GroupWithZero.Nat
import Mathlib.Algebra.BigOperators.Group.List.Basic

/-!
Byte positions in a text. A text is sliced by byte positions in its UTF-8 form,
and a position inside a character cannot be sliced at.
-/
namespace E5r.TextSlices

/-- `str::len` -/
def byteLen (s : List Char) : ℕ := (s.map Char.utf8Size).sum

/-- `str::split_at`; none is a panic. -/
def splitAtByte : ℕ → List Char → Option (List Char × List Char)
  | 0, s => some ([], s)
  | _ + 1, [] => none
  | n + 1, c :: rest =>
    if c.utf8Size ≤ n + 1 then (splitAtByte (n + 1 - c.utf8Size) rest).map fun (a, b) => (c :: a, b) else none

/-- `&s[i..j]`; none is a panic. -/
def slice (s : List Char) (i j : ℕ) : Option (List Char) := do
  let (_, tail) ← splitAtByte i s
  let (middle, _) ← splitAtByte (j - i) tail
  return middle

/-- `str::find` of a text that is not empty, with both sides of the place found. -/
def splitAtFirst (p : List Char) : List Char → Option (List Char × List Char)
  | [] => none
  | c :: rest =>
    if p.isPrefixOf (c :: rest) then some ([], c :: rest)
    else (splitAtFirst p rest).map fun (a, b) => (c :: a, b)

variable {s a b : List Char} {i j n : ℕ}

@[simp] theorem byteLen_nil : byteLen [] = 0 := rfl

@[simp] theorem byteLen_cons (c : Char) (s : List Char) : byteLen (c :: s) = c.utf8Size + byteLen s := by
  simp [byteLen]

@[simp] theorem byteLen_append (a b : List Char) : byteLen (a ++ b) = byteLen a + byteLen b := by
  simp [byteLen]

theorem byteLen_eq_zero : byteLen s = 0 ↔ s = [] := by
  cases s with
  | nil => simp
  | cons c rest =>
    have := c.utf8Size_pos
    rw [byteLen_cons]
    constructor
    · intro zero
      omega
    · intro absurd
      cases absurd

theorem splitAtByte_eq_some_iff : splitAtByte n s = some (a, b) ↔ s = a ++ b ∧ byteLen a = n := by
  fun_induction splitAtByte n s generalizing a b with
  | case1 s =>
    rw [Option.some_inj, Prod.mk.injEq, byteLen_eq_zero]
    constructor
    · rintro ⟨rfl, rfl⟩
      exact ⟨rfl, rfl⟩
    · rintro ⟨rfl, rfl⟩
      exact ⟨rfl, rfl⟩
  | case2 n =>
    constructor
    · intro absurd
      cases absurd
    · rintro ⟨whole, size⟩
      obtain ⟨rfl, -⟩ := List.append_eq_nil_iff.mp whole.symm
      cases size
  | case3 n c rest fits ih =>
    rw [Option.map_eq_some_iff]
    constructor
    · rintro ⟨⟨x, y⟩, split, same⟩
      obtain ⟨rfl, rfl⟩ := Prod.mk.inj same
      obtain ⟨rfl, size⟩ := ih.mp split
      exact ⟨rfl, by rw [byteLen_cons, size]; omega⟩
    · rintro ⟨whole, size⟩
      cases a with
      | nil => cases size
      | cons d a =>
        obtain ⟨rfl, rfl⟩ := List.cons.inj whole
        rw [byteLen_cons] at size
        exact ⟨(a, b), ih.mpr ⟨rfl, by omega⟩, rfl⟩
  | case4 n c rest large =>
    constructor
    · intro absurd
      cases absurd
    · rintro ⟨whole, size⟩
      cases a with
      | nil => cases size
      | cons d a =>
        obtain ⟨rfl, rfl⟩ := List.cons.inj whole
        rw [byteLen_cons] at size
        omega

theorem splitAtByte_append (a b : List Char) : splitAtByte (byteLen a) (a ++ b) = some (a, b) :=
  splitAtByte_eq_some_iff.mpr ⟨rfl, rfl⟩

theorem slice_append (a b : List Char) (n : ℕ) :
    slice (a ++ b) (byteLen a) (byteLen a + n) = (splitAtByte n b).map Prod.fst := by
  simp only [slice, splitAtByte_append, Option.bind_eq_bind, Option.bind_some, Nat.add_sub_cancel_left]
  cases splitAtByte n b with
  | none => rfl
  | some parts => rfl

end E5r.TextSlices
