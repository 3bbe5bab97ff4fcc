import Mathlib.Tactic.Ring
import Mathlib.Tactic.Linarith

/-!
A cursor over bytes, `Reader` of `e5r-core`, as the readers of debug sections use it:
a read that fails is `none`. A read *takes* some bytes when it gives the same value
wherever they are next and moves over them.
-/
namespace E5r.Cursor

inductive Endian where
  | little | big
deriving DecidableEq

structure Cur where
  data : List UInt8
  pos : ℕ
  endian : Endian
deriving DecidableEq

namespace Cur
def new (data : List UInt8) (endian : Endian) : Cur := ⟨data, 0, endian⟩

/-- The bytes from the cursor on. -/
def rest (c : Cur) : List UInt8 := c.data.drop c.pos

def isEmpty (c : Cur) : Bool := c.rest.isEmpty

/-- Move to an offset, clamped to the end of the data. -/
def seek (c : Cur) (at_ : ℕ) : Cur := { c with pos := min at_ c.data.length }

def advance (c : Cur) (n : ℕ) : Cur := { c with pos := c.pos + n }
end Cur

abbrev Read := StateT Cur Option

/-- The value of little-endian bytes. -/
def leNat : List UInt8 → ℕ
  | [] => 0
  | b :: bs => b.toNat + 256 * leNat bs

theorem leNat_lt (bs : List UInt8) : leNat bs < 256 ^ bs.length := by
  induction bs with
  | nil => exact Nat.one_pos
  | cons b bs ih =>
    have byte := b.toNat_lt
    rw [leNat, List.length_cons, Nat.pow_succ]
    omega

/-- The value of bytes in an order. -/
def toNat (e : Endian) (bs : List UInt8) : ℕ :=
  match e with
  | .little => leNat bs
  | .big => leNat bs.reverse

def bytes (n : ℕ) : Read (List UInt8) := fun c =>
  if n ≤ c.rest.length then some (c.rest.take n, c.advance n) else none

/-- An unsigned number of some bytes in the cursor's order. -/
def word (n : ℕ) : Read ℕ := fun c => do
  let (bs, c) ← bytes n c
  some (toNat c.endian bs, c)

def u8 : Read ℕ := word 1
def u16 : Read ℕ := word 2
def u32 : Read ℕ := word 4
def u64 : Read ℕ := word 8

def position : Read ℕ := fun c => some (c.pos, c)
def seek (at_ : ℕ) : Read Unit := fun c => some ((), c.seek at_)

/-- The groups of `uleb128` from a shift on, over what is read so far: the value and how
    many bytes it took. -/
def ulebFrom (shift out : ℕ) : List UInt8 → Option (ℕ × ℕ)
  | [] => none
  | b :: bs =>
    let low := b.toNat % 128
    if 64 ≤ shift ∧ low ≠ 0 then none
    else
      let out := if shift < 64 then out ||| (low <<< shift) % 2 ^ 64 else out
      let shift := shift + 7
      if b.toNat < 128 then some (out, 1)
      else if 70 < shift then none
      else (ulebFrom shift out bs).map (fun (v, n) => (v, n + 1))

def uleb128 : Read ℕ := fun c => (ulebFrom 0 0 c.rest).map (fun (v, n) => (v, c.advance n))

/-- The `i64` of 64 bits. -/
def toI64 (v : ℕ) : ℤ := Int.bmod v (2 ^ 64)

/-- The groups of `sleb128` from a shift on. -/
def slebFrom (shift out : ℕ) : List UInt8 → Option (ℤ × ℕ)
  | [] => none
  | b :: bs =>
    let out := if shift < 64 then out ||| ((b.toNat % 128) <<< shift) % 2 ^ 64 else out
    let shift := shift + 7
    if b.toNat < 128 then
      some (toI64 (if shift < 64 ∧ 64 ≤ b.toNat % 128 then out ||| (2 ^ 64 - 2 ^ shift) else out), 1)
    else if 70 < shift then none
    else (slebFrom shift out bs).map (fun (v, n) => (v, n + 1))

def sleb128 : Read ℤ := fun c => (slebFrom 0 0 c.rest).map (fun (v, n) => (v, c.advance n))

/-- The bytes of a string up to its terminator, which is read, too. -/
def cstr : Read (List UInt8) := fun c =>
  if 0 ∈ c.rest then
    let s := c.rest.takeWhile (· ≠ 0)
    some (s, c.advance (s.length + 1))
  else none

/-- A read gives a value for some bytes, whatever follows them. -/
def Takes {α : Type} (e : Endian) (m : Read α) (bs : List UInt8) (v : α) : Prop :=
  ∀ c rest, c.endian = e → c.rest = bs ++ rest → m c = some (v, c.advance bs.length)

namespace Cur
theorem rest_advance {c : Cur} {bs rest : List UInt8} (here : c.rest = bs ++ rest) :
    (c.advance bs.length).rest = rest := by
  show c.data.drop (c.pos + bs.length) = rest
  rw [← List.drop_drop]
  show c.rest.drop bs.length = rest
  rw [here, List.drop_left' rfl]

@[simp] theorem endian_advance (c : Cur) (n : ℕ) : (c.advance n).endian = c.endian := rfl
@[simp] theorem data_advance (c : Cur) (n : ℕ) : (c.advance n).data = c.data := rfl
@[simp] theorem pos_advance (c : Cur) (n : ℕ) : (c.advance n).pos = c.pos + n := rfl
@[simp] theorem endian_seek (c : Cur) (n : ℕ) : (c.seek n).endian = c.endian := rfl
@[simp] theorem data_seek (c : Cur) (n : ℕ) : (c.seek n).data = c.data := rfl

theorem advance_zero (c : Cur) : c.advance 0 = c := rfl

theorem advance_advance (c : Cur) (m n : ℕ) : (c.advance m).advance n = c.advance (m + n) := by
  unfold advance
  simp only [Nat.add_assoc]

theorem seek_advance {c : Cur} {bs rest : List UInt8} (here : c.rest = bs ++ rest) (nonempty : bs ≠ []) :
    c.seek (c.pos + bs.length) = c.advance bs.length := by
  have length : c.data.length - c.pos = bs.length + rest.length := by
    rw [← List.length_append, ← here]
    exact List.length_drop.symm
  have positive := List.length_pos_iff.mpr nonempty
  unfold seek advance
  rw [Nat.min_eq_left (by omega)]
end Cur

section
variable {α β : Type} {e : Endian}

theorem Takes.pure (v : α) : Takes e (pure v : Read α) [] v := fun _ _ _ _ => rfl

theorem Takes.bind {m : Read α} {f : α → Read β} {bs cs : List UInt8} {v : α} {w : β} (first : Takes e m bs v)
    (second : Takes e (f v) cs w) : Takes e (m >>= f) (bs ++ cs) w := by
  intro c rest order here
  rw [List.append_assoc] at here
  have middle := first c (cs ++ rest) order here
  have last := second (c.advance bs.length) rest order (Cur.rest_advance here)
  show (m c >>= fun r => f r.1 r.2) = _
  rw [middle]
  show f v (c.advance bs.length) = _
  rw [last, Cur.advance_advance, List.length_append]

theorem Takes.map {m : Read α} {bs : List UInt8} {v : α} (first : Takes e m bs v) (f : α → β) :
    Takes e (f <$> m) bs (f v) := by
  intro c rest order here
  show (m c >>= fun r => some (f r.1, r.2)) = _
  rw [first c rest order here]
  rfl

theorem takes_bytes (bs : List UInt8) : Takes e (bytes bs.length) bs bs := by
  intro c rest order here
  unfold bytes
  rw [if_pos (by rw [here, List.length_append]; omega), here, List.take_left' rfl]

theorem takes_word (bs : List UInt8) : Takes e (word bs.length) bs (toNat e bs) := by
  intro c rest order here
  unfold word
  rw [takes_bytes bs c rest order here]
  show some (toNat c.endian bs, _) = _
  rw [order]

theorem toNat_single (b : UInt8) : toNat e [b] = b.toNat := by
  cases e with
  | little => simp [toNat, leNat]
  | big => simp [toNat, leNat]

theorem takes_u8 (b : UInt8) : Takes e u8 [b] b.toNat := by
  have := takes_word (e := e) [b]
  rwa [toNat_single] at this

theorem takes_cstr {s : List UInt8} (plain : 0 ∉ s) : Takes e cstr (s ++ [0]) s := by
  intro c rest order here
  have text : c.rest.takeWhile (· ≠ 0) = s := by
    rw [here, List.append_assoc, List.takeWhile_append_of_pos]
    · simp
    · intro b member
      have : b ≠ 0 := fun zero => plain (zero ▸ member)
      simpa using this
  unfold cstr
  rw [if_pos (by rw [here]; simp)]
  simp only [text]
  simp

/-- The bytes of an unsigned number: groups of seven bits, the lowest first, every byte
    but the last with its high bit set. -/
inductive Uleb : List UInt8 → ℕ → Prop where
  | last {b : UInt8} (small : b.toNat < 128) : Uleb [b] b.toNat
  | more {b : UInt8} {bs : List UInt8} {v : ℕ} (large : 128 ≤ b.toNat) (groups : Uleb bs v) :
    Uleb (b :: bs) (b.toNat - 128 + 128 * v)

/-- The bytes of a signed number: the last group carries the sign. -/
inductive Sleb : List UInt8 → ℤ → Prop where
  | last {b : UInt8} (small : b.toNat < 128) : Sleb [b] (if b.toNat < 64 then b.toNat else b.toNat - 128)
  | more {b : UInt8} {bs : List UInt8} {v : ℤ} (large : 128 ≤ b.toNat) (groups : Sleb bs v) :
    Sleb (b :: bs) (b.toNat - 128 + 128 * v)

theorem or_group {shift out low : ℕ} (below : out < 2 ^ shift) (fits : low * 2 ^ shift < 2 ^ 64) :
    out ||| (low <<< shift) % 2 ^ 64 = out + low * 2 ^ shift := by
  rw [Nat.shiftLeft_eq, Nat.mod_eq_of_lt fits, Nat.or_comm, ← Nat.shiftLeft_eq, ← Nat.shiftLeft_add_eq_or_of_lt below,
    Nat.shiftLeft_eq, Nat.add_comm]

theorem pow_group (k : ℕ) : 2 ^ (7 * (k + 1)) = 128 * 2 ^ (7 * k) := by
  rw [Nat.mul_add, Nat.pow_add, Nat.mul_comm]

theorem ulebFrom_spec {bs : List UInt8} {v : ℕ} (groups : Uleb bs v) : ∀ {k out : ℕ} (rest : List UInt8),
    out < 2 ^ (7 * k) → k + bs.length ≤ 11 → out + v * 2 ^ (7 * k) < 2 ^ 64 →
    ulebFrom (7 * k) out (bs ++ rest) = some (out + v * 2 ^ (7 * k), bs.length) := by
  -- one group: it is a whole number of its own or the bits past the 64th are zero
  have group : ∀ {k out low : ℕ}, out < 2 ^ (7 * k) → out + low * 2 ^ (7 * k) < 2 ^ 64 →
      ¬(64 ≤ 7 * k ∧ low ≠ 0) ∧
        (if 7 * k < 64 then out ||| (low <<< (7 * k)) % 2 ^ 64 else out) = out + low * 2 ^ (7 * k) := by
    intro k out low below fits
    by_cases inside : 7 * k < 64
    · rw [if_pos inside, or_group below (by omega)]
      exact ⟨by omega, rfl⟩
    · have large : 2 ^ 64 ≤ 2 ^ (7 * k) := Nat.pow_le_pow_right (by decide) (by omega)
      have zero : low = 0 := by
        by_contra some
        have := Nat.mul_le_mul (Nat.one_le_iff_ne_zero.mpr some) large
        omega
      rw [if_neg inside]
      simp [zero]
  induction groups with
  | @last b small =>
    intro k out rest below bound fits
    obtain ⟨inside, value⟩ := group below fits
    rw [List.singleton_append, ulebFrom]
    simp only [Nat.mod_eq_of_lt small]
    rw [if_neg inside, value, if_pos small]
    rfl
  | @more b bs v large groups ih =>
    intro k out rest below bound fits
    have byte := b.toNat_lt
    have low : b.toNat % 128 = b.toNat - 128 := by omega
    have split : out + (b.toNat - 128 + 128 * v) * 2 ^ (7 * k) =
        out + (b.toNat - 128) * 2 ^ (7 * k) + v * 2 ^ (7 * (k + 1)) := by
      rw [pow_group]
      ring
    rw [split] at fits ⊢
    obtain ⟨inside, value⟩ := @group _ _ (b.toNat - 128) below (by omega)
    have next : out + (b.toNat - 128) * 2 ^ (7 * k) < 2 ^ (7 * (k + 1)) := by
      rw [pow_group]
      have : (b.toNat - 128) * 2 ^ (7 * k) ≤ 127 * 2 ^ (7 * k) := Nat.mul_le_mul_right _ (by omega)
      omega
    rw [List.length_cons] at bound
    rw [List.cons_append, ulebFrom]
    simp only [low]
    have positive : 0 < bs.length := by cases groups <;> exact Nat.succ_pos _
    rw [if_neg inside, value, if_neg (by omega), if_neg (by omega), show 7 * k + 7 = 7 * (k + 1) by ring,
      ih rest next (by omega) fits]
    rfl

theorem takes_uleb128 {bs : List UInt8} {v : ℕ} (groups : Uleb bs v) (short : bs.length ≤ 11) (fits : v < 2 ^ 64) :
    Takes e uleb128 bs v := by
  intro c rest order here
  unfold uleb128
  have := @ulebFrom_spec _ _ groups 0 0 rest (by decide) (by omega) (by simpa using fits)
  rw [here]
  simp only [Nat.mul_zero, Nat.pow_zero, Nat.mul_one, Nat.zero_add] at this
  rw [this]
  rfl

theorem toI64_small {v : ℕ} (small : v < 2 ^ 63) : toI64 v = v := by
  unfold toI64
  rw [Int.bmod_eq_of_le] <;> omega

theorem toI64_large {v : ℕ} (large : 2 ^ 63 ≤ v) (fits : v < 2 ^ 64) : toI64 v = (v : ℤ) - 2 ^ 64 := by
  unfold toI64
  rw [Int.bmod_def, Int.emod_eq_of_lt (by omega) (by omega), if_neg (by omega)]
  norm_num

theorem Sleb.length_pos {bs : List UInt8} {v : ℤ} (groups : Sleb bs v) : 0 < bs.length := by
  cases groups <;> exact Nat.succ_pos _

theorem slebFrom_last {k out : ℕ} {b : UInt8} (rest : List UInt8) (below : out < 2 ^ (7 * k)) (inside : k ≤ 8)
    (small : b.toNat < 128) :
    slebFrom (7 * k) out (b :: rest) = some (out + (if b.toNat < 64 then b.toNat else b.toNat - 128 : ℤ) * 2 ^ (7 * k), 1) := by
  have power : 2 ^ (7 * k) ≤ 2 ^ 56 := Nat.pow_le_pow_right (by decide) (by omega)
  have product : b.toNat * 2 ^ (7 * k) ≤ 127 * 2 ^ (7 * k) := Nat.mul_le_mul_right _ (by omega)
  have next := pow_group k
  rw [slebFrom]
  simp only [Nat.mod_eq_of_lt small]
  simp only [if_pos small, if_pos (show 7 * k < 64 by omega), or_group below (show b.toNat * 2 ^ (7 * k) < 2 ^ 64 by omega)]
  by_cases positive : b.toNat < 64
  · have upper : b.toNat * 2 ^ (7 * k) ≤ 63 * 2 ^ (7 * k) := Nat.mul_le_mul_right _ (by omega)
    rw [if_neg (by omega), if_pos positive, toI64_small (by omega)]
    push_cast
    rfl
  · have sign : out + b.toNat * 2 ^ (7 * k) ||| (2 ^ 64 - 2 ^ (7 * k + 7)) =
        out + b.toNat * 2 ^ (7 * k) + (2 ^ 64 - 2 ^ (7 * k + 7)) := by
      have shape : 2 ^ 64 - 2 ^ (7 * k + 7) = (2 ^ (57 - 7 * k) - 1) * 2 ^ (7 * k + 7) := by
        rw [Nat.sub_mul, ← Nat.pow_add, show 57 - 7 * k + (7 * k + 7) = 64 by omega, Nat.one_mul]
      have lower : out + b.toNat * 2 ^ (7 * k) < 2 ^ (7 * k + 7) := by
        rw [show 7 * k + 7 = 7 * (k + 1) by ring]
        omega
      rw [shape, Nat.or_comm, ← Nat.shiftLeft_eq, ← Nat.shiftLeft_add_eq_or_of_lt lower, Nat.add_comm]
    have lower : 64 * 2 ^ (7 * k) ≤ b.toNat * 2 ^ (7 * k) := Nat.mul_le_mul_right _ (by omega)
    have small64 : 2 ^ (7 * (k + 1)) ≤ 2 ^ 63 := Nat.pow_le_pow_right (by decide) (by omega)
    rw [show 7 * k + 7 = 7 * (k + 1) by ring] at sign ⊢
    rw [if_pos (by omega), if_neg positive, sign, toI64_large (by omega) (by omega)]
    have : ((2 ^ 64 - 2 ^ (7 * (k + 1)) : ℕ) : ℤ) = 2 ^ 64 - 128 * 2 ^ (7 * k) := by
      rw [next, Nat.cast_sub (by omega)]
      push_cast
      rfl
    rw [Nat.cast_add, this]
    push_cast
    ring_nf

theorem slebFrom_sign {bs : List UInt8} {v : ℤ} (groups : Sleb bs v) {out : ℕ} (rest : List UInt8) (below : out < 2 ^ 63)
    (short : bs.length ≤ 2) (least : -2 ^ 63 ≤ out + v * 2 ^ 63) (most : out + v * 2 ^ 63 < 2 ^ 63) :
    slebFrom 63 out (bs ++ rest) = some (out + v * 2 ^ 63, bs.length) := by
  have sign : v = 0 ∨ v = -1 := by omega
  have top : out ||| (127 <<< 63) % 2 ^ 64 = out + 2 ^ 63 := by
    have := Nat.shiftLeft_add_eq_or_of_lt (i := 63) below 1
    rw [show (127 <<< 63) % 2 ^ 64 = 1 <<< 63 by decide, Nat.or_comm, ← this, Nat.add_comm]
    rfl
  cases groups with
  | @last b small =>
    rw [List.singleton_append, slebFrom]
    simp only [Nat.mod_eq_of_lt small, if_pos small, if_pos (show 63 < 64 by decide)]
    rw [if_neg (by omega)]
    split at sign
    · have zero : b.toNat = 0 := by omega
      rw [zero]
      simp [toI64_small below]
    · next large =>
      have ones : b.toNat = 127 := by omega
      rw [ones, top, toI64_large (by omega) (by omega)]
      simp
      omega
  | @more b bs v large groups =>
    have byte := b.toNat_lt
    have low : (b.toNat = 128 ∧ v = 0) ∨ (b.toNat = 255 ∧ v = -1) := by omega
    cases groups with
    | more _ groups =>
      have := groups.length_pos
      simp only [List.length_cons] at short
      omega
    | @last b' small =>
      rw [List.cons_append, slebFrom]
      simp only [if_pos (show 63 < 64 by decide)]
      rw [if_neg (by omega), if_neg (by omega), List.singleton_append, slebFrom]
      simp only [if_pos small, if_neg (show ¬63 + 7 < 64 by decide)]
      rw [if_neg (by omega)]
      rcases low with ⟨zero, is⟩ | ⟨ones, is⟩
      · rw [zero, is]
        simp [toI64_small below]
      · rw [ones, is, show 255 % 128 = 127 from rfl, top, toI64_large (by omega) (by omega)]
        simp
        omega

theorem slebFrom_spec {bs : List UInt8} {v : ℤ} (groups : Sleb bs v) : ∀ {k out : ℕ} (rest : List UInt8),
    out < 2 ^ (7 * k) → k ≤ 9 → k + bs.length ≤ 11 → -2 ^ 63 ≤ out + v * 2 ^ (7 * k) → out + v * 2 ^ (7 * k) < 2 ^ 63 →
    slebFrom (7 * k) out (bs ++ rest) = some (out + v * 2 ^ (7 * k), bs.length) := by
  induction groups with
  | @last b small =>
    intro k out rest below inside short least most
    by_cases last : k = 9
    · subst last
      exact slebFrom_sign (.last small) rest below (Nat.le_succ 1) least most
    · rw [List.singleton_append]
      exact slebFrom_last rest below (by omega) small
  | @more b bs v large groups ih =>
    intro k out rest below inside short least most
    by_cases last : k = 9
    · subst last
      exact slebFrom_sign (.more large groups) rest below (by simp at short ⊢; omega) least most
    · have byte := b.toNat_lt
      have low : b.toNat % 128 = b.toNat - 128 := by omega
      have power : 2 ^ (7 * k) ≤ 2 ^ 56 := Nat.pow_le_pow_right (by decide) (by omega)
      have product : (b.toNat - 128) * 2 ^ (7 * k) ≤ 127 * 2 ^ (7 * k) := Nat.mul_le_mul_right _ (by omega)
      have next := pow_group k
      have split : (out : ℤ) + (b.toNat - 128 + 128 * v) * 2 ^ (7 * k) =
          ((out + (b.toNat - 128) * 2 ^ (7 * k) : ℕ) : ℤ) + v * 2 ^ (7 * (k + 1)) := by
        have : ((2 ^ (7 * (k + 1)) : ℕ) : ℤ) = 128 * 2 ^ (7 * k) := by
          rw [next]
          push_cast
          rfl
        push_cast [large] at this ⊢
        rw [this]
        ring
      rw [split] at least most ⊢
      rw [List.length_cons] at short
      have positive := groups.length_pos
      rw [List.cons_append, slebFrom]
      simp only [low, if_pos (show 7 * k < 64 by omega),
        or_group below (show (b.toNat - 128) * 2 ^ (7 * k) < 2 ^ 64 by omega)]
      rw [if_neg (by omega), if_neg (by omega), show 7 * k + 7 = 7 * (k + 1) by ring, ih rest (by omega) (by omega) (by omega) least most]
      rfl

theorem takes_sleb128 {bs : List UInt8} {v : ℤ} (groups : Sleb bs v) (short : bs.length ≤ 11) (least : -2 ^ 63 ≤ v)
    (most : v < 2 ^ 63) : Takes e sleb128 bs v := by
  intro c rest order here
  unfold sleb128
  have := @slebFrom_spec _ _ groups 0 0 rest (by decide) (by decide) (by omega) (by simpa using least)
    (by simpa using most)
  rw [here]
  simp only [Nat.mul_zero, pow_zero, mul_one, Nat.cast_zero, zero_add] at this
  rw [this]
  rfl
end

end E5r.Cursor
