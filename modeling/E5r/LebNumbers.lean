import E5r.Cursor
import Mathlib.Tactic.Positivity

/-!
What the readers of LEB128 numbers return. Groups are added modulo 2^64, so the bits
of the tenth group past the 64th are dropped without an error, and the signed reader
does not look at the eleventh group at all.
-/
namespace E5r.LebNumbers
open Cursor

/-! ### One group -/

variable {k out : ℕ}

theorem group_mod {low : ℕ} (below : out < 2 ^ (7 * k)) (fits : out < 2 ^ 64) (small : low < 128) :
    (if 7 * k < 64 then out ||| (low <<< (7 * k)) % 2 ^ 64 else out) = (out + low * 2 ^ (7 * k)) % 2 ^ 64 := by
  by_cases inside : 7 * k < 64
  · rw [if_pos inside]
    by_cases early : k ≤ 8
    · have power : 2 ^ (7 * k) ≤ 2 ^ 56 := Nat.pow_le_pow_right (by decide) (by omega)
      have product : low * 2 ^ (7 * k) ≤ 127 * 2 ^ (7 * k) := Nat.mul_le_mul_right _ (by omega)
      rw [or_group below (by omega), Nat.mod_eq_of_lt (by omega)]
    · obtain rfl : k = 9 := by omega
      have top : low <<< (7 * 9) % 2 ^ 64 = low % 2 * 2 ^ (7 * 9) := by
        rw [Nat.shiftLeft_eq]
        omega
      have bit : low % 2 * 2 ^ (7 * 9) < 2 ^ 64 := by omega
      have whole := or_group below bit
      rw [Nat.shiftLeft_eq, Nat.mod_eq_of_lt bit] at whole
      rw [top, whole]
      omega
  · rw [if_neg inside]
    have power : 2 ^ (7 * k) = 2 ^ (7 * k - 64) * 2 ^ 64 := by
      rw [← Nat.pow_add, Nat.sub_add_cancel (by omega)]
    rw [power, ← Nat.mul_assoc, Nat.add_mul_mod_self_right, Nat.mod_eq_of_lt fits]

variable {v : ℕ}

theorem group_next {low : ℕ} :
    ((out + low * 2 ^ (7 * k)) % 2 ^ 64 + v * 2 ^ (7 * (k + 1))) % 2 ^ 64 =
      (out + (low + 128 * v) * 2 ^ (7 * k)) % 2 ^ 64 := by
  rw [Nat.mod_add_mod, pow_group]
  congr 1
  ring

theorem next_below {k out low : ℕ} (below : out < 2 ^ (7 * k)) (small : low < 128) :
    (out + low * 2 ^ (7 * k)) % 2 ^ 64 < 2 ^ (7 * (k + 1)) := by
  have product : low * 2 ^ (7 * k) ≤ 127 * 2 ^ (7 * k) := Nat.mul_le_mul_right _ (by omega)
  refine lt_of_le_of_lt (Nat.mod_le _ _) ?_
  rw [pow_group]
  omega

/-! ### The unsigned reader -/

variable {bs : List UInt8} {w : ℕ}

theorem uleb_ne_nil (groups : Uleb bs w) : bs ≠ [] := by
  cases groups <;> exact List.cons_ne_nil _ _

/-- Groups past the tenth are zero, where the first one is group `k`. -/
def HighZero (k : ℕ) (bs : List UInt8) : Prop := ∀ i b, bs[i]? = some b → 10 ≤ k + i → b.toNat % 128 = 0

theorem highZero_cons {b : UInt8} : HighZero k (b :: bs) ↔ (10 ≤ k → b.toNat % 128 = 0) ∧ HighZero (k + 1) bs := by
  constructor
  · intro zero
    refine ⟨zero 0 b rfl, fun i c here high => zero (i + 1) c here (by omega)⟩
  · rintro ⟨first, rest⟩ i c here high
    cases i with
    | zero =>
      obtain rfl : b = c := by simpa using here
      exact first high
    | succ i => exact rest i c here (by omega)

/-- The reader takes a whole number of at most eleven groups, the eleventh zero, and
    gives its value modulo 2^64. -/
theorem ulebFrom_iff {rest : List UInt8} : ∀ {k out v n : ℕ}, k ≤ 10 → out < 2 ^ (7 * k) → out < 2 ^ 64 →
    (ulebFrom (7 * k) out rest = some (v, n) ↔ ∃ bs tail w, rest = bs ++ tail ∧ Uleb bs w ∧ bs.length = n ∧
      k + n ≤ 11 ∧ HighZero k bs ∧ v = (out + w * 2 ^ (7 * k)) % 2 ^ 64) := by
  induction rest with
  | nil =>
    intro k out v n _ _ _
    constructor
    · rintro ⟨⟩
    · rintro ⟨bs, tail, w, whole, groups, -⟩
      obtain ⟨rfl, -⟩ := List.append_eq_nil_iff.mp whole.symm
      cases groups
  | cons b rest ih =>
    intro k out v n early below fits
    have byte := b.toNat_lt
    have small : b.toNat % 128 < 128 := Nat.mod_lt _ (by decide)
    rw [ulebFrom]
    dsimp only
    rw [group_mod below fits small]
    by_cases high : 64 ≤ 7 * k ∧ b.toNat % 128 ≠ 0
    · rw [if_pos high]
      constructor
      · rintro ⟨⟩
      · rintro ⟨bs, tail, w, whole, groups, -, -, zero, -⟩
        cases bs with
        | nil => cases groups
        | cons c bs =>
          obtain ⟨rfl, -⟩ := List.cons.inj whole
          exact absurd ((highZero_cons.mp zero).1 (by omega)) high.2
    · rw [if_neg high]
      have first : 10 ≤ k → b.toNat % 128 = 0 := fun last => by
        by_contra some
        exact high ⟨by omega, some⟩
      by_cases last : b.toNat < 128
      · rw [if_pos last, Option.some_inj, Prod.mk.injEq, Nat.mod_eq_of_lt last]
        constructor
        · rintro ⟨rfl, rfl⟩
          refine ⟨[b], rest, b.toNat, rfl, .last last, rfl, by omega, highZero_cons.mpr ⟨first, ?_⟩, rfl⟩
          intro i c here
          cases here
        · rintro ⟨bs, tail, w, whole, groups, rfl, -, -, rfl⟩
          cases groups with
          | last _ =>
            obtain ⟨rfl, -⟩ := List.cons.inj whole
            exact ⟨rfl, rfl⟩
          | more large _ =>
            obtain ⟨rfl, -⟩ := List.cons.inj whole
            omega
      · rw [if_neg last]
        have low : b.toNat % 128 = b.toNat - 128 := by omega
        by_cases long : 70 < 7 * k + 7
        · rw [if_pos long]
          constructor
          · rintro ⟨⟩
          · rintro ⟨bs, tail, w, whole, groups, rfl, bound, -⟩
            cases groups with
            | last small =>
              obtain ⟨rfl, -⟩ := List.cons.inj whole
              exact absurd small last
            | more _ groups =>
              have : 0 < List.length _ := List.length_pos_iff.mpr (uleb_ne_nil groups)
              simp only [List.length_cons] at bound
              omega
        · rw [if_neg long, show 7 * k + 7 = 7 * (k + 1) by ring]
          have step := fun v n => ih (v := v) (n := n) (k := k + 1) (by omega) (@next_below _ _ (b.toNat % 128) below small)
            (Nat.mod_lt _ (by decide))
          rw [Option.map_eq_some_iff]
          constructor
          · rintro ⟨⟨u, m⟩, read, same⟩
            obtain ⟨rfl, rfl⟩ := Prod.mk.inj same
            obtain ⟨bs, tail, w, rfl, groups, rfl, bound, zero, rfl⟩ := (step u m).mp read
            refine ⟨b :: bs, tail, _, rfl, .more (by omega) groups, rfl, by omega, highZero_cons.mpr ⟨first, zero⟩, ?_⟩
            rw [group_next, low]
          · rintro ⟨bs, tail, w, whole, groups, rfl, bound, zero, rfl⟩
            cases groups with
            | last small =>
              obtain ⟨rfl, -⟩ := List.cons.inj whole
              exact absurd small last
            | @more c bs w large groups =>
              obtain ⟨rfl, rfl⟩ := List.cons.inj whole
              rw [List.length_cons] at bound
              refine ⟨_, (step _ bs.length).mpr ⟨bs, tail, w, rfl, groups, rfl, by omega, (highZero_cons.mp zero).2, rfl⟩, ?_⟩
              dsimp only
              rw [group_next, low]
              rfl

theorem uleb_unique {cs s t : List UInt8} (first : Uleb bs v) (second : Uleb cs w) (same : bs ++ s = cs ++ t) :
    bs = cs ∧ v = w := by
  induction first generalizing cs w with
  | last small =>
    cases second with
    | last _ =>
      obtain ⟨rfl, -⟩ := List.cons.inj same
      exact ⟨rfl, rfl⟩
    | more large _ =>
      obtain ⟨rfl, -⟩ := List.cons.inj same
      omega
  | more large groups ih =>
    cases second with
    | last small =>
      obtain ⟨rfl, -⟩ := List.cons.inj same
      omega
    | more _ others =>
      obtain ⟨rfl, rest⟩ := List.cons.inj same
      obtain ⟨rfl, rfl⟩ := ih others rest
      exact ⟨rfl, rfl⟩

theorem uleb_lt (groups : Uleb bs w) : w < 128 ^ bs.length := by
  induction groups with
  | last small => simpa using small
  | @more b bs v large groups ih =>
    have byte := b.toNat_lt
    rw [List.length_cons, Nat.pow_succ]
    omega

theorem uleb_group (groups : Uleb bs w) (j : ℕ) : w / 128 ^ j % 128 = ((bs[j]?).map fun b => b.toNat % 128).getD 0 := by
  induction groups generalizing j with
  | @last b small =>
    cases j with
    | zero => simp
    | succ j =>
      have : b.toNat < 128 ^ (j + 1) := by
        have := Nat.pow_le_pow_right (n := 128) (by decide) (Nat.succ_le_succ (Nat.zero_le j))
        omega
      rw [Nat.div_eq_of_lt this]
      simp
  | @more b bs v large groups ih =>
    have byte := b.toNat_lt
    cases j with
    | zero =>
      simp only [Nat.pow_zero, Nat.div_one, List.getElem?_cons_zero, Option.map_some, Option.getD_some]
      omega
    | succ j =>
      have : (b.toNat - 128 + 128 * v) / 128 = v := by omega
      rw [Nat.pow_succ', ← Nat.div_div_eq_div_mul, this, ih j, List.getElem?_cons_succ]

def TenthFits (bs : List UInt8) : Prop := ∀ b, bs[9]? = some b → b.toNat % 128 ≤ 1

theorem fits_iff (groups : Uleb bs w) (short : bs.length ≤ 11) (zero : HighZero 0 bs) : w < 2 ^ 64 ↔ TenthFits bs := by
  have size := uleb_lt groups
  have most : 128 ^ bs.length ≤ 128 ^ 11 := Nat.pow_le_pow_right (by decide) short
  have eleventh := uleb_group groups 10
  have tenth := uleb_group groups 9
  have none : w / 128 ^ 10 = 0 := by
    have high : w / 128 ^ 10 % 128 = 0 := by
      rw [eleventh]
      cases here : bs[10]? with
      | none => rfl
      | some b => exact zero 10 b here (by decide)
    omega
  constructor
  · intro fits b here
    rw [here, Option.map_some, Option.getD_some] at tenth
    omega
  · intro top
    have digit : w / 128 ^ 9 % 128 ≤ 1 := by
      rw [tenth]
      cases here : bs[9]? with
      | none => exact Nat.zero_le 1
      | some b => exact top b here
    omega

/-- The unsigned reader gives the number at the cursor only, and fails when it does not
    fit. -/
structure UnsignedExact (c : Cur) : Prop where
  exact : ∀ v next, uleb128 c = some (v, next) → ∃ bs tail, c.rest = bs ++ tail ∧ Uleb bs v ∧ next = c.advance bs.length
  refuses : ∀ bs tail w, c.rest = bs ++ tail → Uleb bs w → 2 ^ 64 ≤ w → uleb128 c = none

variable {c : Cur}

theorem uleb128_iff {next : Cur} : uleb128 c = some (v, next) ↔ ∃ bs tail w, c.rest = bs ++ tail ∧ Uleb bs w ∧
    bs.length ≤ 11 ∧ HighZero 0 bs ∧ v = w % 2 ^ 64 ∧ next = c.advance bs.length := by
  have spec := fun n => @ulebFrom_iff c.rest 0 0 v n (by decide) (by decide) (by decide)
  simp only [Nat.mul_zero, Nat.pow_zero, Nat.mul_one, Nat.zero_add] at spec
  rw [uleb128, Option.map_eq_some_iff]
  constructor
  · rintro ⟨⟨u, n⟩, read, same⟩
    obtain ⟨rfl, rfl⟩ := Prod.mk.inj same
    obtain ⟨bs, tail, w, whole, groups, rfl, short, zero, rfl⟩ := (spec n).mp read
    exact ⟨bs, tail, w, whole, groups, short, zero, rfl, rfl⟩
  · rintro ⟨bs, tail, w, whole, groups, short, zero, rfl, rfl⟩
    exact ⟨(_, bs.length), (spec bs.length).mpr ⟨bs, tail, w, whole, groups, rfl, short, zero, rfl⟩, rfl⟩

theorem unsignedExact_iff (c : Cur) : UnsignedExact c ↔
    ∀ bs tail w, c.rest = bs ++ tail → Uleb bs w → bs.length ≤ 11 → HighZero 0 bs → TenthFits bs := by
  constructor
  · intro exact bs tail w whole groups short zero
    rw [← fits_iff groups short zero]
    by_contra large
    have read := uleb128_iff.mpr ⟨bs, tail, w, whole, groups, short, zero, rfl, rfl⟩
    rw [exact.refuses bs tail w whole groups (by omega)] at read
    cases read
  · intro top
    constructor
    · intro v next read
      obtain ⟨bs, tail, w, whole, groups, short, zero, rfl, rfl⟩ := uleb128_iff.mp read
      have fits := (fits_iff groups short zero).mpr (top bs tail w whole groups short zero)
      rw [Nat.mod_eq_of_lt fits]
      exact ⟨bs, tail, whole, groups, rfl⟩
    · intro bs tail w whole groups large
      cases read : uleb128 c with
      | none => rfl
      | some result =>
        obtain ⟨cs, more, u, split, others, short, zero, -⟩ := uleb128_iff.mp (show uleb128 c = some (result.1, result.2) from read)
        obtain ⟨rfl, rfl⟩ := uleb_unique groups others (whole.symm.trans split)
        have fits := (fits_iff groups short zero).mpr (top bs tail w whole groups short zero)
        omega

/-! ### The signed reader -/

private theorem bmod_congr {x y : ℤ} (same : x % 2 ^ 64 = y % 2 ^ 64) : Int.bmod x (2 ^ 64) = Int.bmod y (2 ^ 64) := by
  have cast : ((2 ^ 64 : ℕ) : ℤ) = 2 ^ 64 := by norm_num
  rw [← Int.emod_bmod x, ← Int.emod_bmod y, cast, same]

private theorem bmod_small {x : ℤ} (least : -2 ^ 63 ≤ x) (most : x < 2 ^ 63) : Int.bmod x (2 ^ 64) = x := by
  refine Int.bmod_eq_of_le ?_ ?_
  · norm_num at least ⊢
    omega
  · norm_num at most ⊢
    omega

def lastGroup (b : UInt8) : ℤ := if b.toNat < 64 then b.toNat else b.toNat - 128

theorem slebFrom_lastGroup {b : UInt8} (rest : List UInt8) (below : out < 2 ^ (7 * k)) (fits : out < 2 ^ 64)
    (early : k ≤ 10) (small : b.toNat < 128) :
    slebFrom (7 * k) out (b :: rest) = some (Int.bmod (out + lastGroup b * 2 ^ (7 * k)) (2 ^ 64), 1) := by
  have sign : -64 ≤ lastGroup b ∧ lastGroup b < 64 := by
    unfold lastGroup
    split <;> omega
  by_cases inside : k ≤ 8
  · have power : (2 : ℤ) ^ (7 * k) ≤ 2 ^ 56 := pow_le_pow_right₀ (by decide) (by omega)
    have positive : (0 : ℤ) < 2 ^ (7 * k) := by positivity
    have outBelow : (out : ℤ) < 2 ^ (7 * k) := by exact_mod_cast below
    have least := Int.mul_le_mul_of_nonneg_right sign.1 positive.le
    have most : lastGroup b * 2 ^ (7 * k) ≤ 63 * 2 ^ (7 * k) :=
      Int.mul_le_mul_of_nonneg_right (by omega) positive.le
    rw [slebFrom_last rest below inside small, ← lastGroup, bmod_small (by omega) (by omega)]
  · have value : toI64 ((out + b.toNat * 2 ^ (7 * k)) % 2 ^ 64) = Int.bmod (out + lastGroup b * 2 ^ (7 * k)) (2 ^ 64) := by
      refine bmod_congr ?_
      have power : (2 : ℤ) ^ (7 * k) = 2 ^ (7 * k - 63) * 2 ^ 63 := by
        rw [← pow_add, Nat.sub_add_cancel (by omega)]
      push_cast
      rw [Int.emod_emod_of_dvd _ (dvd_refl _)]
      unfold lastGroup
      split
      · rfl
      · rw [power, sub_mul, show (128 : ℤ) * (2 ^ (7 * k - 63) * 2 ^ 63) = 64 * 2 ^ (7 * k - 63) * 18446744073709551616 by ring,
          ← add_sub_assoc, Int.sub_mul_emod_self_right]
    rw [slebFrom]
    dsimp only
    rw [group_mod below fits (Nat.mod_lt b.toNat (show 0 < 128 by decide)), if_pos small, if_neg (by omega),
      Nat.mod_eq_of_lt small, value]

/-- The groups of the signed reader modulo 2^64. -/
theorem slebFrom_iff {rest : List UInt8} : ∀ {k out n : ℕ} {v : ℤ}, k ≤ 10 → out < 2 ^ (7 * k) → out < 2 ^ 64 →
    (slebFrom (7 * k) out rest = some (v, n) ↔ ∃ bs tail w, rest = bs ++ tail ∧ Sleb bs w ∧ bs.length = n ∧
      k + n ≤ 11 ∧ v = Int.bmod (out + w * 2 ^ (7 * k)) (2 ^ 64)) := by
  induction rest with
  | nil =>
    intro k out n v _ _ _
    constructor
    · rintro ⟨⟩
    · rintro ⟨bs, tail, w, whole, groups, -⟩
      obtain ⟨rfl, -⟩ := List.append_eq_nil_iff.mp whole.symm
      cases groups
  | cons b rest ih =>
    intro k out n v early below fits
    have byte := b.toNat_lt
    by_cases last : b.toNat < 128
    · rw [slebFrom_lastGroup rest below fits early last, Option.some_inj, Prod.mk.injEq]
      constructor
      · rintro ⟨rfl, rfl⟩
        exact ⟨[b], rest, lastGroup b, rfl, .last last, rfl, by omega, rfl⟩
      · rintro ⟨bs, tail, w, whole, groups, rfl, -, rfl⟩
        cases groups with
        | last _ =>
          obtain ⟨rfl, -⟩ := List.cons.inj whole
          exact ⟨rfl, rfl⟩
        | more large _ =>
          obtain ⟨rfl, -⟩ := List.cons.inj whole
          omega
    · have low : b.toNat % 128 = b.toNat - 128 := by omega
      have small : b.toNat % 128 < 128 := Nat.mod_lt _ (by decide)
      have next : ∀ w : ℤ, Int.bmod (((out + b.toNat % 128 * 2 ^ (7 * k)) % 2 ^ 64 : ℕ) + w * 2 ^ (7 * (k + 1))) (2 ^ 64) =
          Int.bmod (out + (b.toNat - 128 + 128 * w) * 2 ^ (7 * k)) (2 ^ 64) := by
        intro w
        refine bmod_congr ?_
        have shift : (2 : ℤ) ^ (7 * (k + 1)) = 128 * 2 ^ (7 * k) := by
          rw [Nat.mul_add, pow_add]
          ring
        have cast : ((b.toNat % 128 : ℕ) : ℤ) = b.toNat - 128 := by omega
        rw [Int.natCast_mod, Nat.cast_add, Nat.cast_mul, cast]
        push_cast
        rw [Int.emod_add_emod, shift]
        congr 1
        ring
      rw [slebFrom]
      dsimp only
      rw [group_mod below fits small, if_neg last]
      by_cases long : 70 < 7 * k + 7
      · rw [if_pos long]
        constructor
        · rintro ⟨⟩
        · rintro ⟨bs, tail, w, whole, groups, rfl, bound, -⟩
          cases groups with
          | last small =>
            obtain ⟨rfl, -⟩ := List.cons.inj whole
            exact absurd small last
          | more _ groups =>
            have := groups.length_pos
            simp only [List.length_cons] at bound
            omega
      · rw [if_neg long, show 7 * k + 7 = 7 * (k + 1) by ring]
        have step := fun v n => ih (v := v) (n := n) (k := k + 1) (by omega) (@next_below _ _ (b.toNat % 128) below small)
          (Nat.mod_lt _ (by decide))
        rw [Option.map_eq_some_iff]
        constructor
        · rintro ⟨⟨u, m⟩, read, same⟩
          obtain ⟨rfl, rfl⟩ := Prod.mk.inj same
          obtain ⟨bs, tail, w, rfl, groups, rfl, bound, rfl⟩ := (step u m).mp read
          exact ⟨b :: bs, tail, _, rfl, .more (by omega) groups, rfl, by omega, next w⟩
        · rintro ⟨bs, tail, w, whole, groups, rfl, bound, rfl⟩
          cases groups with
          | last small =>
            obtain ⟨rfl, -⟩ := List.cons.inj whole
            exact absurd small last
          | @more c bs w large groups =>
            obtain ⟨rfl, rfl⟩ := List.cons.inj whole
            rw [List.length_cons] at bound
            refine ⟨_, (step _ bs.length).mpr ⟨bs, tail, w, rfl, groups, rfl, by omega, rfl⟩, ?_⟩
            dsimp only
            rw [next]
            rfl

theorem sleb_unique {cs s t : List UInt8} {v w : ℤ} (first : Sleb bs v) (second : Sleb cs w)
    (same : bs ++ s = cs ++ t) : bs = cs ∧ v = w := by
  induction first generalizing cs w with
  | last small =>
    cases second with
    | last _ =>
      obtain ⟨rfl, -⟩ := List.cons.inj same
      exact ⟨rfl, rfl⟩
    | more large _ =>
      obtain ⟨rfl, -⟩ := List.cons.inj same
      omega
  | more large groups ih =>
    cases second with
    | last small =>
      obtain ⟨rfl, -⟩ := List.cons.inj same
      omega
    | more _ others =>
      obtain ⟨rfl, rest⟩ := List.cons.inj same
      obtain ⟨rfl, rfl⟩ := ih others rest
      exact ⟨rfl, rfl⟩

theorem sleb_drop {w : ℤ} (groups : Sleb bs w) : ∀ j < bs.length, Sleb (bs.drop j) (w / 128 ^ j) := by
  induction groups with
  | last small =>
    intro j inside
    obtain rfl : j = 0 := by simpa using inside
    simpa using Sleb.last small
  | @more b bs v large groups ih =>
    intro j inside
    cases j with
    | zero => simpa using Sleb.more large groups
    | succ j =>
      have byte := b.toNat_lt
      have quotient : ((b.toNat : ℤ) - 128 + 128 * v) / 128 = v := by omega
      rw [List.drop_succ_cons, pow_succ', ← Int.ediv_ediv_of_nonneg (by decide), quotient]
      exact ih j (by simpa using inside)

theorem sleb_bounds {w : ℤ} (groups : Sleb bs w) :
    -(64 * 128 ^ (bs.length - 1)) ≤ w ∧ w < 64 * 128 ^ (bs.length - 1) := by
  induction groups with
  | @last b small =>
    simp only [List.length_singleton, Nat.sub_self, pow_zero]
    split <;> omega
  | @more b bs v large groups ih =>
    have byte := b.toNat_lt
    have positive := groups.length_pos
    have power : (128 : ℤ) ^ ((b :: bs).length - 1) = 128 * 128 ^ (bs.length - 1) := by
      rw [List.length_cons, Nat.add_sub_cancel, ← pow_succ', Nat.sub_add_cancel positive]
    rw [power]
    omega

/-- The tenth group repeats one bit, and the eleventh repeats the tenth. -/
def SignFits (bs : List UInt8) : Prop :=
  ∀ b, bs[9]? = some b → (b.toNat % 128 = 0 ∨ b.toNat % 128 = 127) ∧
    ∀ c, bs[10]? = some c → c.toNat % 128 = b.toNat % 128

theorem signFits_iff {w : ℤ} (groups : Sleb bs w) (short : bs.length ≤ 11) :
    (-2 ^ 63 ≤ w ∧ w < 2 ^ 63) ↔ SignFits bs := by
  by_cases small : bs.length ≤ 9
  · have bounds := sleb_bounds groups
    have power : (128 : ℤ) ^ (bs.length - 1) ≤ 128 ^ 8 := pow_le_pow_right₀ (by decide) (by omega)
    constructor
    · intro _ b here
      rw [List.getElem?_eq_none (by omega)] at here
      cases here
    · intro _
      omega
  · have tail := sleb_drop groups 9 (by omega)
    have quotient : (-2 ^ 63 ≤ w ∧ w < 2 ^ 63) ↔ (w / 128 ^ 9 = 0 ∨ w / 128 ^ 9 = -1) := by omega
    have length : (bs.drop 9).length = bs.length - 9 := List.length_drop
    have first : bs[9]? = (bs.drop 9)[0]? := by rw [List.getElem?_drop]
    have second : bs[10]? = (bs.drop 9)[1]? := by rw [List.getElem?_drop]
    rw [quotient, SignFits, first, second]
    generalize w / 128 ^ 9 = q at tail ⊢
    generalize bs.drop 9 = ds at tail length ⊢
    cases tail with
    | @last b small =>
      simp only [List.getElem?_cons_zero, Option.some.injEq, forall_eq', List.getElem?_cons_succ, List.getElem?_nil,
        reduceCtorEq, false_implies, implies_true, and_true]
      split <;> omega
    | @more b cs v large groups =>
      have byte := b.toNat_lt
      cases groups with
      | more _ groups =>
        have := groups.length_pos
        simp only [List.length_cons] at length
        omega
      | @last c small =>
        simp only [List.getElem?_cons_zero, Option.some.injEq, forall_eq', List.getElem?_cons_succ]
        split <;> omega

/-- The signed reader gives the number at the cursor only, and fails when it does not
    fit. -/
structure SignedExact (c : Cur) : Prop where
  exact : ∀ v next, sleb128 c = some (v, next) → ∃ bs tail, c.rest = bs ++ tail ∧ Sleb bs v ∧ next = c.advance bs.length
  refuses : ∀ bs tail w, c.rest = bs ++ tail → Sleb bs w → ¬(-2 ^ 63 ≤ w ∧ w < 2 ^ 63) → sleb128 c = none

theorem sleb128_iff {next : Cur} {v : ℤ} : sleb128 c = some (v, next) ↔ ∃ bs tail w, c.rest = bs ++ tail ∧ Sleb bs w ∧
    bs.length ≤ 11 ∧ v = Int.bmod w (2 ^ 64) ∧ next = c.advance bs.length := by
  have spec := fun n => @slebFrom_iff c.rest 0 0 n v (by decide) (by decide) (by decide)
  simp only [Nat.mul_zero, pow_zero, mul_one, Nat.zero_add, Nat.cast_zero, zero_add] at spec
  rw [sleb128, Option.map_eq_some_iff]
  constructor
  · rintro ⟨⟨u, n⟩, read, same⟩
    obtain ⟨rfl, rfl⟩ := Prod.mk.inj same
    obtain ⟨bs, tail, w, whole, groups, rfl, short, rfl⟩ := (spec n).mp read
    exact ⟨bs, tail, w, whole, groups, short, rfl, rfl⟩
  · rintro ⟨bs, tail, w, whole, groups, short, rfl, rfl⟩
    exact ⟨(_, bs.length), (spec bs.length).mpr ⟨bs, tail, w, whole, groups, rfl, short, rfl⟩, rfl⟩

theorem signedExact_iff (c : Cur) : SignedExact c ↔
    ∀ bs tail w, c.rest = bs ++ tail → Sleb bs w → bs.length ≤ 11 → SignFits bs := by
  constructor
  · intro exact bs tail w whole groups short
    rw [← signFits_iff groups short]
    by_contra outside
    have read := sleb128_iff.mpr ⟨bs, tail, w, whole, groups, short, rfl, rfl⟩
    rw [exact.refuses bs tail w whole groups outside] at read
    cases read
  · intro sign
    constructor
    · intro v next read
      obtain ⟨bs, tail, w, whole, groups, short, rfl, rfl⟩ := sleb128_iff.mp read
      obtain ⟨least, most⟩ := (signFits_iff groups short).mpr (sign bs tail w whole groups short)
      rw [bmod_small least most]
      exact ⟨bs, tail, whole, groups, rfl⟩
    · intro bs tail w whole groups outside
      cases read : sleb128 c with
      | none => rfl
      | some result =>
        obtain ⟨cs, more, u, split, others, short, -⟩ := sleb128_iff.mp (show sleb128 c = some (result.1, result.2) from read)
        obtain ⟨rfl, rfl⟩ := sleb_unique groups others (whole.symm.trans split)
        exact absurd ((signFits_iff groups short).mpr (sign bs tail w whole groups short)) outside

/-! ### Shortest encodings -/

/-- No encoding of the number has fewer bytes. -/
def Shortest {α : Type} (Groups : List UInt8 → α → Prop) (bs : List UInt8) (v : α) : Prop :=
  Groups bs v ∧ ∀ cs, Groups cs v → bs.length ≤ cs.length

theorem uleb_exists (k : ℕ) : ∀ v < 128 ^ (k + 1), ∃ bs, Uleb bs v ∧ bs.length ≤ k + 1 := by
  have byte : ∀ n < 256, (UInt8.ofNat n).toNat = n := fun n small => UInt8.toNat_ofNat_of_lt' small
  have single : ∀ v < 128, Uleb [UInt8.ofNat v] v := by
    intro v small
    have := Uleb.last (b := UInt8.ofNat v) (by rw [byte v (by omega)]; exact small)
    rwa [byte v (by omega)] at this
  induction k with
  | zero =>
    intro v small
    exact ⟨_, single v (by simpa using small), Nat.le_refl 1⟩
  | succ k ih =>
    intro v small
    by_cases last : v < 128
    · exact ⟨_, single v last, by simp⟩
    · obtain ⟨bs, groups, short⟩ := ih (v / 128) (by rw [Nat.pow_succ] at small; omega)
      have more := Uleb.more (b := UInt8.ofNat (v % 128 + 128)) (by rw [byte _ (by omega)]; omega) groups
      rw [byte _ (by omega), show v % 128 + 128 - 128 + 128 * (v / 128) = v by omega] at more
      exact ⟨_, more, by simpa using short⟩

theorem sleb_exists (k : ℕ) : ∀ v : ℤ, -(64 * 128 ^ k) ≤ v → v < 64 * 128 ^ k → ∃ bs, Sleb bs v ∧ bs.length ≤ k + 1 := by
  have byte : ∀ n < 256, (UInt8.ofNat n).toNat = n := fun n small => UInt8.toNat_ofNat_of_lt' small
  induction k with
  | zero =>
    intro v least most
    have low : (v % 128).toNat < 128 := by omega
    have last := Sleb.last (b := UInt8.ofNat (v % 128).toNat) (by rw [byte _ (by omega)]; exact low)
    rw [byte _ (by omega)] at last
    have value : (if (v % 128).toNat < 64 then ((v % 128).toNat : ℤ) else (v % 128).toNat - 128) = v := by
      split <;> omega
    rw [value] at last
    exact ⟨_, last, Nat.le_refl 1⟩
  | succ k ih =>
    intro v least most
    rw [pow_succ] at least most
    obtain ⟨bs, groups, short⟩ := ih (v / 128) (by omega) (by omega)
    have more := Sleb.more (b := UInt8.ofNat ((v % 128).toNat + 128)) (by rw [byte _ (by omega)]; omega) groups
    rw [byte _ (by omega)] at more
    have value : (((v % 128).toNat + 128 : ℕ) : ℤ) - 128 + 128 * (v / 128) = v := by omega
    rw [value] at more
    exact ⟨_, more, by simpa using short⟩

/-- The readers give exact numbers, fail on the ones that do not fit, and read back the
    shortest encoding of each that does, taking nothing else. -/
structure Exact (c : Cur) : Prop where
  unsigned : UnsignedExact c
  signed : SignedExact c
  unsignedShortest : ∀ bs tail v, c.rest = bs ++ tail → Shortest Uleb bs v → v < 2 ^ 64 →
    uleb128 c = some (v, c.advance bs.length)
  signedShortest : ∀ bs tail v, c.rest = bs ++ tail → Shortest Sleb bs v → -2 ^ 63 ≤ v → v < 2 ^ 63 →
    sleb128 c = some (v, c.advance bs.length)

theorem reads_shortest {tail : List UInt8} (whole : c.rest = bs ++ tail) (shortest : Shortest Uleb bs v)
    (fits : v < 2 ^ 64) : uleb128 c = some (v, c.advance bs.length) := by
  obtain ⟨groups, least⟩ := shortest
  obtain ⟨cs, others, short⟩ := uleb_exists 9 v (by omega)
  have := least cs others
  exact takes_uleb128 groups (by omega) fits c tail rfl whole

theorem reads_signed_shortest {tail : List UInt8} {v : ℤ} (whole : c.rest = bs ++ tail)
    (shortest : Shortest Sleb bs v) (low : -2 ^ 63 ≤ v) (high : v < 2 ^ 63) :
    sleb128 c = some (v, c.advance bs.length) := by
  obtain ⟨groups, least⟩ := shortest
  obtain ⟨cs, others, short⟩ := sleb_exists 9 v (by omega) (by omega)
  have := least cs others
  exact takes_sleb128 groups (by omega) low high c tail rfl whole

/-- The numbers are exact where the unsigned one at the cursor has no bits past the 64th
    in its tenth group and the signed one repeats its sign in the last two, or is too long
    to be read. -/
theorem leb128_exact_iff (c : Cur) : Exact c ↔
    (∀ bs tail w, c.rest = bs ++ tail → Uleb bs w → bs.length ≤ 11 → HighZero 0 bs → TenthFits bs) ∧
    ∀ bs tail w, c.rest = bs ++ tail → Sleb bs w → bs.length ≤ 11 → SignFits bs := by
  constructor
  · intro exact
    exact ⟨(unsignedExact_iff c).mp exact.unsigned, (signedExact_iff c).mp exact.signed⟩
  · rintro ⟨tenth, sign⟩
    constructor
    · exact (unsignedExact_iff c).mpr tenth
    · exact (signedExact_iff c).mpr sign
    · intro bs tail v whole shortest fits
      exact reads_shortest whole shortest fits
    · intro bs tail v whole shortest low high
      exact reads_signed_shortest whole shortest low high

/-- Nine continued zero groups and a tenth group of two. -/
def droppedBit : Cur := Cur.new [0x80, 0x80, 0x80, 0x80, 0x80, 0x80, 0x80, 0x80, 0x80, 0x02] .little

theorem dropped_bit_accepted : ¬∀ c, Exact c := by
  intro always
  have read : uleb128 droppedBit = some (0, droppedBit.advance 10) := by decide
  obtain ⟨bs, tail, whole, groups, next⟩ := (always droppedBit).unsigned.exact _ _ read
  have length : bs.length = 10 := by
    have := congrArg Cur.pos next
    simpa [droppedBit, Cur.new, Cur.advance] using this.symm
  have tenth := uleb_group groups 9
  have same : bs[9]? = some 2 := by
    have := congrArg (fun l : List UInt8 => l[9]?) whole
    rw [List.getElem?_append_left (by omega)] at this
    exact this.symm
  rw [same] at tenth
  simp at tenth

end E5r.LebNumbers
