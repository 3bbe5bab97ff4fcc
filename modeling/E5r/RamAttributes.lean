import E5r.RamModel

/-!
When the reader of `.riscv.attributes` panics: the tag of an attribute runs past
the end of the list, and the string that follows it would be sliced up to that
end.
-/
namespace E5r.RamAttributes
open RamModel
open Cursor (Uleb leNat)
open Fallible (bind_some_ok_iff bind_none_iff bind_stops bind_ok)

/-- A ULEB128 of at most ten groups at a position, the low 64 bits of its value
    and the position after it. -/
def UlebAt (b : List UInt8) (at_ v next : ℕ) : Prop :=
  ∃ groups u, Uleb groups u ∧ groups <+: b.drop at_ ∧ groups.length ≤ 10 ∧ v = u % 2 ^ 64 ∧ next = at_ + groups.length

private theorem drop_get {b : List UInt8} {at_ : ℕ} {byte : UInt8} (here : b[at_]? = some byte) :
    b.drop at_ = byte :: b.drop (at_ + 1) := by
  obtain ⟨inside, rfl⟩ := List.getElem?_eq_some_iff.mp here
  exact List.drop_eq_getElem_cons inside

private theorem low_bits (byte : UInt8) : (byte &&& 0x7f).toNat = byte.toNat % 128 := by
  rw [UInt8.toNat_and]
  exact Nat.and_two_pow_sub_one_eq_mod _ 7

private theorem high_bit (byte : UInt8) : byte &&& 0x80 = 0 ↔ byte.toNat < 128 := by
  have all : ∀ n < 256, UInt8.ofNat n &&& 0x80 = 0 ↔ n < 128 := by decide +kernel
  have this := all byte.toNat byte.toNat_lt
  rwa [UInt8.ofNat_toNat] at this

/-- The shifts of the groups from the `k`-th on. -/
def shiftsFrom (k n : ℕ) : List ℕ := (List.range n).map fun i => 7 * (k + i)

private theorem shiftsFrom_succ (k n : ℕ) : shiftsFrom k (n + 1) = 7 * k :: shiftsFrom (k + 1) n := by
  rw [shiftsFrom, List.range_succ_eq_map, List.map_cons, List.map_map, shiftsFrom]
  congr 1
  apply List.map_congr_left
  intro i _
  simp only [Function.comp_apply]
  omega

private theorem group_or (out low u k : ℕ) (small : low < 128) :
    (out ||| low <<< (7 * k) % 2 ^ 64) ||| u <<< (7 * (k + 1)) % 2 ^ 64 =
      out ||| (low + 128 * u) <<< (7 * k) % 2 ^ 64 := by
  have sum : low + 128 * u = u <<< 7 ||| low := by
    rw [Nat.shiftLeft_eq, Nat.mul_comm u, ← Nat.two_pow_add_eq_or_of_lt (i := 7) small]
    omega
  have shift : u <<< (7 * (k + 1)) = (u <<< 7) <<< (7 * k) := by
    rw [← Nat.shiftLeft_add]
    congr 1
    omega
  rw [sum, shift, Nat.shiftLeft_or_distrib, Nat.or_mod_two_pow, Nat.or_assoc, Nat.or_comm (low <<< (7 * k) % 2 ^ 64)]

section
variable {b : List UInt8} (fits : b.length < 2 ^ 64)

include fits in
private theorem ulebFrom_ok_iff (n : ℕ) : ∀ {k out at_ v next : ℕ},
    ulebFrom b (shiftsFrom k n) out at_ = some (.ok (v, next)) ↔
      ∃ groups u, Uleb groups u ∧ groups <+: b.drop at_ ∧ groups.length ≤ n ∧
        v = out ||| u <<< (7 * k) % 2 ^ 64 ∧ next = at_ + groups.length := by
  induction n with
  | zero =>
    intro k out at_ v next
    constructor
    · rintro ⟨⟩
    · rintro ⟨groups, u, uleb, -, none, -⟩
      cases uleb <;> simp at none
  | succ n ih =>
    intro k out at_ v next
    rw [shiftsFrom_succ, ulebFrom]
    cases here : b[at_]? with
    | none =>
      have outside : b.drop at_ = [] := List.drop_eq_nil_of_le (List.getElem?_eq_none_iff.mp here)
      constructor
      · rintro ⟨⟩
      · rintro ⟨groups, u, uleb, start, -⟩
        rw [outside, List.prefix_nil] at start
        subst start
        cases uleb
    | some byte =>
      have inside : at_ < b.length := (List.getElem?_eq_some_iff.mp here).1
      simp only [add_eq (show at_ + 1 < 2 ^ 64 by omega), bind_ok _ rfl, low_bits, high_bit]
      rw [drop_get here]
      by_cases last : byte.toNat < 128
      · rw [if_pos last, pure_ok, Prod.mk.injEq, Nat.mod_eq_of_lt last]
        constructor
        · rintro ⟨rfl, rfl⟩
          refine ⟨[byte], byte.toNat, .last last, ?_, by simp, rfl, rfl⟩
          exact List.prefix_append [byte] _
        · rintro ⟨groups, u, uleb, start, -, rfl, rfl⟩
          cases uleb with
          | last small =>
            obtain rfl := (List.cons_prefix_cons.mp start).1
            exact ⟨rfl, rfl⟩
          | more large _ =>
            obtain rfl := (List.cons_prefix_cons.mp start).1
            omega
      · rw [if_neg last, ih]
        have low : byte.toNat % 128 = byte.toNat - 128 := by
          have := byte.toNat_lt
          omega
        have joined (u : ℕ) := group_or out (byte.toNat % 128) u k (Nat.mod_lt _ (by decide))
        constructor
        · rintro ⟨groups, u, uleb, start, short, rfl, rfl⟩
          refine ⟨byte :: groups, byte.toNat - 128 + 128 * u, .more (by omega) uleb, ?_, by simpa using short, ?_, ?_⟩
          · exact List.cons_prefix_cons.mpr ⟨rfl, start⟩
          · rw [joined, low]
          · rw [List.length_cons]
            omega
        · rintro ⟨groups, u, uleb, start, short, rfl, rfl⟩
          cases uleb with
          | last small =>
            obtain rfl := (List.cons_prefix_cons.mp start).1
            omega
          | @more _ groups u large uleb =>
            obtain ⟨rfl, later⟩ := List.cons_prefix_cons.mp start
            refine ⟨groups, u, uleb, later, by simpa using short, ?_, ?_⟩
            · rw [joined, low]
            · rw [List.length_cons]
              omega

include fits in
theorem uleb_ok_iff {at_ v next : ℕ} : uleb b at_ = some (.ok (v, next)) ↔ UlebAt b at_ v next := by
  have shifts : (List.range 10).map (7 * ·) = shiftsFrom 0 10 := by decide
  rw [uleb, shifts, ulebFrom_ok_iff fits]
  simp only [Nat.zero_or, Nat.mul_zero, Nat.shiftLeft_zero]
  rfl

include fits in
private theorem ulebFrom_returns (shifts : List ℕ) : ∀ {out at_ : ℕ}, ulebFrom b shifts out at_ ≠ none := by
  induction shifts with
  | nil => exact throw_returns
  | cons shift shifts ih =>
    intro out at_
    rw [ulebFrom]
    cases here : b[at_]? with
    | none => exact throw_returns
    | some byte =>
      have inside : at_ < b.length := (List.getElem?_eq_some_iff.mp here).1
      simp only [add_eq (show at_ + 1 < 2 ^ 64 by omega), bind_ok _ rfl]
      split
      · exact pure_returns
      · exact ih

include fits in
theorem uleb_returns (at_ : ℕ) : uleb b at_ ≠ none := ulebFrom_returns fits _

/-- A number takes at least one byte, inside the bytes. -/
theorem UlebAt.moves {at_ v next : ℕ} (number : UlebAt b at_ v next) : at_ < next ∧ next ≤ b.length := by
  obtain ⟨groups, u, uleb, start, -, -, rfl⟩ := number
  have positive : 0 < groups.length := by cases uleb <;> exact Nat.succ_pos _
  have length := start.length_le
  rw [List.length_drop] at length
  omega
end

/-- The length of the string at a position, which ends before `stop`. -/
def textLength (rest : List UInt8) (at_ stop : ℕ) : Option ℕ :=
  ((rest.drop at_).take (stop - at_)).findIdx? (· == 0)

/-- From one position of a list the reader skips whole attributes up to another:
    an even tag has a number, an odd one other than 5 a string. -/
inductive Skips (rest : List UInt8) (stop : ℕ) : ℕ → ℕ → Prop where
  | refl (at_ : ℕ) : Skips rest stop at_ at_
  | number {at_ value next c tag v : ℕ} (inside : at_ < stop) (read : UlebAt rest at_ tag value) (even : tag % 2 = 0)
      (skipped : UlebAt rest value v next) (more : Skips rest stop next c) : Skips rest stop at_ c
  | text {at_ value c tag len : ℕ} (inside : at_ < stop) (read : UlebAt rest at_ tag value) (odd : tag % 2 = 1)
      (other : tag ≠ 5) (within : value ≤ stop) (skipped : textLength rest value stop = some len)
      (more : Skips rest stop (value + len + 1) c) : Skips rest stop at_ c

/-- The reader comes to an odd tag that ends past the end of the list. -/
def OverrunsFrom (rest : List UInt8) (stop at_ : ℕ) : Prop :=
  ∃ c, Skips rest stop at_ c ∧ c < stop ∧ ∃ tag next, UlebAt rest c tag next ∧ tag % 2 = 1 ∧ stop < next

section
variable {rest : List UInt8} {stop : ℕ}

private theorem overruns_iff {at_ : ℕ} (before : at_ < stop) : OverrunsFrom rest stop at_ ↔
    ∃ tag value, UlebAt rest at_ tag value ∧
      (tag % 2 = 0 ∧ (∃ v next, UlebAt rest value v next ∧ OverrunsFrom rest stop next) ∨
        tag % 2 = 1 ∧ (stop < value ∨ tag ≠ 5 ∧ value ≤ stop ∧
          ∃ len, textLength rest value stop = some len ∧ OverrunsFrom rest stop (value + len + 1))) := by
  constructor
  · rintro ⟨c, skips, inList, tag, next, read, odd, past⟩
    cases skips with
    | refl => exact ⟨tag, next, read, .inr ⟨odd, .inl past⟩⟩
    | number _ read' even skipped more =>
      exact ⟨_, _, read', .inl ⟨even, _, _, skipped, c, more, inList, tag, next, read, odd, past⟩⟩
    | text _ read' odd' other within skipped more =>
      exact ⟨_, _, read', .inr ⟨odd', .inr ⟨other, within, _, skipped, c, more, inList, tag, next, read, odd, past⟩⟩⟩
  · rintro ⟨tag, value, read, ⟨even, v, next, skipped, c, more, later⟩ | ⟨odd, past | ⟨other, within, len, skipped, c, more,
      later⟩⟩⟩
    · exact ⟨c, .number before read even skipped more, later⟩
    · exact ⟨at_, .refl at_, before, tag, value, read, odd, past⟩
    · exact ⟨c, .text before read odd other within skipped more, later⟩

private theorem no_overrun {at_ : ℕ} (past : ¬at_ < stop) : ¬OverrunsFrom rest stop at_ := by
  rintro ⟨c, skips, inList, -⟩
  cases skips with
  | refl => exact past inList
  | number inside => exact past inside
  | text inside => exact past inside

/-- The passes over a list panic exactly at an overrun. -/
theorem attributesFrom_none_iff (fits : rest.length < 2 ^ 64) (inside : stop ≤ rest.length) (n : ℕ) : ∀ {at_ : ℕ},
    stop ≤ at_ + n → (attributesFrom rest stop (n + 1) at_ = none ↔ OverrunsFrom rest stop at_) := by
  induction n with
  | zero =>
    intro at_ enough
    rw [attributesFrom, if_neg (by omega)]
    exact iff_of_false throw_returns (no_overrun (by omega))
  | succ n ih =>
    intro at_ enough
    rw [attributesFrom]
    by_cases before : at_ < stop
    · rw [if_pos before, overruns_iff before, bind_none_iff, or_iff_right (uleb_returns fits at_)]
      constructor
      · rintro ⟨⟨tag, value⟩, read, panics⟩
        rw [uleb_ok_iff fits] at read
        have moved := read.moves
        refine ⟨tag, value, read, ?_⟩
        dsimp only at panics
        by_cases even : tag % 2 = 0
        · rw [if_pos even] at panics
          obtain ⟨⟨v, next⟩, skipped, panics⟩ := bind_stops (uleb_returns fits value) panics
          rw [uleb_ok_iff fits] at skipped
          have further := skipped.moves
          exact .inl ⟨even, v, next, skipped, (ih (by omega)).mp panics⟩
        · refine .inr ⟨by omega, ?_⟩
          rw [if_neg even] at panics
          by_cases past : stop < value
          · exact .inl past
          · rw [slice_eq (by omega) inside, bind_ok _ rfl] at panics
            obtain ⟨len, found, panics⟩ := bind_stops orElse_returns panics
            rw [orElse_ok] at found
            have short : len < stop - value := by
              have := (List.findIdx?_eq_some_iff_getElem.mp found).1
              rw [List.length_take] at this
              omega
            have sum : add value len = some (.ok (value + len)) := add_eq (by omega)
            by_cases five : tag = 5
            · rw [if_pos five, sum, bind_ok _ rfl, slice_eq (by omega) (by omega), bind_ok _ rfl] at panics
              exact absurd panics orElse_returns
            · rw [if_neg five, add_eq (by omega), bind_ok _ rfl, add_eq (by omega), bind_ok _ rfl] at panics
              exact .inr ⟨five, by omega, len, found, (ih (by omega)).mp panics⟩
      · rintro ⟨tag, value, read, cases⟩
        have moved := read.moves
        refine ⟨(tag, value), (uleb_ok_iff fits).mpr read, ?_⟩
        dsimp only
        rcases cases with ⟨even, v, next, skipped, panics⟩ | ⟨odd, past | ⟨other, within, len, skipped, panics⟩⟩
        · have further := skipped.moves
          rw [if_pos even, bind_ok _ ((uleb_ok_iff fits).mpr skipped)]
          exact (ih (by omega)).mpr panics
        · rw [if_neg (by omega), bind_none_iff]
          exact .inl (slice_none.mpr (.inl past))
        · have short : len < stop - value := by
            have := (List.findIdx?_eq_some_iff_getElem.mp skipped).1
            rw [List.length_take] at this
            omega
          rw [textLength] at skipped
          rw [if_neg (by omega), bind_ok _ (slice_eq within inside), bind_ok _ (orElse_ok.mpr skipped), if_neg other,
            bind_ok _ (add_eq (by omega)), bind_ok _ (add_eq (by omega))]
          exact (ih (by omega)).mpr panics
    · rw [if_neg before]
      exact iff_of_false throw_returns (no_overrun before)
end

/-- `riscv`, its NUL and the tag of a file's attributes. -/
def vendor : List UInt8 := [0x72, 0x69, 0x73, 0x63, 0x76, 0, 1]

/-- The bytes after the length of the subsection, and the end of its list of
    attributes there. -/
structure Section (b rest : List UInt8) (stop : ℕ) : Prop where
  version : b.head? = some 0x41
  long : 5 ≤ b.length
  size : 4 ≤ leNat ((b.drop 1).take 4) ∧ leNat ((b.drop 1).take 4) < b.length
  rest_eq : rest = (b.drop 5).take (leNat ((b.drop 1).take 4) - 4)
  vendor_eq : rest.take 7 = vendor
  counted : 11 ≤ rest.length
  stop_eq : stop = 6 + leNat ((rest.drop 7).take 4)
  inside : stop ≤ rest.length

/-- The attributes of a file run past the end of their list. -/
def Overruns (b : List UInt8) : Prop := ∃ rest stop, Section b rest stop ∧ OverrunsFrom rest stop 11

private theorem vendor_iff {rest : List UInt8} : rest.take 7 = vendor ↔
    ∃ nul, rest.findIdx? (· == 0) = some nul ∧ rest.take nul = [0x72, 0x69, 0x73, 0x63, 0x76] ∧
      rest[nul + 1]? = some 1 := by
  constructor
  · intro same
    have whole : rest = vendor ++ rest.drop 7 := by rw [← same, List.take_append_drop]
    refine ⟨5, ?_, ?_, ?_⟩
    · rw [whole]
      rfl
    · rw [whole]
      rfl
    · rw [whole]
      rfl
  · rintro ⟨nul, found, name, tag⟩
    obtain ⟨inside, zero, -⟩ := List.findIdx?_eq_some_iff_getElem.mp found
    have length := congrArg List.length name
    rw [List.length_take_of_le (by omega)] at length
    simp only [List.length_cons, List.length_nil] at length
    subst length
    have zeroByte : rest[5]? = some 0 := by
      rw [List.getElem?_eq_getElem inside]
      simpa using zero
    rw [List.take_add_one, List.take_add_one, name, zeroByte, tag]
    rfl

theorem archAttribute_none_iff {b : List UInt8} (fits : b.length < 2 ^ 63) : archAttribute b = none ↔ Overruns b := by
  have word (bs : List UInt8) (four : bs.length = 4) : leNat bs < 2 ^ 32 := by
    have below := Cursor.leNat_lt bs
    rw [four] at below
    omega
  constructor
  · intro panics
    rw [archAttribute] at panics
    obtain ⟨_, version, panics⟩ := bind_stops refuse_returns panics
    rw [refuse_ok, not_or, not_not, not_lt] at version
    have sizeWord := word ((b.drop 1).take 4) (by rw [List.length_take, List.length_drop]; omega)
    rw [slice_eq (by omega) version.2, bind_ok _ rfl, show 5 - 1 = 4 from rfl, checkedAdd_eq (by omega)] at panics
    obtain ⟨_, subEnd, panics⟩ := bind_stops orElse_returns panics
    rw [orElse_ok, Option.some_inj] at subEnd
    subst subEnd
    obtain ⟨sub_, found, panics⟩ := bind_stops orElse_returns panics
    rw [orElse_ok, get_eq_some, Nat.add_sub_cancel_left] at found
    obtain ⟨-, inFile, rfl⟩ := found
    obtain ⟨rest, found, panics⟩ := bind_stops orElse_returns panics
    rw [orElse_ok, get_eq_some] at found
    obtain ⟨size, -, restEq⟩ := found
    rw [List.length_take, List.length_drop] at size
    rw [List.take_of_length_le (by rw [List.length_drop]), List.drop_take, List.drop_drop] at restEq
    obtain ⟨nul, found, panics⟩ := bind_stops orElse_returns panics
    rw [orElse_ok] at found
    have inside := (List.findIdx?_eq_some_iff_getElem.mp found).1
    have short : rest.length ≤ b.length := by
      rw [← restEq, List.length_take, List.length_drop]
      omega
    rw [slice_eq (by omega) (by omega), bind_ok _ rfl] at panics
    obtain ⟨_, name, panics⟩ := bind_stops refuse_returns panics
    rw [refuse_ok, not_not, List.drop_zero, Nat.sub_zero] at name
    rw [add_eq (by omega), bind_ok _ rfl] at panics
    obtain ⟨_, tag, panics⟩ := bind_stops refuse_returns panics
    rw [refuse_ok, not_not] at tag
    have vendorEq := vendor_iff.mpr ⟨nul, found, name, tag⟩
    have five : nul = 5 := by
      have length := congrArg List.length name
      rw [List.length_take_of_le (by omega)] at length
      exact length
    subst five
    rw [add_eq (by omega), bind_ok _ rfl, add_eq (by omega), bind_ok _ rfl, bind_none_iff,
      or_iff_right orElse_returns] at panics
    obtain ⟨tagLen, read, panics⟩ := panics
    rw [orElse_ok, get_eq_some] at read
    obtain ⟨-, counted, rfl⟩ := read
    have tagWord := word ((rest.drop (5 + 1 + 1)).take (5 + 1 + 1 + 4 - (5 + 1 + 1)))
      (by rw [List.length_take, List.length_drop]; omega)
    rw [sub_eq (by omega), bind_ok _ rfl, checkedAdd_eq (by omega), bind_none_iff,
      or_iff_right orElse_returns] at panics
    obtain ⟨stop, limit, panics⟩ := panics
    rw [orElse_ok, Option.filter_eq_some_iff, Option.some_inj, decide_eq_true_eq] at limit
    obtain ⟨stopEq, inRest⟩ := limit
    refine ⟨rest, stop, ⟨version.1, version.2, by omega, restEq.symm, vendorEq, counted, stopEq.symm, inRest⟩, ?_⟩
    exact (attributesFrom_none_iff (by omega) inRest stop (by omega)).mp panics
  · rintro ⟨rest, stop, ⟨version, long, size, restEq, vendorEq, counted, stopEq, inRest⟩, overruns⟩
    obtain ⟨nul, found, name, tag⟩ := vendor_iff.mp vendorEq
    have five : nul = 5 := by
      have nulInside := (List.findIdx?_eq_some_iff_getElem.mp found).1
      have length := congrArg List.length name
      rw [List.length_take_of_le (by omega)] at length
      exact length
    subst five
    have sizeWord := word ((b.drop 1).take 4) (by rw [List.length_take, List.length_drop]; omega)
    have tagWord := word ((rest.drop 7).take 4) (by rw [List.length_take, List.length_drop]; omega)
    have sub_ : get b 1 (1 + leNat ((b.drop 1).take 4)) = some ((b.drop 1).take (leNat ((b.drop 1).take 4))) :=
      get_eq_some.mpr ⟨by omega, by omega, by rw [Nat.add_sub_cancel_left]⟩
    have body : get ((b.drop 1).take (leNat ((b.drop 1).take 4))) 4
        ((b.drop 1).take (leNat ((b.drop 1).take 4))).length = some rest := by
      refine get_eq_some.mpr ⟨?_, le_refl _, ?_⟩
      · rw [List.length_take, List.length_drop]
        omega
      · rw [List.take_of_length_le (by rw [List.length_drop]), List.drop_take, List.drop_drop]
        exact restEq.symm
    have short : rest.length ≤ b.length := by
      rw [restEq, List.length_take, List.length_drop]
      omega
    have limit : ((checkedAdd 6 (leNat ((rest.drop 7).take 4))).filter (· ≤ rest.length)) = some stop := by
      rw [checkedAdd_eq (by omega), Option.filter_eq_some_iff, Option.some_inj, decide_eq_true_eq]
      exact ⟨stopEq.symm, inRest⟩
    rw [archAttribute, refuse_bind (by rw [not_or, not_not, not_lt]; exact ⟨version, long⟩),
      bind_ok _ (slice_eq (by omega) long), show 5 - 1 = 4 from rfl, checkedAdd_eq (by omega),
      bind_ok _ (orElse_ok.mpr rfl), bind_ok _ (orElse_ok.mpr sub_), bind_ok _ (orElse_ok.mpr body),
      bind_ok _ (orElse_ok.mpr found), bind_ok _ (slice_eq (by omega) (by omega)),
      refuse_bind (by rw [not_not]; exact name), bind_ok _ (add_eq (by omega)),
      refuse_bind (by rw [not_not]; exact tag), bind_ok _ (add_eq (by omega)), bind_ok _ (add_eq (by omega)),
      bind_ok _ (orElse_ok.mpr (get_eq_some.mpr ⟨by omega, counted, rfl⟩)), bind_ok _ (sub_eq (by omega)),
      bind_ok _ (orElse_ok.mpr limit)]
    exact (attributesFrom_none_iff (by omega) inRest stop (by omega)).mpr overruns

end E5r.RamAttributes
