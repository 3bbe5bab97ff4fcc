import E5r.LocationExpressions
import E5r.LocationReads

/-!
What a location that is decoded says against what the machine finds: runs of an
expression with nothing but markers behind its first operation.
-/
namespace E5r.LocationMeanings
open Cursor DwarfModel LebNumbers LocationExpressions LocationModel LocationReads

def layoutOf (unit : DwarfModel.Unit) : Layout := ⟨unit.endian, unit.addressSize, if unit.sixtyFour then 8 else 4⟩

/-- The address at an index of the unit's own table. -/
def tableOf (unit : DwarfModel.Unit) (index : ℕ) : Option ℕ :=
  let start := unit.addrBase + index * unit.addressSize
  if start + unit.addressSize ≤ unit.sections.addr.length ∧ start + unit.addressSize < 2 ^ 64 then
    some (toNat unit.endian ((unit.sections.addr.drop start).take unit.addressSize))
  else none

/-- A machine that runs the expressions of a unit. -/
structure Runner (unit : DwarfModel.Unit) (m : Machine) : Prop where
  layout : m.layout = layoutOf unit
  table : m.table = tableOf unit

/-- What a location says that an expression means. -/
inductive Says (m : Machine) : Location → Meaning → Prop where
  | register {r : ℕ} : Says m (.register r) (.register r)
  | frameOffset {o : ℤ} : Says m (.frameOffset o) (.memory (m.cut (m.frameBase + o)))
  | registerOffset {r : ℕ} {o : ℤ} : Says m (.registerOffset r o) (.memory (m.cut (m.register r + o)))
  | address {a : ℕ} : Says m (.address a) (.memory a)
  | constant {v : ℤ} : Says m (.constant v) (.value (m.cut v))

/-- Whatever an expression is taken for is what it means. -/
structure Faithful (unit : DwarfModel.Unit) (code : List UInt8) : Prop where
  decoded : ∀ m, Runner unit m → ∀ what, Evaluates m code what → ∀ loc, decodeLocation code unit = some loc →
    loc ≠ .expression code → Says m loc what
  frame : ∀ m, Runner unit m → ∀ what, Evaluates m code what → ∀ o,
    LocationModel.frameOffset (some (.block code)) = some o → what = .memory (m.cut (m.frameBase + o))
  static : ∀ m, Runner unit m → ∀ what, Evaluates m code what → ∀ a, staticAddress (some (.block code)) unit = some a →
    what = .memory a

section
variable {m : Machine} {l : Layout} {code rest : List UInt8} {pos op next : ℕ} {b : UInt8} {xs : List Operand}
  {s : List ℕ} {what : Meaning}

theorem cut_bmod (a o : ℤ) : m.cut (a + Int.bmod o (2 ^ 64)) = m.cut (a + o) := by
  have divides : (2 : ℤ) ^ m.bits ∣ 2 ^ 64 := pow_dvd_pow 2 (by unfold Machine.bits; omega)
  have same : (a + Int.bmod o (2 ^ 64)) % 2 ^ 64 = (a + o) % 2 ^ 64 := by
    have rounds : Int.bmod o (2 ^ 64) % (2 ^ 64 : ℕ) = o % (2 ^ 64 : ℕ) := Int.bmod_emod
    omega
  rw [Machine.cut, Machine.cut, ← Int.emod_emod_of_dvd _ divides, same, Int.emod_emod_of_dvd _ divides]

theorem bits_pos : 8 ≤ m.bits := by
  unfold Machine.bits
  omega

theorem cut_small {v : ℕ} (small : v < 32) : m.cut v = v := by
  have range : 2 ^ 8 ≤ 2 ^ m.bits := Nat.pow_le_pow_right (by decide) bits_pos
  rw [Machine.cut, ← Nat.cast_ofNat, ← Nat.cast_pow, ← Int.natCast_mod, Int.toNat_natCast, Nat.mod_eq_of_lt (by omega)]

theorem operationAt_iff (here : code.drop pos = b :: rest) : OperationAt l code pos op xs next ↔
    op = b.toNat ∧ ∃ ss bs tail, rest = bs ++ tail ∧ shapes b.toNat = some ss ∧ WritesAll l ss bs xs ∧
      next = pos + 1 + bs.length := by
  constructor
  · rintro ⟨is, known, operands⟩
    rw [here, List.cons_append] at is
    obtain ⟨rfl, rfl⟩ := List.cons.inj is
    exact ⟨rfl, _, _, _, rfl, known, operands, rfl⟩
  · rintro ⟨rfl, ss, bs, tail, rfl, known, operands, rfl⟩
    exact .mk here known operands

/-- An operation that does something to the stack and goes on to the next. -/
def Ordinary (op : ℕ) : Prop := ¬IsPiece op ∧ op ≠ 0x9f ∧ op ≠ 0x2f ∧ op ≠ 0x28

theorem run_past (here : code.drop pos = b :: rest) (ordinary : Ordinary b.toNat) (run : Runs m code pos s what) :
    ∃ xs next s', OperationAt m.layout code pos b.toNat xs next ∧ m.effect b.toNat xs s = some s' ∧
      Runs m code next s' what := by
  obtain ⟨whole, marker, jump, branch⟩ := ordinary
  have first {op : ℕ} {xs : List Operand} {next : ℕ} (at_ : OperationAt m.layout code pos op xs next) : op = b.toNat :=
    ((operationAt_iff here).mp at_).1
  cases run with
  | address =>
    rw [List.drop_length] at here
    cases here
  | value at_ => exact absurd (first at_).symm marker
  | part at_ is => exact absurd (first at_ ▸ is) whole
  | valuePart at_ _ _ => exact absurd (first at_).symm marker
  | plain at_ does later =>
    obtain rfl := first at_
    exact ⟨_, _, _, at_, does, later⟩
  | skip at_ _ _ => exact absurd (first at_).symm jump
  | branch at_ _ _ => exact absurd (first at_).symm branch

theorem marker_operands (here : code.drop pos = b :: rest) (is : b.toNat = 0x9f)
    (at_ : OperationAt l code pos op xs next) : op = 0x9f ∧ xs = [] ∧ next = pos + 1 := by
  obtain ⟨rfl, ss, bs, tail, -, shaped, operands, rfl⟩ := (operationAt_iff here).mp at_
  rw [is] at shaped
  obtain rfl : [] = ss := Option.some.inj shaped
  cases operands
  exact ⟨is, rfl, rfl⟩

theorem run_markers {a : ℕ} {tail : List UInt8} (here : code.drop pos = tail) (all : onlyMarkers tail)
    (run : Runs m code pos [a] what) : tail = [] ∧ what = .memory a ∨ tail = [0x9f] ∧ what = .value a := by
  cases tail with
  | nil =>
    cases run with
    | address => exact .inl ⟨rfl, rfl⟩
    | value at_ => exact absurd at_ (no_operation here)
    | part at_ _ => exact absurd at_ (no_operation here)
    | valuePart at_ _ _ => exact absurd at_ (no_operation here)
    | plain at_ _ _ => exact absurd at_ (no_operation here)
    | skip at_ _ _ => exact absurd at_ (no_operation here)
    | branch at_ _ _ => exact absurd at_ (no_operation here)
  | cons b tail =>
    rw [onlyMarkers] at all
    by_cases is : b.toNat = DW_OP_STACK_VALUE
    · rw [if_pos is] at all
      have marker {op : ℕ} {xs : List Operand} {next : ℕ} (at_ : OperationAt m.layout code pos op xs next) :=
        marker_operands here is at_
      have behind : code.drop (pos + 1) = tail := by
        rw [← List.drop_drop, here]
        rfl
      cases run with
      | address =>
        rw [List.drop_length] at here
        cases here
      | value at_ =>
        obtain ⟨-, -, last⟩ := marker at_
        rw [← last, List.drop_length] at behind
        subst behind
        refine .inr ⟨?_, rfl⟩
        rw [UInt8.toNat_inj.mp (show b.toNat = (0x9f : UInt8).toNat from is)]
      | part at_ piece =>
        obtain ⟨rfl, -⟩ := marker at_
        exact absurd piece (by unfold IsPiece; decide)
      | valuePart at_ next piece =>
        obtain ⟨-, -, rfl⟩ := marker at_
        cases tail with
        | nil => exact absurd next (no_operation behind)
        | cons c tail =>
          rw [onlyMarkers] at all
          by_cases again : c.toNat = DW_OP_STACK_VALUE
          · obtain ⟨rfl, -⟩ := marker_operands behind again next
            exact absurd piece (by unfold IsPiece; decide)
          · rw [if_neg again] at all
            cases all
      | plain at_ does _ =>
        obtain ⟨rfl, rfl, -⟩ := marker at_
        cases does
      | skip at_ _ _ => exact absurd (marker at_).1 (by decide)
      | branch at_ _ _ => exact absurd (marker at_).1 (by decide)
    · rw [if_neg is] at all
      cases all
end

section
variable {unit : DwarfModel.Unit} {m : Machine} {l : Layout} {code bs tail : List UInt8} {next a : ℕ} {b : UInt8}
  {xs : List Operand} {what d : Meaning} {loc : Location}

theorem no_marked_piece {pos op : ℕ} (here : code.drop pos = tail) (all : onlyMarkers tail) (piece : IsPiece op) :
    ¬OperationAt l code pos op xs next := by
  intro at_
  cases tail with
  | nil => exact no_operation here at_
  | cons c tail =>
    rw [onlyMarkers] at all
    by_cases is : c.toNat = DW_OP_STACK_VALUE
    · obtain ⟨rfl, -⟩ := marker_operands here is at_
      exact absurd piece (by unfold IsPiece; decide)
    · rw [if_neg is] at all
      cases all

theorem run_of_evaluates (ordinary : Ordinary b.toNat) (undescribed : ∀ xs d, ¬Describes b.toNat xs d)
    (evaluates : Evaluates m (b :: tail) what) : ∃ xs next s, OperationAt m.layout (b :: tail) 0 b.toNat xs next ∧
      m.effect b.toNat xs [] = some s ∧ Runs m (b :: tail) next s what := by
  have first {op : ℕ} {xs : List Operand} {next : ℕ} (at_ : OperationAt m.layout (b :: tail) 0 op xs next) :
      op = b.toNat := ((operationAt_iff rfl).mp at_).1
  cases evaluates with
  | absent empty => cases empty
  | description at_ is => exact absurd (first at_ ▸ is) (undescribed _ _)
  | parts at_ is _ _ => exact absurd (first at_ ▸ is) (undescribed _ _)
  | runs run => exact run_past rfl ordinary run

theorem evaluates_push (at_ : OperationAt m.layout (b :: bs) 0 b.toNat xs next) (ordinary : Ordinary b.toNat)
    (undescribed : ∀ xs d, ¬Describes b.toNat xs d) (pushes : m.effect b.toNat xs [] = some [a])
    (behind : (b :: bs).drop next = tail) (all : onlyMarkers tail) (evaluates : Evaluates m (b :: bs) what) :
    tail = [] ∧ what = .memory a ∨ tail = [0x9f] ∧ what = .value a := by
  obtain ⟨xs', next', s, at', does, run⟩ := run_of_evaluates ordinary undescribed evaluates
  obtain ⟨-, rfl, rfl⟩ := operationAt_unique at_ at'
  obtain rfl := Option.some.inj (pushes.symm.trans does)
  exact run_markers behind all run

theorem evaluates_description (at_ : OperationAt m.layout (b :: bs) 0 b.toNat xs next) (ordinary : Ordinary b.toNat)
    (alone : ∀ d', Describes b.toNat xs d' → d' = d)
    (stuck : m.effect b.toNat xs [] = none) (behind : (b :: bs).drop next = tail) (all : onlyMarkers tail)
    (evaluates : Evaluates m (b :: bs) what) : what = d ∧ tail = [] := by
  cases evaluates with
  | absent empty => cases empty
  | description at' is =>
    obtain ⟨rfl, rfl, rfl⟩ := operationAt_unique at_ at'
    rw [List.drop_length] at behind
    exact ⟨alone _ is, behind.symm⟩
  | parts at' is piece isPiece =>
    obtain ⟨-, -, rfl⟩ := operationAt_unique at_ at'
    exact absurd piece (no_marked_piece behind all isPiece)
  | runs run =>
    obtain ⟨xs', next', s, at', does, -⟩ := run_past rfl ordinary run
    obtain ⟨-, rfl, -⟩ := operationAt_unique at_ at'
    rw [stuck] at does
    cases does

theorem operation_of_writes {ss : List Shape} (shaped : shapes b.toNat = some ss) (operands : WritesAll l ss bs xs) :
    OperationAt l (b :: (bs ++ tail)) 0 b.toNat xs (1 + bs.length) := by
  have at_ : OperationAt l (b :: (bs ++ tail)) 0 b.toNat xs (0 + 1 + bs.length) := .mk rfl shaped operands
  rwa [Nat.zero_add] at at_

theorem writes_one {shape : Shape} {x : Operand} (writes : Writes l shape bs x) : WritesAll l [shape] bs [x] := by
  have all := WritesAll.cons writes .nil
  rwa [List.append_nil] at all

theorem writes_two {first second : Shape} {cs : List UInt8} {x y : Operand} (writes : Writes l first bs x)
    (writes' : Writes l second cs y) : WritesAll l [first, second] (bs ++ cs) [x, y] :=
  .cons writes (writes_one writes')

theorem drop_behind {tail : List UInt8} : (b :: (bs ++ tail)).drop (1 + bs.length) = tail := by
  rw [Nat.add_comm, List.drop_succ_cons, List.drop_left' rfl]

inductive IsOffset : Location → Prop where
  | frame {o : ℤ} : IsOffset (.frameOffset o)
  | register {r : ℕ} {o : ℤ} : IsOffset (.registerOffset r o)

/-- A register's number that the reader takes for a smaller one. -/
inductive Wrapped : List UInt8 → Prop where
  | register {b : UInt8} {bs : List UInt8} {w : ℕ} (is : b.toNat = 0x90) (number : UnsignedRead bs w)
    (large : 2 ^ 64 ≤ w) (few : w % 2 ^ 64 < 2 ^ 16) : Wrapped (b :: bs)
  | offset {b : UInt8} {bs cs : List UInt8} {w : ℕ} {o : ℤ} (is : b.toNat = 0x92) (number : UnsignedRead bs w)
    (large : 2 ^ 64 ≤ w) (few : w % 2 ^ 64 < 2 ^ 16) (offset : SignedRead cs o) : Wrapped (b :: (bs ++ cs))

theorem ordinary_of_lt {op : ℕ} (low : 0x30 ≤ op) (high : op < 0x93) : Ordinary op := by
  unfold Ordinary IsPiece
  omega

theorem undescribed_of_stack {op : ℕ} (low : op < 0x50 ∨ 0x70 ≤ op ∧ op ≠ 0x90 ∧ op ≠ 0x9e ∧ op ≠ 0xa0)
    (xs : List Operand) (d : Meaning) : ¬Describes op xs d := by
  intro is
  cases is <;> omega

theorem shapes_offset {r : ℕ} (few : r < 32) : shapes (0x70 + r) = some [.signed] := by
  simp (disch := omega) only [shapes, if_neg, if_pos]

theorem shapes_none {op : ℕ} (low : 0x30 ≤ op) (high : op ≤ 0x6f) : shapes op = some [] := by
  simp (disch := omega) only [shapes, if_neg, if_pos]

theorem effect_offset {r : ℕ} {o : ℤ} (few : r < 32) :
    m.effect (0x70 + r) [.number o] [] = some [m.cut (m.register r + o)] := by
  simp (disch := omega) only [Machine.effect, if_neg, if_pos, Nat.add_sub_cancel_left]

theorem effect_literal {n : ℕ} (few : n < 32) : m.effect (0x30 + n) [] [] = some [n] := by
  simp (disch := omega) only [Machine.effect, if_neg, if_pos, Nat.add_sub_cancel_left]

theorem effect_register {r : ℕ} (few : r < 32) : m.effect (0x50 + r) [] [] = none := by
  simp (disch := omega) only [Machine.effect, if_neg, Machine.calculate]

theorem offset_pushes (m : Machine) (tail : List UInt8) (known : Known unit b.toNat bs loc) (offset : IsOffset loc) :
    ∃ xs a, OperationAt m.layout (b :: (bs ++ tail)) 0 b.toNat xs (1 + bs.length) ∧ m.effect b.toNat xs [] = some [a] ∧
      (¬Wrapped (b :: bs) → Says m loc (.memory a)) ∧ Ordinary b.toNat ∧ ∀ xs d, ¬Describes b.toNat xs d := by
  generalize is : b.toNat = op at known
  cases known with
  | @frame _ o number =>
    refine ⟨[.number o], _, ?_, rfl, fun _ => ?_, ordinary_of_lt (by decide) (by decide),
      undescribed_of_stack (by decide)⟩
    · rw [← is]
      exact operation_of_writes (by rw [is]; rfl) (writes_one (.signed number.groups))
    · rw [← cut_bmod]
      exact .frameOffset
  | @offsetX bs cs w o number few second =>
    refine ⟨[.number w, .number o], _, ?_, rfl, fun exact_ => ?_, ordinary_of_lt (by decide) (by decide),
      undescribed_of_stack (by decide)⟩
    · rw [← is]
      exact operation_of_writes (by rw [is]; rfl) (writes_two (.unsigned number.groups) (.signed second.groups))
    · have fits : w < 2 ^ 64 := by
        by_contra large
        exact exact_ (.offset is number (not_lt.mp large) few second)
      rw [← cut_bmod, Nat.mod_eq_of_lt fits]
      exact .registerOffset
  | @offset r _ o few number =>
    refine ⟨[.number o], _, ?_, effect_offset few, fun _ => ?_, ordinary_of_lt (by omega) (by omega),
      undescribed_of_stack (by omega)⟩
    · rw [← is]
      exact operation_of_writes (by rw [is]; exact shapes_offset few) (writes_one (.signed number.groups))
    · rw [← cut_bmod]
      exact .registerOffset
  | _ => cases offset
end

end E5r.LocationMeanings
