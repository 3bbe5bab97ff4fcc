import E5r.LocationMeanings

/-!
When `decode_location`, `frame_offset` and `static_address` say what an expression
means, and when they do not.
-/
namespace E5r.LocationCorrect
open Cursor DwarfModel LebNumbers LocationExpressions LocationModel LocationReads
open LocationMeanings

section
variable {unit : DwarfModel.Unit} {m : Machine} {code bs tail : List UInt8} {a : ℕ} {b : UInt8} {what : Meaning}

/-- Where the entry of an index is, if the table holds it. -/
def start (unit : DwarfModel.Unit) (index : ℕ) : ℕ := unit.addrBase + index * unit.addressSize

def Held (unit : DwarfModel.Unit) (index : ℕ) : Prop :=
  start unit index + unit.addressSize ≤ unit.sections.addr.length ∧ start unit index + unit.addressSize < 2 ^ 64

instance (unit : DwarfModel.Unit) (index : ℕ) : Decidable (Held unit index) := inferInstanceAs (Decidable (_ ∧ _))

theorem tableOf_iff {index : ℕ} : tableOf unit index = some a ↔
    Held unit index ∧ toNat unit.endian ((unit.sections.addr.drop (start unit index)).take unit.addressSize) = a := by
  rw [tableOf]
  show (if Held unit index then _ else none) = some a ↔ _
  split
  · next held => exact ⟨fun same => ⟨held, Option.some.inj same⟩, fun both => congrArg some both.2⟩
  · next held => exact ⟨nofun, fun both => absurd both.1 held⟩

theorem word_new_iff {n v : ℕ} {bs : List UInt8} {e : Endian} :
    (word n (Cur.new bs e)).map Prod.fst = some v ↔ n ≤ bs.length ∧ toNat e (bs.take n) = v := by
  rw [Option.map_eq_some_iff]
  constructor
  · rintro ⟨⟨v, next⟩, read, rfl⟩
    obtain ⟨cs, tail, here, rfl, rfl, -⟩ := word_iff.mp read
    obtain rfl : bs = cs ++ tail := here
    rw [List.take_left' rfl, List.length_append]
    exact ⟨Nat.le_add_right _ _, rfl⟩
  · rintro ⟨room, rfl⟩
    have here : (Cur.new bs e).rest = bs.take n ++ bs.drop n := (List.take_append_drop n bs).symm
    exact ⟨_, word_iff.mpr ⟨_, _, here, List.length_take_of_le room, rfl, rfl⟩, rfl⟩

theorem addressFromTable_eq {index size at_ : ℕ} (wide : size = max unit.addressSize 1)
    (where_ : at_ = unit.addrBase + index * size) : addressFromTable unit index =
      if at_ + size < 2 ^ 64 then (slice unit.sections.addr at_ (at_ + size)).bind fun bs =>
        (word (readerWidth unit) (Cur.new bs unit.endian)).map Prod.fst
      else none := by
  have reads (bs : List UInt8) : ((if size = 4 then u32 else u64) (Cur.new bs unit.endian)) =
      (word (readerWidth unit) (Cur.new bs unit.endian)) := by
    have same : size = 4 ↔ unit.addressSize = 4 := by omega
    unfold readerWidth
    simp only [same]
    split <;> rfl
  have positive : 0 < size := by omega
  rw [addressFromTable]
  dsimp only
  rw [← wide]
  by_cases narrow : index * size < 2 ^ 64
  · rw [if_pos narrow, Option.bind_eq_bind, Option.bind_some, ← where_]
    by_cases inside : at_ < 2 ^ 64
    · rw [if_pos inside, Option.bind_eq_bind, Option.bind_some]
      by_cases fits : at_ + size < 2 ^ 64
      · rw [if_pos fits, if_pos fits, Option.bind_eq_bind, Option.bind_some]
        congr 1
        funext bs
        rw [reads]
        cases word (readerWidth unit) (Cur.new bs unit.endian) <;> rfl
      · rw [if_neg fits, if_neg fits]
        rfl
    · rw [if_neg inside, if_neg (show ¬at_ + size < 2 ^ 64 by omega)]
      rfl
  · rw [if_neg narrow, if_neg (show ¬at_ + size < 2 ^ 64 by omega)]
    rfl

theorem addressFromTable_iff {index : ℕ} : addressFromTable unit index = some a ↔
    readerWidth unit ≤ unit.addressSize ∧ Held unit index ∧
      toNat unit.endian ((unit.sections.addr.drop (start unit index)).take (readerWidth unit)) = a := by
  have wide : 4 ≤ readerWidth unit := by
    unfold readerWidth
    split <;> omega
  rw [addressFromTable_eq rfl rfl]
  by_cases none : unit.addressSize = 0
  · have narrow : ¬readerWidth unit ≤ unit.addressSize := by omega
    refine iff_of_false (fun found => ?_) fun parts => narrow parts.1
    rw [Option.ite_none_right_eq_some, Option.bind_eq_some_iff] at found
    obtain ⟨-, bs, sliced, read⟩ := found
    unfold slice at sliced
    split at sliced
    · obtain rfl := Option.some.inj sliced
      have room := (word_new_iff.mp read).1
      rw [List.length_drop, List.length_take, none] at room
      omega
    · cases sliced
  · have size : max unit.addressSize 1 = unit.addressSize := by omega
    rw [size]
    show (if start unit index + unit.addressSize < 2 ^ 64 then (slice unit.sections.addr (start unit index)
      (start unit index + unit.addressSize)).bind _ else _) = some a ↔ _
    rw [Option.ite_none_right_eq_some, Option.bind_eq_some_iff]
    have cut : (unit.sections.addr.take (start unit index + unit.addressSize)).drop (start unit index) =
        (unit.sections.addr.drop (start unit index)).take unit.addressSize := by
      rw [List.drop_take, Nat.add_sub_cancel_left]
    constructor
    · rintro ⟨fits, bs, sliced, read⟩
      unfold slice at sliced
      split at sliced
      · next room =>
        obtain rfl := Option.some.inj sliced
        obtain ⟨within, rfl⟩ := word_new_iff.mp read
        rw [cut, List.length_take, List.length_drop] at within
        refine ⟨by omega, ⟨room.2, fits⟩, ?_⟩
        rw [cut, List.take_take, Nat.min_eq_left (by omega)]
      · cases sliced
    · rintro ⟨within, ⟨room, fits⟩, rfl⟩
      refine ⟨fits, _, if_pos ⟨by omega, room⟩, word_new_iff.mpr ?_⟩
      rw [cut, List.length_take, List.length_drop, List.take_take, Nat.min_eq_left within]
      exact ⟨by omega, rfl⟩

/-- What a fixed address is read from: the address itself or the index of one. -/
inductive Static (unit : DwarfModel.Unit) : List UInt8 → ℕ → Prop where
  | addr {b : UInt8} {bs tail : List UInt8} (is : b.toNat = 0x03) (width : bs.length = readerWidth unit) :
    Static unit (b :: (bs ++ tail)) (toNat unit.endian bs)
  | addrx {b : UInt8} {bs tail : List UInt8} {w a : ℕ} (is : b.toNat = 0xa1) (number : UnsignedRead bs w)
    (found : addressFromTable unit (w % 2 ^ 64) = some a) : Static unit (b :: (bs ++ tail)) a

theorem static_iff : staticAddress (some (.block code)) unit = some a ↔ Static unit code a := by
  constructor
  · intro is
    cases code with
    | nil => cases is
    | cons b code =>
      rw [staticAddress] at is
      by_cases addr : b.toNat = DW_OP_ADDR
      · rw [if_pos addr, Option.map_eq_some_iff] at is
        obtain ⟨⟨v, next⟩, read, rfl⟩ := is
        rw [readAddress_eq] at read
        obtain ⟨bs, tail, here, width, rfl, -⟩ := word_iff.mp read
        obtain rfl : code = bs ++ tail := here
        exact .addr addr width
      · rw [if_neg addr] at is
        by_cases addrx : b.toNat = DW_OP_ADDRX
        · rw [if_pos addrx, Option.bind_eq_bind, Option.bind_eq_some_iff] at is
          obtain ⟨⟨v, next⟩, read, found⟩ := is
          obtain ⟨bs, tail, w, here, number, rfl, -⟩ := uleb128_read_iff.mp read
          obtain rfl : code = bs ++ tail := here
          exact .addrx addrx number found
        · rw [if_neg addrx] at is
          cases is
  · intro static
    cases static with
    | @addr b bs tail is width =>
      rw [staticAddress, if_pos (show b.toNat = DW_OP_ADDR from is), Option.map_eq_some_iff, readAddress_eq]
      exact ⟨_, word_iff.mpr ⟨bs, tail, rfl, width, rfl, rfl⟩, rfl⟩
    | @addrx b bs tail w a is number found =>
      have other : b.toNat ≠ DW_OP_ADDR := by rw [is]; decide
      rw [staticAddress, if_neg other, if_pos (show b.toNat = DW_OP_ADDRX from is), Option.bind_eq_bind,
        Option.bind_eq_some_iff]
      exact ⟨_, uleb128_read_iff.mpr ⟨bs, tail, w, rfl, number, rfl, rfl⟩, found⟩

/-- An expression that starts with an address: where the operations behind it
    start, the address that the machine pushes and the one that is read. -/
inductive Addressed (unit : DwarfModel.Unit) : List UInt8 → ℕ → ℕ → ℕ → Prop where
  | addr {b : UInt8} {bs cs tail tail' : List UInt8} (is : b.toNat = 0x03) (width : bs.length = readerWidth unit)
    (size : cs.length = unit.addressSize) (same : bs ++ tail = cs ++ tail') :
    Addressed unit (b :: (bs ++ tail)) (1 + unit.addressSize) (toNat unit.endian cs) (toNat unit.endian bs)
  | addrx {b : UInt8} {bs tail : List UInt8} {w pushed : ℕ} (is : b.toNat = 0xa1) (number : UnsignedRead bs w)
    (entry : tableOf unit w = some pushed) (width : readerWidth unit ≤ unit.addressSize) :
    Addressed unit (b :: (bs ++ tail)) (1 + bs.length) pushed
      (toNat unit.endian ((unit.sections.addr.drop (start unit w)).take (readerWidth unit)))

theorem held_lt {w : ℕ} (held : Held unit w) (width : readerWidth unit ≤ unit.addressSize) : w < 2 ^ 64 := by
  have some : 0 < unit.addressSize := by
    unfold readerWidth at width
    split at width <;> omega
  have least : w ≤ w * unit.addressSize := Nat.le_mul_of_pos_right w some
  have below := held.2
  unfold start at below
  omega

theorem static_of_addressed {pos pushed : ℕ} (addressed : Addressed unit code pos pushed a) : Static unit code a := by
  cases addressed with
  | addr is width size same => exact .addr is width
  | addrx is number entry width =>
    have held := (tableOf_iff.mp entry).1
    refine .addrx is number (addressFromTable_iff.mpr ⟨width, ?_⟩)
    rw [Nat.mod_eq_of_lt (held_lt held width)]
    exact ⟨held, rfl⟩

theorem address_operation (runner : Runner unit m) {pos pushed : ℕ} (addressed : Addressed unit code pos pushed a) :
    ∃ op xs, OperationAt m.layout code 0 op xs pos ∧ m.effect op xs [] = some [pushed] := by
  cases addressed with
  | @addr b bs cs tail tail' is width size same =>
    refine ⟨b.toNat, [.number (toNat unit.endian cs)], ?_, ?_⟩
    · rw [same, ← size]
      refine operation_of_writes (by rw [is]; rfl) (writes_one ?_)
      have layout : m.layout.endian = unit.endian ∧ m.layout.addressSize = unit.addressSize := by
        rw [runner.layout]
        exact ⟨rfl, rfl⟩
      rw [← layout.1]
      exact .address (size.trans layout.2.symm)
    · rw [is]
      rfl
  | @addrx b bs tail w pushed is number entry width =>
    refine ⟨b.toNat, [.number w], ?_, ?_⟩
    · exact operation_of_writes (by rw [is]; rfl) (writes_one (.unsigned number.groups))
    · rw [is]
      show (m.table (w : ℤ).toNat).map (· :: []) = some [pushed]
      rw [runner.table, Int.toNat_natCast, entry]
      rfl
end

/-- The expressions that are taken for what they mean: no marker makes a place at an
    offset a value, no literal stands alone, no register's number is cut, and what
    follows an address leads back to it. -/
structure Clear (unit : DwarfModel.Unit) (code : List UInt8) : Prop where
  stored : ∀ b bs loc, Known unit b.toNat bs loc → IsOffset loc → code ≠ b :: (bs ++ [0x9f])
  literal : ∀ b : UInt8, 0x30 ≤ b.toNat → b.toNat ≤ 0x4f → code ≠ [b]
  whole : ¬Wrapped code
  addressed : ∀ pos pushed a, Addressed unit code pos pushed a → ∀ m, Runner unit m → ∀ what,
    Runs m code pos [pushed] what → what = .memory a

section
variable {unit : DwarfModel.Unit} {m : Machine} {code bs tail : List UInt8} {a : ℕ} {b : UInt8} {what : Meaning}
  {loc : Location}

theorem ordinary_address : Ordinary 0x03 ∧ Ordinary 0xa1 := by
  unfold Ordinary IsPiece
  omega

theorem addressed_of_static (runner : Runner unit m) (static : Static unit code a) (evaluates : Evaluates m code what) :
    ∃ pos pushed, Addressed unit code pos pushed a ∧ Runs m code pos [pushed] what := by
  have endian : m.layout.endian = unit.endian := by rw [runner.layout]; rfl
  have size : m.layout.addressSize = unit.addressSize := by rw [runner.layout]; rfl
  cases static with
  | @addr b bs tail is width =>
    obtain ⟨xs, next, s, at_, does, run⟩ := run_of_evaluates (by rw [is]; exact ordinary_address.1)
      (by rw [is]; exact undescribed_of_stack (by decide)) evaluates
    obtain ⟨-, ss, _, tail', same, shaped, operands, rfl⟩ := (operationAt_iff rfl).mp at_
    rw [is] at shaped does
    obtain rfl : [.address] = ss := Option.some.inj shaped
    cases operands with
    | @cons _ _ cs _ _ _ first later =>
      cases later
      cases first with
      | address length =>
        rw [endian] at does
        obtain rfl : [toNat unit.endian cs] = s := Option.some.inj does
        rw [List.append_nil] at same run
        have position : 0 + 1 + cs.length = 1 + unit.addressSize := by omega
        rw [position] at run
        exact ⟨_, _, .addr is width (length.trans size) same, run⟩
  | @addrx b bs tail w a is number found =>
    obtain ⟨xs, next, s, at_, does, run⟩ := run_of_evaluates (by rw [is]; exact ordinary_address.2)
      (by rw [is]; exact undescribed_of_stack (by decide)) evaluates
    have first : OperationAt m.layout (b :: (bs ++ tail)) 0 b.toNat [.number w] (1 + bs.length) :=
      operation_of_writes (by rw [is]; rfl) (writes_one (.unsigned number.groups))
    obtain ⟨-, rfl, rfl⟩ := operationAt_unique first at_
    rw [is] at does
    have pushes : (m.table (w : ℤ).toNat).map (· :: []) = some s := does
    rw [Int.toNat_natCast, runner.table, Option.map_eq_some_iff] at pushes
    obtain ⟨pushed, entry, rfl⟩ := pushes
    obtain ⟨width, -, rfl⟩ := addressFromTable_iff.mp found
    have held := (tableOf_iff.mp entry).1
    rw [Nat.mod_eq_of_lt (held_lt held width)]
    exact ⟨_, _, .addrx is number entry width, run⟩

theorem static_means (clear : Clear unit code) (runner : Runner unit m) (evaluates : Evaluates m code what)
    (static : Static unit code a) : what = .memory a := by
  obtain ⟨pos, pushed, addressed, run⟩ := addressed_of_static runner static evaluates
  exact clear.addressed pos pushed a addressed m runner what run

theorem offset_means (clear : Clear unit (b :: (bs ++ tail))) (evaluates : Evaluates m (b :: (bs ++ tail)) what)
    (known : Known unit b.toNat bs loc) (offset : IsOffset loc) (all : onlyMarkers tail) : Says m loc what := by
  obtain ⟨xs, a, at_, pushes, tells, ordinary, undescribed⟩ := offset_pushes m tail known offset
  rcases evaluates_push at_ ordinary undescribed pushes drop_behind all evaluates with ⟨rfl, rfl⟩ | ⟨rfl, -⟩
  · refine tells fun wrapped => clear.whole ?_
    rwa [List.append_nil]
  · exact absurd rfl (clear.stored b bs loc known offset)

theorem describes_register {r : ℕ} {d : Meaning} (few : r < 32) (is : Describes (0x50 + r) [] d) : d = .register r := by
  generalize same : 0x50 + r = n at is
  cases is with
  | @register r' _ =>
    obtain rfl : r = r' := by omega
    rfl
  | _ => omega

theorem describes_registerX {w : ℕ} {d : Meaning} (is : Describes 0x90 [.number w] d) : d = .register w := by
  generalize same : 0x90 = n at is
  generalize operand : [Operand.number (w : ℤ)] = xs at is
  cases is with
  | registerX =>
    obtain ⟨number, -⟩ := List.cons.inj operand
    obtain rfl := Int.ofNat_inj.mp (Operand.number.inj number)
    rfl
  | register => cases operand
  | bytes => cases operand
  | pointer => omega

theorem decoded_means (clear : Clear unit code) (runner : Runner unit m) (evaluates : Evaluates m code what)
    (is : decodeLocation code unit = some loc) (decoded : loc ≠ .expression code) : Says m loc what := by
  obtain ⟨b, bs, tail, rfl, known, all⟩ := known_of_decode is decoded
  generalize op : b.toNat = n at known
  cases known with
  | address width =>
    obtain rfl := static_means clear runner evaluates (.addr op width)
    exact .address
  | index number found =>
    obtain rfl := static_means clear runner evaluates (.addrx op number found)
    exact .address
  | frame number =>
    refine offset_means clear evaluates ?_ .frame all
    rw [op]
    exact .frame number
  | offsetX number few second =>
    refine offset_means clear evaluates ?_ .register all
    rw [op]
    exact .offsetX number few second
  | offset few number =>
    refine offset_means clear evaluates ?_ .register all
    rw [op]
    exact .offset few number
  | @literal n few =>
    have at_ : OperationAt m.layout (b :: ([] ++ tail)) 0 b.toNat [] (1 + 0) :=
      operation_of_writes (by rw [op]; exact shapes_none (by omega) (by omega)) .nil
    rcases evaluates_push at_ (ordinary_of_lt (by omega) (by omega)) (undescribed_of_stack (by omega))
      (by rw [op]; exact effect_literal few) rfl all evaluates with ⟨rfl, -⟩ | ⟨-, rfl⟩
    · exact absurd rfl (clear.literal b (by omega) (by omega))
    · have tells : Says m (.constant n) (.value (m.cut n)) := .constant
      rwa [cut_small few] at tells
  | @register r few =>
    have at_ : OperationAt m.layout (b :: ([] ++ tail)) 0 b.toNat [] (1 + 0) :=
      operation_of_writes (by rw [op]; exact shapes_none (by omega) (by omega)) .nil
    obtain ⟨rfl, -⟩ := evaluates_description at_ (ordinary_of_lt (by omega) (by omega))
      (by rw [op]; exact fun _ => describes_register few) (by rw [op]; exact effect_register few) rfl all evaluates
    exact .register
  | @registerX _ w number few =>
    have at_ : OperationAt m.layout (b :: (bs ++ tail)) 0 b.toNat [.number w] (1 + bs.length) :=
      operation_of_writes (by rw [op]; rfl) (writes_one (.unsigned number.groups))
    obtain ⟨rfl, rfl⟩ := evaluates_description at_ (ordinary_of_lt (by omega) (by omega))
      (by rw [op]; exact fun _ => describes_registerX) (by rw [op]; rfl) drop_behind all evaluates
    rw [List.append_nil] at clear
    have fits : w < 2 ^ 64 := by
      by_contra large
      exact clear.whole (.register op number (not_lt.mp large) few)
    rw [Nat.mod_eq_of_lt fits]
    exact .register
end

section
variable {unit : DwarfModel.Unit} {m : Machine} {code bs tail : List UInt8} {a : ℕ} {b : UInt8} {what : Meaning}
  {loc : Location}

theorem frame_of_read {o : ℤ} (is : LocationModel.frameOffset (some (.block code)) = some o) :
    ∃ b bs w, code = b :: bs ∧ b.toNat = 0x91 ∧ SignedRead bs w ∧ o = Int.bmod w (2 ^ 64) := by
  cases code with
  | nil => cases is
  | cons b code =>
    rw [LocationModel.frameOffset, Option.ite_none_right_eq_some, Option.bind_eq_bind, Option.bind_eq_some_iff] at is
    obtain ⟨op, ⟨v, next⟩, read, last⟩ := is
    obtain ⟨bs, tail, w, here, number, rfl, rfl⟩ := sleb128_read_iff.mp read
    rw [Option.ite_none_right_eq_some] at last
    obtain ⟨empty, same⟩ := last
    rw [Cur.isEmpty, Cur.rest_advance here, List.isEmpty_iff] at empty
    obtain rfl : code = bs ++ tail := here
    subst empty
    rw [List.append_nil]
    exact ⟨b, bs, w, rfl, op, number, (Option.some.inj same).symm⟩

theorem frame_means {o : ℤ} (clear : Clear unit code) (evaluates : Evaluates m code what)
    (is : LocationModel.frameOffset (some (.block code)) = some o) : what = .memory (m.cut (m.frameBase + o)) := by
  obtain ⟨b, bs, w, rfl, op, number, rfl⟩ := frame_of_read is
  have known : Known unit b.toNat bs (.frameOffset (Int.bmod w (2 ^ 64))) := by
    rw [op]
    exact .frame number
  rw [← List.append_nil bs] at clear evaluates
  cases offset_means clear evaluates known .frame rfl
  rfl

theorem faithful_of_clear (clear : Clear unit code) : Faithful unit code where
  decoded _ runner _ evaluates _ is decoded := decoded_means clear runner evaluates is decoded
  frame _ _ _ evaluates _ is := frame_means clear evaluates is
  static _ runner _ evaluates _ is := static_means clear runner evaluates (static_iff.mp is)

/-- A machine with its registers. -/
def runnerOf (unit : DwarfModel.Unit) (register : ℕ → ℕ) : Machine where
  layout := layoutOf unit
  register := register
  frameBase := 0
  frameAddress := 0
  object := 0
  load _ _ := 0
  threadLocal _ := 0
  table := tableOf unit
  other _ _ _ := none

theorem runner_runnerOf (register : ℕ → ℕ) : Runner unit (runnerOf unit register) := ⟨rfl, rfl⟩

theorem marker_last {l : Layout} :
    OperationAt l (b :: (bs ++ [0x9f])) (1 + bs.length) 0x9f [] (b :: (bs ++ [0x9f])).length := by
  have at_ : OperationAt l (b :: (bs ++ [0x9f])) (1 + bs.length) 0x9f [] (1 + bs.length + 1 + 0) :=
    @OperationAt.mk _ _ _ 0x9f [] [] _ _ drop_behind rfl .nil
  have last : (b :: (bs ++ [0x9f])).length = 1 + bs.length + 1 + 0 := by
    rw [List.length_cons, List.length_append, List.length_singleton]
    omega
  rwa [last]

/-- A marked place is decoded as the place, and means its address. -/
theorem stored_of_faithful (faithful : Faithful unit code) (known : Known unit b.toNat bs loc) (offset : IsOffset loc) :
    code ≠ b :: (bs ++ [0x9f]) := by
  rintro rfl
  have runner : Runner unit (runnerOf unit fun _ => 0) := runner_runnerOf _
  obtain ⟨xs, a, at_, pushes, -, -, -⟩ := offset_pushes (runnerOf unit fun _ => 0) [0x9f] known offset
  have evaluates : Evaluates (runnerOf unit fun _ => 0) (b :: (bs ++ [0x9f])) (.value a) :=
    .runs (.plain at_ pushes (.value marker_last))
  have tells := faithful.decoded _ runner _ evaluates loc (decode_of_known known rfl)
    (fun same => known_expression (same ▸ known))
  cases offset <;> cases tells

theorem literal_of_faithful (faithful : Faithful unit code) (low : 0x30 ≤ b.toNat) (high : b.toNat ≤ 0x4f) :
    code ≠ [b] := by
  rintro rfl
  obtain ⟨n, op⟩ : ∃ n, b.toNat = 0x30 + n := ⟨b.toNat - 0x30, by omega⟩
  have few : n < 32 := by omega
  have at_ : OperationAt (runnerOf unit fun _ => 0).layout (b :: ([] ++ [])) 0 b.toNat [] (1 + 0) :=
    operation_of_writes (by rw [op]; exact shapes_none (by omega) (by omega)) .nil
  have evaluates : Evaluates (runnerOf unit fun _ => 0) [b] (.memory n) :=
    .runs (.plain at_ (by rw [op]; exact effect_literal few) .address)
  have known : Known unit b.toNat [] (.constant n) := by
    rw [op]
    exact .literal few
  cases faithful.decoded _ (runner_runnerOf _) _ evaluates _ (decode_alone known) nofun

theorem cut_succ_ne (o : ℤ) : m.cut (1 + o) ≠ m.cut o := by
  intro same
  have positive : (0 : ℤ) < 2 ^ m.bits := by positivity
  have first := Int.emod_nonneg (1 + o) positive.ne'
  have second := Int.emod_nonneg o positive.ne'
  have equal : (1 + o) % 2 ^ m.bits = o % 2 ^ m.bits := by
    unfold Machine.cut at same
    omega
  have large : (2 : ℤ) ^ 8 ≤ 2 ^ m.bits := pow_le_pow_right₀ (by decide) bits_pos
  rw [Int.emod_eq_emod_iff_emod_sub_eq_zero, Int.add_sub_cancel, Int.emod_eq_of_lt (by decide) (by omega)] at equal
  cases equal

theorem whole_of_faithful (faithful : Faithful unit code) : ¬Wrapped code := by
  intro wrapped
  cases wrapped with
  | @register b bs w is number large few =>
    have known : Known unit b.toNat bs (.register (w % 2 ^ 64)) := by
      rw [is]
      exact .registerX number few
    have at_ : OperationAt (runnerOf unit fun _ => 0).layout (b :: (bs ++ [])) 0 b.toNat [.number w] (1 + bs.length) :=
      operation_of_writes (by rw [is]; rfl) (writes_one (.unsigned number.groups))
    rw [List.append_nil, is, Nat.add_comm] at at_
    have evaluates : Evaluates (runnerOf unit fun _ => 0) (b :: bs) (.register w) := .description at_ .registerX
    have decoded := decode_alone known
    have tells := faithful.decoded _ (runner_runnerOf _) _ evaluates _ decoded nofun
    generalize cut : w % 2 ^ 64 = r at tells
    cases tells
    omega
  | @offset b bs cs w o is number large few second =>
    have known : Known unit b.toNat (bs ++ cs) (.registerOffset (w % 2 ^ 64) (Int.bmod o (2 ^ 64))) := by
      rw [is]
      exact .offsetX number few second
    have at_ : OperationAt (runnerOf unit fun r => if r = w then 1 else 0).layout (b :: (bs ++ cs ++ [])) 0 b.toNat
        [.number w, .number o] (1 + (bs ++ cs).length) :=
      operation_of_writes (by rw [is]; rfl) (writes_two (.unsigned number.groups) (.signed second.groups))
    have pushes : (runnerOf unit fun r => if r = w then 1 else 0).effect b.toNat [.number w, .number o] [] =
        some [(runnerOf unit fun r => if r = w then 1 else 0).cut (((if w = w then 1 else 0 : ℕ) : ℤ) + o)] := by
      rw [is]
      rfl
    have decoded := decode_alone known
    rw [List.append_nil] at at_
    have behind : 1 + (bs ++ cs).length = (b :: (bs ++ cs)).length := Nat.add_comm ..
    rw [behind] at at_
    have tells := faithful.decoded _ (runner_runnerOf _) _ (.runs (.plain at_ pushes .address)) _ decoded nofun
    have other : w % 2 ^ 64 ≠ w := by omega
    generalize place : Meaning.memory _ = meant at tells
    cases tells
    have same := Meaning.memory.inj place
    rw [cut_bmod] at same
    have zero : (runnerOf unit fun r => if r = w then 1 else 0).register (w % 2 ^ 64) = 0 := if_neg other
    rw [zero, if_pos rfl, Nat.cast_zero, Nat.cast_one, Int.zero_add] at same
    exact cut_succ_ne o same

theorem addressed_of_faithful {pos pushed : ℕ} (faithful : Faithful unit code)
    (addressed : Addressed unit code pos pushed a) (runner : Runner unit m) (run : Runs m code pos [pushed] what) :
    what = .memory a := by
  obtain ⟨op, xs, at_, pushes⟩ := address_operation runner addressed
  exact faithful.static m runner what (.runs (.plain at_ pushes run)) a (static_iff.mpr (static_of_addressed addressed))

/-- The three decoders are right about exactly the clear expressions. -/
theorem faithful_iff (unit : DwarfModel.Unit) (code : List UInt8) : Faithful unit code ↔ Clear unit code := by
  refine ⟨fun faithful => ?_, faithful_of_clear⟩
  constructor
  · exact fun _ _ _ known offset => stored_of_faithful faithful known offset
  · exact fun _ low high => literal_of_faithful faithful low high
  · exact whole_of_faithful faithful
  · exact fun _ _ _ addressed _ runner _ run => addressed_of_faithful faithful addressed runner run
end

def littleUnit : DwarfModel.Unit := ⟨8, false, 5, 0, 0, 0, .little, ⟨[], [], [], [], [], [], []⟩⟩

/-- The value that is four below the frame base is taken for the place there. -/
theorem marked_place_decoded : ¬∀ unit code, Faithful unit code := by
  intro all
  have number : SignedRead [0x7c] (-4) := ⟨.last (by decide), by decide⟩
  have known : Known littleUnit (0x91 : UInt8).toNat [0x7c] (.frameOffset (Int.bmod (-4) (2 ^ 64))) := .frame number
  exact stored_of_faithful (all littleUnit [0x91, 0x7c, 0x9f]) known .frame rfl

end E5r.LocationCorrect
