import E5r.LebNumbers
import E5r.LocationModel

/-!
What the decoders of location expressions read: `decode_location` takes the first
operation, if nothing but markers follows it.
-/
namespace E5r.LocationReads
open Cursor DwarfModel LebNumbers LocationModel

theorem word_iff {n v : ℕ} {c next : Cur} : word n c = some (v, next) ↔
    ∃ bs tail, c.rest = bs ++ tail ∧ bs.length = n ∧ v = toNat c.endian bs ∧ next = c.advance n := by
  constructor
  · intro read
    unfold word bytes at read
    by_cases room : n ≤ c.rest.length
    · rw [if_pos room] at read
      obtain ⟨rfl, rfl⟩ := Prod.mk.inj (Option.some.inj read)
      exact ⟨_, _, (List.take_append_drop n c.rest).symm, List.length_take_of_le room, rfl, rfl⟩
    · rw [if_neg room] at read
      cases read
  · rintro ⟨bs, tail, here, rfl, rfl, rfl⟩
    exact takes_word bs c tail rfl here

/-- How many bytes an address is read from. -/
def readerWidth (unit : DwarfModel.Unit) : ℕ := if unit.addressSize = 4 then 4 else 8

theorem readAddress_eq {unit : DwarfModel.Unit} : readAddress unit = word (readerWidth unit) := by
  unfold readAddress readerWidth
  split <;> rfl

/-- The bytes that the reader takes for an unsigned number, and for a signed one. -/
structure UnsignedRead (bs : List UInt8) (w : ℕ) : Prop where
  groups : Uleb bs w
  short : bs.length ≤ 11
  zero : HighZero 0 bs

structure SignedRead (bs : List UInt8) (w : ℤ) : Prop where
  groups : Sleb bs w
  short : bs.length ≤ 11

theorem uleb128_read_iff {c next : Cur} {v : ℕ} : uleb128 c = some (v, next) ↔
    ∃ bs tail w, c.rest = bs ++ tail ∧ UnsignedRead bs w ∧ v = w % 2 ^ 64 ∧ next = c.advance bs.length := by
  rw [uleb128_iff]
  constructor
  · rintro ⟨bs, tail, w, here, groups, short, zero, rest⟩
    exact ⟨bs, tail, w, here, ⟨groups, short, zero⟩, rest⟩
  · rintro ⟨bs, tail, w, here, read, rest⟩
    exact ⟨bs, tail, w, here, read.groups, read.short, read.zero, rest⟩

theorem sleb128_read_iff {c next : Cur} {v : ℤ} : sleb128 c = some (v, next) ↔
    ∃ bs tail w, c.rest = bs ++ tail ∧ SignedRead bs w ∧ v = Int.bmod w (2 ^ 64) ∧ next = c.advance bs.length := by
  rw [sleb128_iff]
  constructor
  · rintro ⟨bs, tail, w, here, groups, short, rest⟩
    exact ⟨bs, tail, w, here, ⟨groups, short⟩, rest⟩
  · rintro ⟨bs, tail, w, here, read, rest⟩
    exact ⟨bs, tail, w, here, read.groups, read.short, rest⟩

/-- The operations that are known, with the bytes of their operands and what they are
    taken for. -/
inductive Known (unit : DwarfModel.Unit) : ℕ → List UInt8 → Location → Prop where
  | address {bs : List UInt8} (width : bs.length = readerWidth unit) :
    Known unit 0x03 bs (.address (toNat unit.endian bs))
  | index {bs : List UInt8} {w a : ℕ} (number : UnsignedRead bs w)
    (found : addressFromTable unit (w % 2 ^ 64) = some a) : Known unit 0xa1 bs (.address a)
  | frame {bs : List UInt8} {o : ℤ} (number : SignedRead bs o) : Known unit 0x91 bs (.frameOffset (Int.bmod o (2 ^ 64)))
  | registerX {bs : List UInt8} {w : ℕ} (number : UnsignedRead bs w) (few : w % 2 ^ 64 < 2 ^ 16) :
    Known unit 0x90 bs (.register (w % 2 ^ 64))
  | offsetX {bs cs : List UInt8} {w : ℕ} {o : ℤ} (number : UnsignedRead bs w) (few : w % 2 ^ 64 < 2 ^ 16)
    (offset : SignedRead cs o) : Known unit 0x92 (bs ++ cs) (.registerOffset (w % 2 ^ 64) (Int.bmod o (2 ^ 64)))
  | literal {n : ℕ} (few : n < 32) : Known unit (0x30 + n) [] (.constant n)
  | register {r : ℕ} (few : r < 32) : Known unit (0x50 + r) [] (.register r)
  | offset {r : ℕ} {bs : List UInt8} {o : ℤ} (few : r < 32) (number : SignedRead bs o) :
    Known unit (0x70 + r) bs (.registerOffset r (Int.bmod o (2 ^ 64)))

section
variable {unit : DwarfModel.Unit} {op : ℕ} {loc : Location} {c next : Cur}

theorem toU16_iff {v w : ℕ} : toU16 v = some w ↔ v < 2 ^ 16 ∧ v = w := by
  unfold toU16
  split
  · next few => exact ⟨fun same => ⟨few, Option.some.inj same⟩, fun both => congrArg some both.2⟩
  · next many => exact ⟨nofun, fun both => absurd both.1 many⟩

theorem bind_read_iff {α β : Type} {m : Read α} {f : α → Read β} {v : β} :
    (m >>= f) c = some (v, next) ↔ ∃ a mid, m c = some (a, mid) ∧ f a mid = some (v, next) := by
  show (m c).bind (fun p => f p.1 p.2) = some (v, next) ↔ _
  simp only [Option.bind_eq_some_iff, Prod.exists]

theorem map_read_iff {α β : Type} {m : Read α} {f : α → β} {v : β} :
    (f <$> m) c = some (v, next) ↔ ∃ a, m c = some (a, next) ∧ f a = v := by
  show (m c).bind (fun p => some (f p.1, p.2)) = some (v, next) ↔ _
  simp only [Option.bind_eq_some_iff, Prod.exists, Option.some_inj, Prod.mk.injEq]
  constructor
  · rintro ⟨a, mid, read, same, rfl⟩
    exact ⟨a, read, same⟩
  · rintro ⟨a, read, same⟩
    exact ⟨a, next, read, same, rfl⟩

theorem lift_read_iff {α : Type} {o : Option α} {v : α} :
    (StateT.lift o : Read α) c = some (v, next) ↔ o = some v ∧ c = next := by
  show (o.bind fun a => some (a, c)) = some (v, next) ↔ _
  simp only [Option.bind_eq_some_iff, Option.some_inj, Prod.mk.injEq]
  exact ⟨fun ⟨_, is, same, last⟩ => ⟨is.trans (congrArg some same), last⟩, fun ⟨is, last⟩ => ⟨v, is, rfl, last⟩⟩

theorem pure_read_iff {α : Type} {a v : α} : (pure a : Read α) c = some (v, next) ↔ a = v ∧ c = next := by
  show some (a, c) = some (v, next) ↔ _
  rw [Option.some_inj, Prod.mk.injEq]

theorem known_of_read {read : Read Location} (order : c.endian = unit.endian) (is : operand op unit = some read)
    (reads : read c = some (loc, next)) :
    ∃ bs tail, c.rest = bs ++ tail ∧ Known unit op bs loc ∧ next = c.advance bs.length := by
  unfold operand at is
  split at is
  · next addr =>
    obtain rfl := Option.some.inj is
    obtain ⟨a, read, rfl⟩ := map_read_iff.mp reads
    rw [readAddress_eq] at read
    obtain ⟨bs, tail, here, width, rfl, rfl⟩ := word_iff.mp read
    subst addr
    rw [order, ← width]
    exact ⟨bs, tail, here, .address width, rfl⟩
  split at is
  · next addrx =>
    obtain rfl := Option.some.inj is
    obtain ⟨v, mid, read, rest⟩ := bind_read_iff.mp reads
    obtain ⟨a, lift, rfl⟩ := map_read_iff.mp rest
    obtain ⟨found, rfl⟩ := lift_read_iff.mp lift
    obtain ⟨bs, tail, w, here, number, rfl, rfl⟩ := uleb128_read_iff.mp read
    subst addrx
    exact ⟨bs, tail, here, .index number found, rfl⟩
  split at is
  · next fbreg =>
    obtain rfl := Option.some.inj is
    obtain ⟨v, read, rfl⟩ := map_read_iff.mp reads
    obtain ⟨bs, tail, w, here, number, rfl, rfl⟩ := sleb128_read_iff.mp read
    subst fbreg
    exact ⟨bs, tail, here, .frame number, rfl⟩
  split at is
  · next regx =>
    obtain rfl := Option.some.inj is
    obtain ⟨v, mid, read, rest⟩ := bind_read_iff.mp reads
    obtain ⟨r, lift, rfl⟩ := map_read_iff.mp rest
    obtain ⟨narrow, rfl⟩ := lift_read_iff.mp lift
    obtain ⟨few, rfl⟩ := toU16_iff.mp narrow
    obtain ⟨bs, tail, w, here, number, rfl, rfl⟩ := uleb128_read_iff.mp read
    subst regx
    exact ⟨bs, tail, here, .registerX number few, rfl⟩
  split at is
  · next bregx =>
    obtain rfl := Option.some.inj is
    obtain ⟨v, mid, read, rest⟩ := bind_read_iff.mp reads
    obtain ⟨r, mid', lift, rest⟩ := bind_read_iff.mp rest
    obtain ⟨narrow, rfl⟩ := lift_read_iff.mp lift
    obtain ⟨few, rfl⟩ := toU16_iff.mp narrow
    obtain ⟨o, second, rfl⟩ := map_read_iff.mp rest
    obtain ⟨bs, tail, w, here, number, rfl, rfl⟩ := uleb128_read_iff.mp read
    obtain ⟨cs, tail', u, here', offset, rfl, rfl⟩ := sleb128_read_iff.mp second
    rw [Cur.rest_advance here] at here'
    subst bregx here'
    refine ⟨bs ++ cs, tail', by rw [here, List.append_assoc], .offsetX number few offset, ?_⟩
    rw [Cur.advance_advance, List.length_append]
  split at is
  · next lit =>
    obtain rfl := Option.some.inj is
    obtain ⟨rfl, rfl⟩ := pure_read_iff.mp reads
    obtain ⟨n, rfl⟩ : ∃ n, op = 0x30 + n := ⟨op - 0x30, (Nat.add_sub_cancel' lit.1).symm⟩
    have few : n < 32 := by have := lit.2; unfold DW_OP_LIT31 at this; omega
    refine ⟨[], c.rest, rfl, ?_, rfl⟩
    rw [show 0x30 + n - DW_OP_LIT0 = n from Nat.add_sub_cancel_left ..]
    exact .literal few
  split at is
  · next reg =>
    obtain rfl := Option.some.inj is
    obtain ⟨rfl, rfl⟩ := pure_read_iff.mp reads
    obtain ⟨n, rfl⟩ : ∃ n, op = 0x50 + n := ⟨op - 0x50, (Nat.add_sub_cancel' reg.1).symm⟩
    have few : n < 32 := by have := reg.2; unfold DW_OP_REG31 at this; omega
    refine ⟨[], c.rest, rfl, ?_, rfl⟩
    rw [show 0x50 + n - DW_OP_REG0 = n from Nat.add_sub_cancel_left ..]
    exact .register few
  split at is
  · next breg =>
    obtain rfl := Option.some.inj is
    obtain ⟨v, read, rfl⟩ := map_read_iff.mp reads
    obtain ⟨bs, tail, w, here, number, rfl, rfl⟩ := sleb128_read_iff.mp read
    obtain ⟨n, rfl⟩ : ∃ n, op = 0x70 + n := ⟨op - 0x70, (Nat.add_sub_cancel' breg.1).symm⟩
    have few : n < 32 := by have := breg.2; unfold DW_OP_BREG31 at this; omega
    refine ⟨bs, tail, here, ?_, rfl⟩
    rw [show 0x70 + n - DW_OP_BREG0 = n from Nat.add_sub_cancel_left ..]
    exact .offset few number
  · cases is

theorem operand_literal {n : ℕ} (few : n < 32) : operand (0x30 + n) unit = some (pure (.constant n)) := by
  simp (disch := omega) only [operand, DW_OP_ADDR, DW_OP_ADDRX, DW_OP_FBREG, DW_OP_REGX, DW_OP_BREGX, DW_OP_LIT0,
    DW_OP_LIT31, if_neg, if_pos, Nat.add_sub_cancel_left]

theorem operand_register {r : ℕ} (few : r < 32) : operand (0x50 + r) unit = some (pure (.register r)) := by
  simp (disch := omega) only [operand, DW_OP_ADDR, DW_OP_ADDRX, DW_OP_FBREG, DW_OP_REGX, DW_OP_BREGX, DW_OP_LIT0,
    DW_OP_LIT31, DW_OP_REG0, DW_OP_REG31, if_neg, if_pos, Nat.add_sub_cancel_left]

theorem operand_offset {r : ℕ} (few : r < 32) :
    operand (0x70 + r) unit = some (Location.registerOffset r <$> sleb128) := by
  simp (disch := omega) only [operand, DW_OP_ADDR, DW_OP_ADDRX, DW_OP_FBREG, DW_OP_REGX, DW_OP_BREGX, DW_OP_LIT0,
    DW_OP_LIT31, DW_OP_REG0, DW_OP_REG31, DW_OP_BREG0, DW_OP_BREG31, if_neg, if_pos, Nat.add_sub_cancel_left]

theorem read_of_known {bs tail : List UInt8} (order : c.endian = unit.endian) (here : c.rest = bs ++ tail)
    (known : Known unit op bs loc) :
    ∃ read, operand op unit = some read ∧ read c = some (loc, c.advance bs.length) := by
  cases known with
  | address width =>
    refine ⟨_, rfl, map_read_iff.mpr ⟨_, ?_, rfl⟩⟩
    rw [readAddress_eq, ← width, ← order]
    exact takes_word bs c tail rfl here
  | index number found =>
    refine ⟨_, rfl, bind_read_iff.mpr ⟨_, _, uleb128_read_iff.mpr ⟨_, _, _, here, number, rfl, rfl⟩, ?_⟩⟩
    exact map_read_iff.mpr ⟨_, lift_read_iff.mpr ⟨found, rfl⟩, rfl⟩
  | frame number =>
    exact ⟨_, rfl, map_read_iff.mpr ⟨_, sleb128_read_iff.mpr ⟨_, _, _, here, number, rfl, rfl⟩, rfl⟩⟩
  | registerX number few =>
    refine ⟨_, rfl, bind_read_iff.mpr ⟨_, _, uleb128_read_iff.mpr ⟨_, _, _, here, number, rfl, rfl⟩, ?_⟩⟩
    exact map_read_iff.mpr ⟨_, lift_read_iff.mpr ⟨toU16_iff.mpr ⟨few, rfl⟩, rfl⟩, rfl⟩
  | @offsetX bs cs w o number few offset =>
    rw [List.append_assoc] at here
    refine ⟨_, rfl, bind_read_iff.mpr ⟨_, _, uleb128_read_iff.mpr ⟨_, _, _, here, number, rfl, rfl⟩, ?_⟩⟩
    refine bind_read_iff.mpr ⟨_, _, lift_read_iff.mpr ⟨toU16_iff.mpr ⟨few, rfl⟩, rfl⟩, ?_⟩
    rw [List.length_append, ← Cur.advance_advance]
    exact map_read_iff.mpr ⟨_, sleb128_read_iff.mpr ⟨_, _, _, Cur.rest_advance here, offset, rfl, rfl⟩, rfl⟩
  | literal few => exact ⟨_, operand_literal few, rfl⟩
  | register few => exact ⟨_, operand_register few, rfl⟩
  | offset few number =>
    exact ⟨_, operand_offset few, map_read_iff.mpr ⟨_, sleb128_read_iff.mpr ⟨_, _, _, here, number, rfl, rfl⟩, rfl⟩⟩

theorem known_expression {bs code : List UInt8} (known : Known unit op bs (.expression code)) : False := by
  cases known

theorem known_of_decode {code : List UInt8} (is : decodeLocation code unit = some loc)
    (decoded : loc ≠ .expression code) :
    ∃ b bs tail, code = b :: (bs ++ tail) ∧ Known unit b.toNat bs loc ∧ onlyMarkers tail := by
  cases code with
  | nil => cases is
  | cons b code =>
    rw [decodeLocation, if_neg (List.cons_ne_nil _ _)] at is
    have first : u8 (Cur.new (b :: code) unit.endian) = some (b.toNat, (Cur.new (b :: code) unit.endian).advance 1) :=
      takes_u8 b _ code rfl rfl
    have behind : ((Cur.new (b :: code) unit.endian).advance 1).rest = code := @Cur.rest_advance _ [b] _ rfl
    rw [decodeKnown, first] at is
    cases found : operand b.toNat unit with
    | none =>
      rw [Option.bind_eq_bind, Option.bind_some] at is
      dsimp only at is
      rw [found] at is
      exact absurd (Option.some.inj is).symm decoded
    | some read =>
      rw [Option.bind_eq_bind, Option.bind_some] at is
      dsimp only at is
      rw [found] at is
      dsimp only at is
      cases reads : read ((Cur.new (b :: code) unit.endian).advance 1) with
      | none =>
        rw [reads] at is
        exact absurd (Option.some.inj is).symm decoded
      | some result =>
        obtain ⟨what, reader⟩ := result
        rw [reads, Option.bind_eq_bind, Option.bind_some] at is
        dsimp only at is
        obtain ⟨bs, tail, here, known, rfl⟩ := known_of_read rfl found reads
        rw [Cur.rest_advance here] at is
        rw [behind] at here
        subst here
        by_cases all : onlyMarkers tail
        · rw [if_pos all] at is
          obtain rfl := Option.some.inj is
          exact ⟨b, bs, tail, rfl, known, all⟩
        · rw [if_neg all] at is
          exact absurd (Option.some.inj is).symm decoded

theorem decode_of_known {b : UInt8} {bs tail : List UInt8} (known : Known unit b.toNat bs loc)
    (all : onlyMarkers tail) : decodeLocation (b :: (bs ++ tail)) unit = some loc := by
  rw [decodeLocation, if_neg (List.cons_ne_nil _ _)]
  have first : u8 (Cur.new (b :: (bs ++ tail)) unit.endian) =
      some (b.toNat, (Cur.new (b :: (bs ++ tail)) unit.endian).advance 1) := takes_u8 b _ (bs ++ tail) rfl rfl
  have behind : ((Cur.new (b :: (bs ++ tail)) unit.endian).advance 1).rest = bs ++ tail :=
    @Cur.rest_advance _ [b] _ rfl
  obtain ⟨read, found, reads⟩ := read_of_known rfl behind known
  rw [decodeKnown, first, Option.bind_eq_bind, Option.bind_some]
  dsimp only
  rw [found]
  dsimp only
  rw [reads, Option.bind_eq_bind, Option.bind_some]
  dsimp only
  rw [Cur.rest_advance behind, if_pos all]
  rfl

theorem decode_alone {b : UInt8} {bs : List UInt8} (known : Known unit b.toNat bs loc) :
    decodeLocation (b :: bs) unit = some loc := by
  rw [← List.append_nil bs]
  exact decode_of_known known rfl
end

end E5r.LocationReads
