import E5r.StructLayout
import Mathlib.Tactic.Ring

/-!
When a laid out body has its members in place. The placement in unbounded
numbers (`spansFrom`) says which bits each member takes; where no word overflows
the code computes these (`layoutFrom_checked`). The body is in place exactly when
no word overflows and each bitfield finds the room it needs in a unit
(`body_iff`).
-/
namespace E5r.LayoutPlaces
open StructLayout CheckedWords

/-! ### Unbounded numbers -/

/-- The least multiple of an alignment that a number does not exceed. -/
def up (v to_ : ℕ) : ℕ := divCeil v to_ * to_

def exactSize (ts : Types) : CType → Option ℕ
  | .void => none
  | .bool => some 1
  | .int size _ | .float size => some size.toNat
  | .pointer => some ts.model.pointer.toNat
  | .array inner (some n) => (exactSize ts inner).map (· * n.toNat)
  | .array _ none => none
  | .composite id => (ts.composites id).bind fun c => c.size.map UInt64.toNat
  | .enum size => some size.toNat
  | .function => none
  | .typedef _ inner | .qualified inner => exactSize ts inner
  | .opaque_ _ => none

/-- No array of the type is larger than a word counts. -/
def ProductsFit (ts : Types) : CType → Prop
  | .array inner (some n) => ProductsFit ts inner ∧ ∀ size, exactSize ts inner = some size → size * n.toNat < 2 ^ 64
  | .typedef _ inner | .qualified inner => ProductsFit ts inner
  | _ => True

/-- The bytes a member takes: a flexible array has none. -/
def bytes (ts : Types) (m : Member) : ℕ := (exactSize ts m.ty).getD 0

def unit (ts : Types) (m : Member) : ℕ := 8 * max (bytes ts m) 1

def length (ts : Types) (m : Member) : ℕ :=
  match m.bits with
  | none => 8 * bytes ts m
  | some width => width.toNat

/-- The first bit of a member that the cursor meets. -/
def start (ts : Types) (m : Member) (cursor : ℕ) : ℕ :=
  match m.bits with
  | none => up cursor (8 * align ts m.ty)
  | some width =>
    if width = 0 ∨ cursor % unit ts m + width.toNat > unit ts m then up cursor (8 * align ts m.ty) else cursor

/-- A member as it is recorded, and the bits it takes. -/
structure Span where
  field : Field
  member : Member
  start : ℕ
  stop : ℕ

def span (ts : Types) (m : Member) (cursor : ℕ) : Span :=
  let first := start ts m cursor
  let offset := match m.bits with
    | none => first / 8
    | some _ => first / unit ts m * unit ts m / 8
  ⟨m.field offset, m, first, first + length ts m⟩

/-- The members behind a cursor. A zero-width bitfield is none of them. -/
def spansFrom (ts : Types) : List Member → ℕ → List Span
  | [], _ => []
  | m :: ms, cursor =>
    (if m.bits = some 0 then [] else [span ts m cursor]) ++ spansFrom ts ms (span ts m cursor).stop

/-- The cursor behind all members. -/
def stop (ts : Types) (ms : List Member) : ℕ := ms.foldl (fun cursor m => (span ts m cursor).stop) 0

def unionSpans (ts : Types) (ms : List Member) : List Span :=
  (ms.filter fun m => m.bits ≠ some 0).map fun m => ⟨m.field 0, m, 0, length ts m⟩

def spans (ts : Types) (union : Bool) (ms : List Member) : List Span :=
  if union then unionSpans ts ms else spansFrom ts ms 0

def strictest (ts : Types) (ms : List Member) : ℕ := ms.foldl (fun most m => max most (align ts m.ty)) 1

def widest (ts : Types) (ms : List Member) : ℕ := (unionSpans ts ms).foldl (fun most s => max most (bytes ts s.member)) 0

/-- Where a member lies as it should. -/
structure InPlace (ts : Types) (size : ℕ) (s : Span) : Prop where
  ends : s.stop ≤ 8 * size
  aligned : s.member.bits = none → s.start = 8 * s.field.offset ∧ align ts s.member.ty ∣ s.field.offset
  inUnit : s.member.bits ≠ none → 8 * s.field.offset ≤ s.start ∧ s.stop ≤ 8 * s.field.offset + unit ts s.member

/-- What an accepted body is held to: no word overflowed, and the members lie in
    order, aligned, in their units and inside the whole. -/
structure Holds (ts : Types) (union : Bool) (ms : List Member) (at_ : ℕ) (fields : List Field) (size : ℕ) : Prop where
  unwrapped : layout checked ts union ms at_ = some (.ok (fields, size))
  recorded : fields = (spans ts union ms).map Span.field
  ordered : union = false → (spans ts union ms).Pairwise fun s t => s.stop ≤ t.start
  inPlace : ∀ s ∈ spans ts union ms, InPlace ts size s
  multiple : strictest ts ms ∣ size

def wholeSize (ts : Types) (union : Bool) (ms : List Member) : ℕ :=
  if union then up (widest ts ms) (strictest ts ms) else up (up (stop ts ms) 8 / 8) (strictest ts ms)

/-- A bitfield that meets the cursor has room in the unit there, or in the one
    that the cursor is rounded up into. -/
def Room (ts : Types) (m : Member) (cursor : ℕ) : Prop :=
  ∀ width, m.bits = some width → width ≠ 0 → unit ts m < 2 ^ 64 ∧
    (cursor % unit ts m + width.toNat ≤ unit ts m ∨
      up cursor (8 * align ts m.ty) % unit ts m + width.toNat ≤ unit ts m)

def RoomFrom (ts : Types) : List Member → ℕ → Prop
  | [], _ => True
  | m :: ms, cursor => Room ts m cursor ∧ RoomFrom ts ms (span ts m cursor).stop

def UnionRoom (ts : Types) (ms : List Member) : Prop :=
  ∀ m ∈ ms, ∀ width, m.bits = some width → width ≠ 0 → width.toNat ≤ unit ts m ∧ 0 < widest ts ms

/-- The bodies that are laid out as they should be. -/
structure Fits (ts : Types) (union : Bool) (ms : List Member) : Prop where
  products : ∀ m ∈ ms, ProductsFit ts m.ty
  small : wholeSize ts union ms < 2 ^ 32
  room : if union then UnionRoom ts ms else RoomFrom ts ms 0

/-! ### Rounding -/

theorem le_up {to_ : ℕ} (positive : 0 < to_) (v : ℕ) : v ≤ up v to_ := by
  have whole := Nat.div_add_mod v to_
  have rest := Nat.mod_lt v positive
  unfold up divCeil
  rw [Nat.mul_comm] at whole
  split
  · rw [Nat.add_mul]
    omega
  · omega

theorem dvd_up (v to_ : ℕ) : to_ ∣ up v to_ := Nat.dvd_mul_left _ _

theorem up_lt {to_ : ℕ} (positive : 0 < to_) (v : ℕ) : up v to_ < v + to_ := by
  have whole := Nat.div_add_mod v to_
  have rest := Nat.mod_lt v positive
  unfold up divCeil
  rw [Nat.mul_comm] at whole
  split
  · rw [Nat.add_mul]
    omega
  · omega

theorem up_one (v : ℕ) : up v 1 = v := by
  have low := le_up Nat.one_pos v
  have high := up_lt Nat.one_pos v
  omega

/-! ### Checked arithmetic -/

variable {v to_ : ℕ}

theorem roundUp_spec {r : ℕ} (positive : 0 < to_) (rounds : roundUp checked v to_ = some r) : r = up v to_ := by
  unfold roundUp at rounds
  split at rounds
  · obtain rfl : to_ = 1 := by omega
    rw [up_one]
    exact (Option.some.inj rounds).symm
  · exact (checked_mul.mp rounds).2.symm

theorem roundUp_returns (positive : 0 < to_) (fits : up v to_ < 2 ^ 64) : roundUp checked v to_ = some (up v to_) := by
  unfold roundUp
  split
  · obtain rfl : to_ = 1 := by omega
    rw [up_one]
  · exact checked_mul.mpr ⟨fits, rfl⟩

/-! ### Sizes and alignments -/

variable {ts : Types}

theorem sizeOf_checked {ty : CType} : ∀ {r : Option ℕ},
    ts.sizeOf checked ty = some r ↔ ProductsFit ts ty ∧ exactSize ts ty = r := by
  induction ty with
  | array inner length ih =>
    intro r
    cases length with
    | none => simp [Types.sizeOf, ProductsFit, exactSize]
    | some n =>
      simp only [Types.sizeOf, ProductsFit, exactSize, Option.bind_eq_bind, Option.bind_eq_some_iff, ih]
      cases known : exactSize ts inner with
      | none => simp
      | some size => simp [and_assoc, Option.bind_eq_some_iff]
  | typedef name inner ih => exact fun {r} => ih
  | qualified inner ih => exact fun {r} => ih
  | _ => simp [Types.sizeOf, ProductsFit, exactSize]

theorem sizeOf_wrapping (ts : Types) (ty : CType) :
    ∃ r, ts.sizeOf wrapping ty = some r ∧ r.isSome = (exactSize ts ty).isSome := by
  induction ty with
  | array inner length ih =>
    cases length with
    | none => exact ⟨none, rfl, rfl⟩
    | some n =>
      obtain ⟨r, sized, same⟩ := ih
      cases r with
      | none =>
        refine ⟨none, by simp [Types.sizeOf, sized], ?_⟩
        rw [exactSize, Option.isSome_map, ← same]
      | some size =>
        refine ⟨some (size * n.toNat % 2 ^ 64), by simp only [Types.sizeOf, sized]; rfl, ?_⟩
        rw [exactSize, Option.isSome_map, ← same]
        rfl
  | typedef name inner ih => exact ih
  | qualified inner ih => exact ih
  | _ => exact ⟨_, rfl, rfl⟩

theorem clamp_le {low high : ℕ} (ordered : low ≤ high) : clamp v low high ≤ high := by
  unfold clamp
  split
  · exact ordered
  · split <;> omega

theorem alignAt_le (depth : ℕ) : ∀ {ty : CType} {a : ℕ}, ts.alignAt depth ty = some a → a ≤ 255 := by
  have cap : 1 ≤ max ts.model.maxAlign.toNat 1 ∧ max ts.model.maxAlign.toNat 1 ≤ 255 := by
    have := ts.model.maxAlign.toNat_lt
    omega
  have clamped {v a : ℕ} (is : some (clamp v 1 (max ts.model.maxAlign.toNat 1)) = some a) : a ≤ 255 := by
    rw [← Option.some.inj is]
    exact (clamp_le cap.1).trans cap.2
  induction depth with
  | zero => intro ty a is; cases is
  | succ depth ih =>
    intro ty a is
    cases ty with
    | void | function | opaque_ => cases is
    | bool => cases is; decide
    | int | float | pointer | enum => exact clamped is
    | array inner | typedef name inner | qualified inner => exact ih is
    | composite id =>
      obtain ⟨c, -, rfl⟩ := Option.map_eq_some_iff.mp is
      cases most : (c.fields.filterMap (ts.alignAt depth)).max? with
      | none => decide
      | some b =>
        obtain ⟨inside, -⟩ := List.max?_eq_some_iff.mp most
        obtain ⟨field, -, here⟩ := List.mem_filterMap.mp inside
        exact ih here

theorem align_pos (ts : Types) (ty : CType) : 0 < align ts ty := by
  unfold align
  omega

theorem align_le (ts : Types) (ty : CType) : align ts ty ≤ 255 := by
  unfold align
  cases known : ts.alignOf ty with
  | none => decide
  | some a =>
    have := alignAt_le 33 known
    rw [Option.getD_some]
    omega

/-! ### One member -/

def Known (ts : Types) (last : Bool) (m : Member) : Prop :=
  exactSize ts m.ty = none → (last && isFlexible m.ty) = true

variable {last : Bool} {m : Member}

theorem memberSize_checked {size : ℕ} (sized : memberSize checked ts last m = some (.ok size)) :
    ProductsFit ts m.ty ∧ size = bytes ts m := by
  simp only [memberSize, Option.bind_eq_bind, Option.bind_eq_some_iff, sizeOf_checked] at sized
  obtain ⟨r, ⟨products, rfl⟩, sized⟩ := sized
  refine ⟨products, ?_⟩
  unfold bytes
  cases known : exactSize ts m.ty with
  | some s =>
    rw [known] at sized
    cases sized
    rfl
  | none =>
    simp only [known] at sized
    split at sized
    · cases sized
      rfl
    · cases sized

theorem memberSize_returns (products : ProductsFit ts m.ty) (known : Known ts last m) :
    memberSize checked ts last m = some (.ok (bytes ts m)) := by
  have sized : ts.sizeOf checked m.ty = some (exactSize ts m.ty) := sizeOf_checked.mpr ⟨products, rfl⟩
  simp only [memberSize, sized, Option.bind_eq_bind, Option.bind_some]
  unfold bytes
  cases is : exactSize ts m.ty with
  | some s => rfl
  | none => simp [known is]

theorem known_of_memberSize {size : ℕ} (sized : memberSize wrapping ts last m = some (.ok size)) : Known ts last m := by
  intro unknown
  obtain ⟨r, is, same⟩ := sizeOf_wrapping ts m.ty
  rw [unknown] at same
  obtain rfl : r = none := Option.not_isSome_iff_eq_none.mp (by rw [same]; decide)
  simp only [memberSize, is, Option.bind_eq_bind, Option.bind_some] at sized
  split at sized
  · assumption
  · cases sized

def recorded (ts : Types) (m : Member) (cursor : ℕ) : Option ℕ :=
  if m.bits = some 0 then none else some (span ts m cursor).field.offset

theorem unit_pos (ts : Types) (m : Member) : 0 < unit ts m := by
  unfold unit
  omega

variable {cursor : ℕ}

theorem passes_iff {unit width : ℕ} : cursor + width > cursor / unit * unit + unit ↔ cursor % unit + width > unit := by
  have whole := Nat.div_add_mod cursor unit
  rw [Nat.mul_comm] at whole
  omega

theorem place_checked {r : Option ℕ × ℕ} (placed : place checked (align ts m.ty) (bytes ts m) m.bits cursor = some r) :
    r = (recorded ts m cursor, (span ts m cursor).stop) ∧
      ∀ width, m.bits = some width → width ≠ 0 → unit ts m < 2 ^ 64 := by
  have positive : 0 < 8 * align ts m.ty := Nat.mul_pos (by decide) (align_pos ts m.ty)
  unfold place at placed
  unfold recorded span start length
  cases bits : m.bits with
  | none =>
    simp only [bits, Option.bind_eq_bind, Option.bind_eq_some_iff, checked_mul, checked_add, Nat.mul_comm _ 8] at placed
    obtain ⟨a, ⟨-, rfl⟩, c, rounds, s, ⟨-, rfl⟩, c', ⟨-, rfl⟩, same⟩ := placed
    obtain rfl := roundUp_spec positive rounds
    cases same
    exact ⟨rfl, by simp⟩
  | some width =>
    simp only [bits] at placed
    by_cases none_ : width = 0
    · subst none_
      simp only [if_pos, Option.bind_eq_bind, Option.bind_eq_some_iff, checked_mul, Nat.mul_comm _ 8] at placed
      obtain ⟨a, ⟨-, rfl⟩, c, rounds, same⟩ := placed
      obtain rfl := roundUp_spec positive rounds
      cases same
      exact ⟨rfl, fun width is some_ => absurd (Option.some.inj is).symm some_⟩
    · simp only [if_neg none_, Option.bind_eq_bind, Option.bind_eq_some_iff, checked_mul, checked_add, Nat.mul_comm _ 8]
        at placed
      obtain ⟨u, ⟨fits, is⟩, placed⟩ := placed
      obtain rfl : u = unit ts m := is.symm
      rw [if_neg (unit_pos ts m).ne'] at placed
      simp only [Option.bind_eq_some_iff, checked_mul, checked_add, Nat.mul_comm _ 8] at placed
      obtain ⟨first, ⟨-, rfl⟩, passed, ⟨-, rfl⟩, limit, ⟨-, rfl⟩, placed⟩ := placed
      obtain ⟨c, moved, offset, ⟨-, rfl⟩, c', ⟨-, rfl⟩, same⟩ := placed
      have here : c = if width = 0 ∨ cursor % unit ts m + width.toNat > unit ts m then up cursor (8 * align ts m.ty)
          else cursor := by
        by_cases passes : cursor % unit ts m + width.toNat > unit ts m
        · rw [if_pos (passes_iff.mpr passes)] at moved
          obtain ⟨a, is, rounds⟩ := Option.bind_eq_some_iff.mp moved
          obtain ⟨-, rfl⟩ := checked_mul.mp is
          rw [Nat.mul_comm] at rounds
          rw [if_pos (.inr passes)]
          exact roundUp_spec positive rounds
        · rw [if_neg (fun past => passes (passes_iff.mp past))] at moved
          rw [if_neg (by tauto)]
          exact (Option.some.inj moved).symm
      subst here
      cases same
      refine ⟨?_, fun _ _ _ => fits⟩
      rw [if_neg (fun zero => none_ (Option.some.inj zero))]
      rfl

theorem span_stop (m : Member) (cursor : ℕ) : (span ts m cursor).stop = start ts m cursor + length ts m := rfl

theorem start_ordinary {m : Member} (bits : m.bits = none) (cursor : ℕ) :
    start ts m cursor = up cursor (8 * align ts m.ty) := by
  rw [start, bits]

theorem start_cases (m : Member) (cursor : ℕ) :
    start ts m cursor = cursor ∨ start ts m cursor = up cursor (8 * align ts m.ty) := by
  unfold start
  split
  · exact .inr rfl
  · split
    · exact .inr rfl
    · exact .inl rfl

theorem rounding_pos (ts : Types) (ty : CType) : 0 < 8 * align ts ty := Nat.mul_pos (by decide) (align_pos ts ty)

theorem le_start (m : Member) (cursor : ℕ) : cursor ≤ start ts m cursor := by
  rcases @start_cases ts m cursor with is | is
  · exact is.ge
  · rw [is]
    exact le_up (rounding_pos ts m.ty) cursor

theorem le_stop (m : Member) (cursor : ℕ) : cursor ≤ (span ts m cursor).stop :=
  (le_start m cursor).trans (Nat.le_add_right _ _)

theorem place_returns (low : (span ts m cursor).stop < 2 ^ 63) (room : Room ts m cursor) :
    place checked (align ts m.ty) (bytes ts m) m.bits cursor = some (recorded ts m cursor, (span ts m cursor).stop) := by
  have small := align_le ts m.ty
  have multiply : checked.mul (align ts m.ty) 8 = some (8 * align ts m.ty) :=
    checked_mul.mpr ⟨by omega, Nat.mul_comm ..⟩
  have above := @le_start ts m cursor
  have positive := rounding_pos ts m.ty
  rw [span_stop] at low
  unfold place recorded
  cases bits : m.bits with
  | none =>
    have first := @start_ordinary ts _ bits cursor
    have takes : length ts m = bytes ts m * 8 := by rw [length, bits, Nat.mul_comm]
    have rounds : roundUp checked cursor (8 * align ts m.ty) = some (start ts m cursor) := by
      rw [first]
      exact roundUp_returns positive (by omega)
    have scaled : checked.mul (bytes ts m) 8 = some (length ts m) := checked_mul.mpr ⟨by omega, takes.symm⟩
    have sum : checked.add (start ts m cursor) (length ts m) = some (start ts m cursor + length ts m) :=
      checked_add.mpr ⟨by omega, rfl⟩
    simp only [multiply, rounds, scaled, sum, Option.bind_eq_bind, Option.bind_some]
    rw [if_neg nofun, span, bits]
    rfl
  | some width =>
    by_cases none_ : width = 0
    · subst none_
      have first : start ts m cursor = up cursor (8 * align ts m.ty) := by rw [start, bits]; exact if_pos (.inl rfl)
      have nothing : length ts m = 0 := by rw [length, bits]; rfl
      have rounds : roundUp checked cursor (8 * align ts m.ty) = some (start ts m cursor) := by
        rw [first]
        exact roundUp_returns positive (by omega)
      simp only [multiply, rounds, Option.bind_eq_bind, Option.bind_some, if_pos]
      rw [span_stop, nothing]
      rfl
    · obtain ⟨fits, -⟩ := room width bits none_
      have byte := width.toNat_lt
      have takes : length ts m = width.toNat := by rw [length, bits]
      have unit_ := unit_pos ts m
      have scaled : checked.mul (max (bytes ts m) 1) 8 = some (unit ts m) :=
        checked_mul.mpr ⟨by rwa [Nat.mul_comm], Nat.mul_comm ..⟩
      have floor (c : ℕ) (below : c < 2 ^ 64) :
          checked.mul (c / unit ts m) (unit ts m) = some (c / unit ts m * unit ts m) :=
        checked_mul.mpr ⟨(Nat.div_mul_le_self ..).trans_lt below, rfl⟩
      have limit : cursor / unit ts m * unit ts m + unit ts m < 2 ^ 64 := by
        by_cases inside : cursor < unit ts m
        · rw [Nat.div_eq_of_lt inside]
          omega
        · have := Nat.div_mul_le_self cursor (unit ts m)
          omega
      have sum (c : ℕ) (below : c ≤ start ts m cursor) : checked.add c width.toNat = some (c + width.toNat) :=
        checked_add.mpr ⟨by omega, rfl⟩
      have bound : checked.add (cursor / unit ts m * unit ts m) (unit ts m) =
          some (cursor / unit ts m * unit ts m + unit ts m) := checked_add.mpr ⟨limit, rfl⟩
      have moved : (if cursor + width.toNat > cursor / unit ts m * unit ts m + unit ts m then
          roundUp checked cursor (8 * align ts m.ty) else some cursor) = some (start ts m cursor) := by
        have first : start ts m cursor =
            if width = 0 ∨ cursor % unit ts m + width.toNat > unit ts m then up cursor (8 * align ts m.ty)
            else cursor := by
          rw [start, bits]
        by_cases passes : cursor % unit ts m + width.toNat > unit ts m
        · rw [if_pos (.inr passes)] at first
          rw [if_pos (passes_iff.mpr passes), first]
          exact roundUp_returns positive (by omega)
        · rw [if_neg (fun either => either.elim none_ passes)] at first
          rw [if_neg (fun past => passes (passes_iff.mp past)), first]
      simp only [scaled, if_neg none_, if_neg unit_.ne', floor cursor (by omega), sum cursor above, bound, multiply, moved,
        floor _ (show start ts m cursor < 2 ^ 64 by omega), sum _ le_rfl, Option.bind_eq_bind, Option.bind_some]
      rw [if_neg (fun zero => none_ (Option.some.inj zero)), span_stop, takes, span, bits]
      rfl

/-! ### All members -/

/-- The cursor behind members that a cursor meets. -/
def stopFrom (ts : Types) (ms : List Member) (cursor : ℕ) : ℕ := ms.foldl (fun c m => (span ts m c).stop) cursor

theorem le_stopFrom (ms : List Member) : ∀ cursor, cursor ≤ stopFrom ts ms cursor := by
  induction ms with
  | nil => exact fun _ => le_rfl
  | cons m ms ih => exact fun cursor => (le_stop m cursor).trans (ih _)

def KnownAll (ts : Types) : List Member → Prop
  | [] => True
  | m :: ms => Known ts ms.isEmpty m ∧ KnownAll ts ms

theorem recorded_fields (m : Member) (cursor : ℕ) (fields : List Field) :
    fields ++ ((recorded ts m cursor).map m.field).toList =
      fields ++ (if m.bits = some 0 then [] else [span ts m cursor]).map Span.field := by
  unfold recorded
  split <;> rfl

theorem layoutFrom_checked (ms : List Member) : ∀ {s s' : State},
    layoutFrom checked ts false ms s = some (.ok s') →
      s' = ⟨s.fields ++ (spansFrom ts ms s.bits).map Span.field, stopFrom ts ms s.bits,
        ms.foldl (fun most m => max most (align ts m.ty)) s.maxAlign, s.widest⟩ ∧
      (∀ m ∈ ms, ProductsFit ts m.ty) ∧
      ∀ m ∈ ms, ∀ width, m.bits = some width → width ≠ 0 → unit ts m < 2 ^ 64 := by
  induction ms with
  | nil =>
    intro s s' ran
    cases ran
    simp [spansFrom, stopFrom]
  | cons m ms ih =>
    intro s s' ran
    simp only [layoutFrom, layoutMember, Option.bind_eq_bind, Option.bind_eq_some_iff] at ran
    obtain ⟨answer, ⟨sized, known, ran⟩, later⟩ := ran
    cases sized with
    | error refusal =>
      cases ran
      cases later
    | ok size =>
      obtain ⟨products, rfl⟩ := memberSize_checked known
      simp only [Bool.false_eq_true, if_false, Option.bind_eq_some_iff] at ran
      obtain ⟨r, placed, same⟩ := ran
      obtain ⟨rfl, fits⟩ := place_checked placed
      cases same
      obtain ⟨is, all, units⟩ := ih later
      refine ⟨?_, ?_, ?_⟩
      · rw [is, recorded_fields, spansFrom, List.map_append, List.append_assoc]
        rfl
      · simpa using ⟨products, all⟩
      · rintro m' (_ | ⟨_, member⟩)
        · exact fits
        · exact units m' member

theorem layoutFrom_returns (ms : List Member) : ∀ {s : State}, (∀ m ∈ ms, ProductsFit ts m.ty) → KnownAll ts ms →
    stopFrom ts ms s.bits < 2 ^ 63 → RoomFrom ts ms s.bits →
    ∃ s', layoutFrom checked ts false ms s = some (.ok s') := by
  induction ms with
  | nil => exact fun _ _ _ _ => ⟨_, rfl⟩
  | cons m ms ih =>
    intro s products known low room
    have sized := memberSize_returns (products m List.mem_cons_self) known.1
    have placed := place_returns ((le_stopFrom ms _).trans_lt low) room.1
    simp only [layoutFrom, layoutMember, sized, placed, Option.bind_eq_bind, Option.bind_some, Bool.false_eq_true, if_false]
    exact ih (fun m member => products m (List.mem_cons_of_mem _ member)) known.2 low room.2

theorem layoutFrom_union (ms : List Member) : ∀ {s s' : State}, layoutFrom checked ts true ms s = some (.ok s') →
    s' = ⟨s.fields ++ (unionSpans ts ms).map Span.field, s.bits,
      ms.foldl (fun most m => max most (align ts m.ty)) s.maxAlign,
      (unionSpans ts ms).foldl (fun most x => max most (bytes ts x.member)) s.widest⟩ ∧
    ∀ m ∈ ms, ProductsFit ts m.ty := by
  induction ms with
  | nil =>
    intro s s' ran
    cases ran
    simp [unionSpans]
  | cons m ms ih =>
    intro s s' ran
    simp only [layoutFrom, layoutMember, Option.bind_eq_bind, Option.bind_eq_some_iff] at ran
    obtain ⟨answer, ⟨sized, known, ran⟩, later⟩ := ran
    cases sized with
    | error refusal =>
      cases ran
      cases later
    | ok size =>
      obtain ⟨products, rfl⟩ := memberSize_checked known
      simp only [if_true] at ran
      have all (others : ∀ m ∈ ms, ProductsFit ts m.ty) : ∀ m' ∈ m :: ms, ProductsFit ts m'.ty := by
        simpa using ⟨products, others⟩
      by_cases closes : m.bits = some 0
      · rw [if_pos closes] at ran
        cases ran
        obtain ⟨is, others⟩ := ih later
        refine ⟨?_, all others⟩
        rw [is, unionSpans, unionSpans, List.filter_cons_of_neg (by simpa using closes)]
        rfl
      · rw [if_neg closes] at ran
        cases ran
        obtain ⟨is, others⟩ := ih later
        refine ⟨?_, all others⟩
        rw [is, unionSpans, unionSpans, List.filter_cons_of_pos (by simpa using closes), List.map_cons, List.map_cons,
          List.foldl_cons, List.append_assoc]
        rfl

theorem layoutFrom_union_returns (ms : List Member) : ∀ {s : State}, (∀ m ∈ ms, ProductsFit ts m.ty) → KnownAll ts ms →
    ∃ s', layoutFrom checked ts true ms s = some (.ok s') := by
  induction ms with
  | nil => exact fun _ _ => ⟨_, rfl⟩
  | cons m ms ih =>
    intro s products known
    have sized := memberSize_returns (products m List.mem_cons_self) known.1
    have later {s : State} := @ih s (fun m member => products m (List.mem_cons_of_mem _ member)) known.2
    simp only [layoutFrom, layoutMember, sized, Option.bind_eq_bind, Option.bind_some, if_true]
    by_cases closes : m.bits = some 0
    · rw [if_pos closes]
      exact later
    · rw [if_neg closes]
      exact later

/-! ### The words of the release build -/

theorem known_of_layoutFrom {union : Bool} (ms : List Member) : ∀ {s s' : State},
    layoutFrom wrapping ts union ms s = some (.ok s') → KnownAll ts ms := by
  induction ms with
  | nil => exact fun _ => trivial
  | cons m ms ih =>
    intro s s' ran
    simp only [layoutFrom, layoutMember, Option.bind_eq_bind, Option.bind_eq_some_iff] at ran
    obtain ⟨answer, ⟨sized, known, ran⟩, later⟩ := ran
    cases sized with
    | error refusal =>
      cases ran
      cases later
    | ok size =>
      cases answer with
      | error refusal => cases later
      | ok next => exact ⟨known_of_memberSize known, ih later⟩

theorem wrapping_roundUp {r : ℕ} (ran : roundUp checked v to_ = some r) : roundUp wrapping v to_ = some r := by
  unfold roundUp at ran ⊢
  split at ran
  · next small =>
    rw [if_pos small]
    exact ran
  · next large =>
    rw [if_neg large]
    exact wrapping_mul ran

theorem wrapping_sizeOf {ty : CType} :
    ∀ {r : Option ℕ}, ts.sizeOf checked ty = some r → ts.sizeOf wrapping ty = some r := by
  induction ty with
  | array inner length ih =>
    intro r ran
    cases length with
    | none => exact ran
    | some n =>
      refine bind_same (fun _ => ih) (fun known r later => ?_) ran
      cases known with
      | none => exact later
      | some size => exact bind_same (fun _ => wrapping_mul) (fun _ _ last => last) later
  | typedef name inner ih => exact fun {r} => ih
  | qualified inner ih => exact fun {r} => ih
  | _ => exact fun {r} ran => ran

theorem wrapping_memberSize {r : Except Refusal ℕ} (ran : memberSize checked ts last m = some r) :
    memberSize wrapping ts last m = some r :=
  bind_same (fun _ => wrapping_sizeOf) (fun _ _ later => later) ran

theorem wrapping_place {a size : ℕ} {bits : Option UInt8} {r : Option ℕ × ℕ}
    (ran : place checked a size bits cursor = some r) : place wrapping a size bits cursor = some r := by
  unfold place at ran ⊢
  have rounds {x c : ℕ} : (checked.mul a 8 >>= fun by_ => roundUp checked x by_) = some c →
      (wrapping.mul a 8 >>= fun by_ => roundUp wrapping x by_) = some c :=
    bind_same (fun _ => wrapping_mul) fun _ _ => wrapping_roundUp
  cases bits with
  | none =>
    refine bind_same (fun _ => wrapping_mul) (fun _ _ ran => ?_) ran
    refine bind_same (fun _ => wrapping_roundUp) (fun _ _ ran => ?_) ran
    refine bind_same (fun _ => wrapping_mul) (fun _ _ ran => ?_) ran
    exact bind_same (fun _ => wrapping_add) (fun _ _ ran => ran) ran
  | some width =>
    dsimp only at ran ⊢
    split at ran
    · next none_ =>
      rw [if_pos none_]
      refine bind_same (fun _ => wrapping_mul) (fun _ _ ran => ?_) ran
      exact bind_same (fun _ => wrapping_roundUp) (fun _ _ ran => ran) ran
    · next some_ =>
      rw [if_neg some_]
      refine bind_same (fun _ => wrapping_mul) (fun unit _ ran => ?_) ran
      split at ran
      · cases ran
      · next nonzero =>
        rw [if_neg nonzero]
        refine bind_same (fun _ => wrapping_mul) (fun _ _ ran => ?_) ran
        refine bind_same (fun _ => wrapping_add) (fun _ _ ran => ?_) ran
        refine bind_same (fun _ => wrapping_add) (fun _ _ ran => ?_) ran
        refine bind_same (fun c moved => ?_) (fun _ _ ran => ?_) ran
        · split at moved
          · next passed =>
            rw [if_pos passed]
            exact rounds moved
          · next inside =>
            rw [if_neg inside]
            exact moved
        · refine bind_same (fun _ => wrapping_mul) (fun _ _ ran => ?_) ran
          exact bind_same (fun _ => wrapping_add) (fun _ _ ran => ran) ran

theorem wrapping_layoutMember {union : Bool} {s : State} {r : Except Refusal State}
    (ran : layoutMember checked ts union last m s = some r) : layoutMember wrapping ts union last m s = some r := by
  refine bind_same (fun _ => wrapping_memberSize) (fun sized r ran => ?_) ran
  cases sized with
  | error refusal => exact ran
  | ok size =>
    cases union with
    | true => exact ran
    | false => exact bind_same (fun _ => wrapping_place) (fun _ _ ran => ran) ran

theorem wrapping_layoutFrom {union : Bool} (ms : List Member) : ∀ {s : State} {r : Except Refusal State},
    layoutFrom checked ts union ms s = some r → layoutFrom wrapping ts union ms s = some r := by
  induction ms with
  | nil => exact fun ran => ran
  | cons m ms ih =>
    intro s r ran
    refine bind_same (fun _ => wrapping_layoutMember) (fun answer r ran => ?_) ran
    cases answer with
    | error refusal => exact ran
    | ok next => exact ih ran

theorem wrapping_layout {union : Bool} {ms : List Member} {at_ : ℕ} {r : Except Refusal (List Field × ℕ)}
    (ran : layout checked ts union ms at_ = some r) : layout wrapping ts union ms at_ = some r := by
  refine bind_same (fun _ => wrapping_layoutFrom ms) (fun answer r ran => ?_) ran
  cases answer with
  | error refusal => exact ran
  | ok s =>
    refine bind_same (fun size sized => ?_) (fun _ _ ran => ran) ran
    cases union with
    | true => exact wrapping_roundUp sized
    | false => exact bind_same (fun _ => wrapping_roundUp) (fun _ _ => wrapping_roundUp) sized

/-! ### Members in place -/

theorem span_aligned (ordinary : m.bits = none) (cursor : ℕ) :
    (span ts m cursor).start = 8 * (span ts m cursor).field.offset ∧
      align ts m.ty ∣ (span ts m cursor).field.offset := by
  have first := @start_ordinary ts _ ordinary cursor
  obtain ⟨k, multiple⟩ := dvd_up cursor (8 * align ts m.ty)
  have offset : (span ts m cursor).field.offset = start ts m cursor / 8 := by simp [span, ordinary, Member.field]
  have whole : start ts m cursor = 8 * (align ts m.ty * k) := by rw [first, multiple, Nat.mul_assoc]
  have here : (span ts m cursor).field.offset = align ts m.ty * k := by
    rw [offset, whole]
    exact Nat.mul_div_cancel_left _ (by decide)
  exact ⟨by rw [here]; exact whole, by rw [here]; exact Nat.dvd_mul_right _ _⟩

theorem inUnit_iff {width : UInt8} (bits : m.bits = some width) (cursor : ℕ) :
    (8 * (span ts m cursor).field.offset ≤ (span ts m cursor).start ∧
      (span ts m cursor).stop ≤ 8 * (span ts m cursor).field.offset + unit ts m) ↔
      start ts m cursor % unit ts m + width.toNat ≤ unit ts m := by
  have offset : (span ts m cursor).field.offset = start ts m cursor / unit ts m * unit ts m / 8 := by
    simp [span, bits, Member.field]
  have eight : 8 * (start ts m cursor / unit ts m * unit ts m / 8) = start ts m cursor / unit ts m * unit ts m :=
    Nat.mul_div_cancel' (Dvd.dvd.mul_left (Nat.dvd_mul_right 8 _) _)
  have whole := Nat.div_add_mod (start ts m cursor) (unit ts m)
  have takes : length ts m = width.toNat := by rw [length, bits]
  have first : (span ts m cursor).start = start ts m cursor := rfl
  rw [offset, eight, span_stop, takes, first]
  rw [Nat.mul_comm] at whole
  omega

theorem room_iff {width : UInt8} (bits : m.bits = some width) (some_ : width ≠ 0) (cursor : ℕ) :
    (cursor % unit ts m + width.toNat ≤ unit ts m ∨
      up cursor (8 * align ts m.ty) % unit ts m + width.toNat ≤ unit ts m) ↔
      start ts m cursor % unit ts m + width.toNat ≤ unit ts m := by
  have first : start ts m cursor =
      if width = 0 ∨ cursor % unit ts m + width.toNat > unit ts m then up cursor (8 * align ts m.ty) else cursor := by
    rw [start, bits]
  by_cases passes : cursor % unit ts m + width.toNat > unit ts m
  · rw [first, if_pos (.inr passes)]
    exact ⟨fun either => either.resolve_left (by omega), .inr⟩
  · rw [first, if_neg (fun either => either.elim some_ passes)]
    exact ⟨fun _ => by omega, .inl⟩

theorem mem_spansFrom {s : Span} (ms : List Member) : ∀ {cursor : ℕ}, s ∈ spansFrom ts ms cursor →
    ∃ m ∈ ms, ∃ c, cursor ≤ c ∧ s = span ts m c ∧ m.bits ≠ some 0 ∧ s.stop ≤ stopFrom ts ms cursor ∧
      (RoomFrom ts ms cursor → Room ts m c) := by
  induction ms with
  | nil => intro cursor member; cases member
  | cons m ms ih =>
    intro cursor member
    rw [spansFrom, List.mem_append] at member
    rcases member with here | later
    · split at here
      · cases here
      · next open_ =>
        obtain rfl := List.mem_singleton.mp here
        exact ⟨m, List.mem_cons_self, cursor, le_rfl, rfl, open_, le_stopFrom ms _, And.left⟩
    · obtain ⟨m', inside, c, above, is, open_, ends, room⟩ := ih later
      exact ⟨m', List.mem_cons_of_mem _ inside, c, (le_stop m cursor).trans above, is, open_, ends,
        fun rooms => room rooms.2⟩

theorem spansFrom_ordered (ms : List Member) :
    ∀ cursor, (spansFrom ts ms cursor).Pairwise fun s t => s.stop ≤ t.start := by
  induction ms with
  | nil => exact fun _ => .nil
  | cons m ms ih =>
    intro cursor
    rw [spansFrom]
    refine List.pairwise_append.mpr ⟨?_, ih _, ?_⟩
    · split
      · exact .nil
      · exact List.pairwise_singleton _ _
    · intro s here t later
      split at here
      · cases here
      · obtain rfl := List.mem_singleton.mp here
        obtain ⟨m', -, c, above, rfl, -⟩ := mem_spansFrom ms later
        exact above.trans (le_start m' c)

theorem roomFrom_of_inPlace (ms : List Member) : ∀ {cursor : ℕ},
    (∀ s ∈ spansFrom ts ms cursor, s.member.bits ≠ none →
      8 * s.field.offset ≤ s.start ∧ s.stop ≤ 8 * s.field.offset + unit ts s.member) →
    (∀ m ∈ ms, ∀ width, m.bits = some width → width ≠ 0 → unit ts m < 2 ^ 64) → RoomFrom ts ms cursor := by
  induction ms with
  | nil => exact fun _ _ => trivial
  | cons m ms ih =>
    intro cursor inPlace units
    refine ⟨fun width bits some_ => ?_,
      ih (fun s member => inPlace s ?_) fun m member => units m (List.mem_cons_of_mem _ member)⟩
    · have open_ : m.bits ≠ some 0 := by
        rw [bits]
        exact fun zero => some_ (Option.some.inj zero)
      have inside := inPlace (span ts m cursor)
        (by rw [spansFrom, if_neg open_]; exact List.mem_append_left _ (List.mem_singleton_self _))
        (fun none_ => nomatch bits.symm.trans none_)
      exact ⟨units m List.mem_cons_self width bits some_,
        (room_iff bits some_ cursor).mpr ((inUnit_iff bits cursor).mp inside)⟩
    · rw [spansFrom]
      exact List.mem_append_right _ member

theorem inPlace_of_roomFrom {ms : List Member} {size : ℕ} (room : RoomFrom ts ms 0) (ends : stop ts ms ≤ 8 * size) :
    ∀ s ∈ spansFrom ts ms 0, InPlace ts size s := by
  intro s member
  obtain ⟨m, -, c, -, rfl, open_, below, fits⟩ := mem_spansFrom ms member
  refine ⟨below.trans ends, fun ordinary => span_aligned ordinary c, fun bits => ?_⟩
  obtain ⟨width, is⟩ := Option.ne_none_iff_exists'.mp bits
  have some_ : width ≠ 0 := fun zero => open_ (is.trans (by rw [zero]))
  exact (inUnit_iff is c).mpr ((room_iff is some_ c).mp (fits room width is some_).2)

/-! ### Bodies -/

theorem le_fold {α : Type} (f : α → ℕ) (l : List α) : ∀ n, n ≤ l.foldl (fun most x => max most (f x)) n := by
  induction l with
  | nil => exact fun _ => le_rfl
  | cons x l ih => exact fun n => (Nat.le_max_left _ _).trans (ih _)

theorem strictest_pos (ts : Types) (ms : List Member) : 0 < strictest ts ms := le_fold _ ms 1

theorem stop_le (ts : Types) (ms : List Member) : stop ts ms ≤ 8 * wholeSize ts false ms := by
  have first := @le_up 8 (by decide) (stop ts ms)
  have second := le_up (strictest_pos ts ms) (up (stop ts ms) 8 / 8)
  have eight : 8 * (up (stop ts ms) 8 / 8) = up (stop ts ms) 8 := Nat.mul_div_cancel' (dvd_up _ _)
  rw [wholeSize, if_neg (by decide)]
  omega

theorem le_fold_mem {α : Type} (f : α → ℕ) {l : List α} {x : α} (member : x ∈ l) :
    ∀ n, f x ≤ l.foldl (fun most y => max most (f y)) n := by
  induction member with
  | head l => exact fun n => (Nat.le_max_right _ _).trans (le_fold f l _)
  | tail y _ ih => exact fun n => ih _

variable {union : Bool} {ms : List Member} {at_ : ℕ} {fields : List Field} {size : ℕ}

theorem layout_checked (ran : layout checked ts union ms at_ = some (.ok (fields, size))) :
    fields = (spans ts union ms).map Span.field ∧ size = wholeSize ts union ms ∧ size < 2 ^ 32 ∧
      (∀ m ∈ ms, ProductsFit ts m.ty) ∧
      (union = false → ∀ m ∈ ms, ∀ width, m.bits = some width → width ≠ 0 → unit ts m < 2 ^ 64) := by
  have positive := strictest_pos ts ms
  simp only [layout, Option.bind_eq_bind, Option.bind_eq_some_iff] at ran
  obtain ⟨answer, looped, ran⟩ := ran
  cases answer with
  | error refusal => cases ran
  | ok s =>
    simp only [Option.bind_eq_some_iff] at ran
    obtain ⟨whole, sized, ran⟩ := ran
    split at ran
    · cases ran
    · next small =>
      cases ran
      cases union with
      | true =>
        obtain ⟨rfl, products⟩ := layoutFrom_union ms looped
        exact ⟨rfl, roundUp_spec positive sized, by omega, products, fun no => nomatch no⟩
      | false =>
        obtain ⟨rfl, products, units⟩ := layoutFrom_checked ms looped
        simp only [Bool.false_eq_true, if_false, Option.bind_eq_some_iff] at sized
        obtain ⟨bits, first, second⟩ := sized
        obtain rfl := roundUp_spec (by decide) first
        exact ⟨rfl, roundUp_spec positive second, by omega, products, fun _ => units⟩

theorem layout_returns (known : KnownAll ts ms) (fits : Fits ts union ms) (at_ : ℕ) :
    layout checked ts union ms at_ = some (.ok ((spans ts union ms).map Span.field, wholeSize ts union ms)) := by
  have positive := strictest_pos ts ms
  have small := fits.small
  cases union with
  | true =>
    obtain ⟨s, looped⟩ := @layoutFrom_union_returns ts ms ⟨[], 0, 1, 0⟩ fits.products known
    obtain ⟨rfl, -⟩ := layoutFrom_union ms looped
    have sized : roundUp checked (widest ts ms) (strictest ts ms) = some (wholeSize ts true ms) :=
      roundUp_returns positive (by rw [wholeSize, if_pos rfl] at small; omega)
    unfold layout
    rw [looped]
    show (roundUp checked (widest ts ms) (strictest ts ms) >>= _) = _
    rw [sized]
    exact if_neg (by omega)
  | false =>
    have ends := stop_le ts ms
    have first : roundUp checked (stop ts ms) 8 = some (up (stop ts ms) 8) :=
      roundUp_returns (by decide) (by have := @up_lt 8 (by decide) (stop ts ms); omega)
    have second : roundUp checked (up (stop ts ms) 8 / 8) (strictest ts ms) = some (wholeSize ts false ms) :=
      roundUp_returns positive (by rw [wholeSize, if_neg (by decide)] at small; omega)
    obtain ⟨s, looped⟩ := @layoutFrom_returns ts ms ⟨[], 0, 1, 0⟩ fits.products known
      (by show stop ts ms < 2 ^ 63; omega) fits.room
    obtain ⟨rfl, -⟩ := layoutFrom_checked ms looped
    unfold layout
    rw [looped]
    show ((roundUp checked (stop ts ms) 8 >>= fun bits => roundUp checked (bits / 8) (strictest ts ms)) >>= _) = _
    rw [first]
    show (roundUp checked (up (stop ts ms) 8 / 8) (strictest ts ms) >>= _) = _
    rw [second]
    exact if_neg (by omega)

theorem fits_of_holds (holds : Holds ts union ms at_ fields size) : Fits ts union ms := by
  obtain ⟨-, rfl, small, products, units⟩ := layout_checked holds.unwrapped
  refine ⟨products, small, ?_⟩
  cases union with
  | true =>
    intro m member width bits some_
    have open_ : m.bits ≠ some 0 := by
      rw [bits]
      exact fun zero => some_ (Option.some.inj zero)
    have takes : length ts m = width.toNat := by rw [length, bits]
    have nonzero : 0 < width.toNat :=
      Nat.pos_of_ne_zero fun zero => some_ (UInt8.toNat_inj.mp zero)
    have place := holds.inPlace ⟨m.field 0, m, 0, length ts m⟩
      (List.mem_map.mpr ⟨m, List.mem_filter.mpr ⟨member, by simpa using open_⟩, rfl⟩)
    have inside := (place.inUnit (fun none_ => nomatch bits.symm.trans none_)).2
    have ends := place.ends
    simp only [takes, Member.field] at inside ends
    refine ⟨by omega, Nat.pos_of_ne_zero fun zero => ?_⟩
    rw [wholeSize, if_pos rfl, zero] at ends
    have nothing : up 0 (strictest ts ms) = 0 := by simp [up, divCeil]
    omega
  | false =>
    exact roomFrom_of_inPlace ms (fun s member bits => (holds.inPlace s member).inUnit bits) (units rfl)

theorem holds_of_fits (accepted : layout wrapping ts union ms at_ = some (.ok (fields, size))) (fits : Fits ts union ms) :
    Holds ts union ms at_ fields size := by
  have known : KnownAll ts ms := by
    obtain ⟨answer, looped, later⟩ := Option.bind_eq_some_iff.mp accepted
    cases answer with
    | error refusal => cases later
    | ok s => exact known_of_layoutFrom ms looped
  have ran := layout_returns known fits at_
  have same := wrapping_layout ran
  rw [accepted] at same
  cases same
  refine ⟨ran, rfl, ?_, ?_, ?_⟩
  · rintro rfl
    exact spansFrom_ordered ms 0
  · cases union with
    | true =>
      intro s member
      obtain ⟨m, inside, rfl⟩ := List.mem_map.mp member
      obtain ⟨among, open_⟩ := List.mem_filter.mp inside
      have most : bytes ts m ≤ wholeSize ts true ms := by
        rw [wholeSize, if_pos rfl]
        exact (le_fold_mem (fun s => bytes ts s.member) member 0).trans (le_up (strictest_pos ts ms) _)
      cases bits : m.bits with
      | none =>
        have takes : length ts m = 8 * bytes ts m := by rw [length, bits]
        refine ⟨?_, fun _ => ⟨rfl, dvd_zero _⟩, fun some_ => absurd bits some_⟩
        show length ts m ≤ _
        omega
      | some width =>
        have takes : length ts m = width.toNat := by rw [length, bits]
        have some_ : width ≠ 0 := by
          rintro rfl
          simp [bits] at open_
        obtain ⟨narrow, positive⟩ := fits.room m among width bits some_
        have whole : widest ts ms ≤ wholeSize ts true ms := by
          rw [wholeSize, if_pos rfl]
          exact le_up (strictest_pos ts ms) _
        refine ⟨?_, fun none_ => (by cases bits.symm.trans none_), fun _ => ⟨Nat.zero_le _, ?_⟩⟩
        · show length ts m ≤ _
          unfold unit at narrow
          omega
        · show length ts m ≤ 8 * 0 + unit ts m
          omega
    | false => exact inPlace_of_roomFrom fits.room (stop_le ts ms)
  · cases union with
    | true => exact dvd_up _ _
    | false => exact dvd_up _ _

/-- An accepted body has its members in place, with no word overflowing, exactly
    when no array of it is larger than a word counts, the whole is smaller than four
    gigabytes in unbounded numbers too, and every bitfield has room where it goes. -/
theorem body_iff {declared : List Declared} (reads : declared.mapM member = .ok ms)
    (accepted : body wrapping ts union declared at_ = some (.ok (fields, size))) :
    Holds ts union ms at_ fields size ↔ Fits ts union ms := by
  rw [body, reads] at accepted
  exact ⟨fits_of_holds, holds_of_fits accepted⟩

/-- A store with no composites. -/
def plain (model : Model) : Types := ⟨model, fun _ => none⟩

/-- `struct { char c : 20; }` is accepted, and `c` leaves its unit. -/
theorem wide_bitfield_misplaced :
    ¬∀ ts union declared ms at_ fields size, declared.mapM member = .ok ms →
      body wrapping ts union declared at_ = some (.ok (fields, size)) → Holds ts union ms at_ fields size := by
  intro always
  have fits := fits_of_holds (always (plain lp64) false [⟨some "c", .int 1 true, some 20, 0⟩]
    [⟨some "c", .int 1 true, some 20, 0⟩] 0 [⟨"c", .int 1 true, 0, some 20⟩] 3 rfl rfl)
  exact absurd (fits.room.1 20 rfl (by decide)).2 (by decide)

/-- `struct { char c; int x; int b : 3; }` is in place. -/
theorem body_iff_mixed :
    Holds (plain lp64) false
      [⟨some "c", .int 1 true, none, 0⟩, ⟨some "x", .int 4 true, none, 0⟩, ⟨some "b", .int 4 true, some 3, 0⟩] 0
      [⟨"c", .int 1 true, 0, none⟩, ⟨"x", .int 4 true, 4, none⟩, ⟨"b", .int 4 true, 8, some 3⟩] 12 := by
  have reads : [⟨some "c", .int 1 true, none, 0⟩, ⟨some "x", .int 4 true, none, 0⟩,
        ⟨some "b", .int 4 true, some 3, 0⟩].mapM member =
      .ok [⟨some "c", .int 1 true, none, 0⟩, ⟨some "x", .int 4 true, none, 0⟩, ⟨some "b", .int 4 true, some 3, 0⟩] := rfl
  refine (body_iff reads rfl).mpr ⟨by simp [ProductsFit], by decide, ?_⟩
  show RoomFrom _ _ _
  simp only [RoomFrom]
  refine ⟨fun _ is => (nomatch is), fun _ is => (nomatch is), fun width is _ => ?_, trivial⟩
  cases is
  decide

end E5r.LayoutPlaces
