import Mathlib.Data.List.Basic
import Mathlib.Order.Basic
import Mathlib.Data.Nat.Basic

/-!
Runs of items read one after another: an item is read at a position and ends at
a later one, where the next item is read. A run of items tiles the positions from
its first to its last (`Tiles`). Where every item takes room (`Advances`), a
position inside a tiled stretch either parts the run between two items or lies
strictly inside one of them (`tiles_split`), and the items of a tiled stretch are
determined by its two ends (`tiles_unique`).
-/
namespace E5r.Tilings

variable {ι : Type*} (read : ℕ → Option ι) (after : ι → ℕ)

/-- The items read one after another from `start` end exactly at `stop`. -/
def Tiles : ℕ → List ι → ℕ → Prop
  | start, [], stop => start = stop
  | start, i :: rest, stop => read start = some i ∧ Tiles (after i) rest stop

/-- Every item ends past the position at which it is read. -/
def Advances : Prop := ∀ ⦃start i⦄, read start = some i → start < after i

/-- A position strictly inside one of the items read one after another from `start`. -/
def Splits (start position : ℕ) : Prop :=
  ∃ (before : List ι) (at_ : ℕ) (i : ι), Tiles read after start before at_ ∧ read at_ = some i ∧
    at_ < position ∧ position < after i

/-- Read items until `stop` is reached, at most `fuel` of them. -/
def readFrom (stop : ℕ) : ℕ → ℕ → List ι
  | 0, _ => []
  | fuel + 1, start =>
    if start < stop then
      match read start with
      | none => []
      | some i => i :: readFrom stop fuel (after i)
    else []

variable {read} {after}

variable {items : List ι}

theorem tiles_append {more : List ι} {start stop last : ℕ} (first : Tiles read after start items stop)
    (second : Tiles read after stop more last) : Tiles read after start (items ++ more) last := by
  induction items generalizing start with
  | nil =>
    obtain rfl : start = stop := first
    exact second
  | cons i rest ih => exact ⟨first.1, ih first.2⟩

theorem tiles_snoc {start stop : ℕ} {i : ι} (tiled : Tiles read after start items stop) (found : read stop = some i) :
    Tiles read after start (items ++ [i]) (after i) :=
  tiles_append tiled ⟨found, rfl⟩

theorem tiles_le (advances : Advances read after) {start stop : ℕ} (tiled : Tiles read after start items stop) :
    start ≤ stop := by
  induction items generalizing start with
  | nil => exact le_of_eq tiled
  | cons i rest ih => exact (advances tiled.1).le.trans (ih tiled.2)

theorem tiles_lt (advances : Advances read after) {start stop : ℕ} (tiled : Tiles read after start items stop)
    (some : items ≠ []) : start < stop := by
  cases items with
  | nil => exact absurd rfl some
  | cons i rest => exact (advances tiled.1).trans_le (tiles_le advances tiled.2)

theorem tiles_unique (advances : Advances read after) {others : List ι} {start stop : ℕ}
    (one : Tiles read after start items stop) (other : Tiles read after start others stop) : items = others := by
  induction items generalizing start others with
  | nil =>
    obtain rfl : start = stop := one
    by_contra different
    exact (tiles_lt advances other (fun none => different none.symm)).ne rfl
  | cons i rest ih =>
    cases others with
    | nil =>
      obtain rfl : start = stop := other
      exact absurd rfl (tiles_lt advances one (List.cons_ne_nil _ _)).ne
    | cons j more =>
      obtain rfl : i = j := Option.some.inj (one.1.symm.trans other.1)
      rw [ih one.2 other.2]

theorem tiles_split {start stop position : ℕ} (tiled : Tiles read after start items stop) (low : start ≤ position)
    (high : position ≤ stop) :
    (∃ front back, items = front ++ back ∧ Tiles read after start front position ∧
      Tiles read after position back stop) ∨ Splits read after start position := by
  induction items generalizing start with
  | nil =>
    obtain rfl : start = stop := tiled
    obtain rfl : start = position := le_antisymm low high
    exact .inl ⟨[], [], rfl, rfl, rfl⟩
  | cons i rest ih =>
    rcases Nat.lt_or_ge position (after i) with inside | beyond
    · rcases Nat.eq_or_lt_of_le low with rfl | later
      · exact .inl ⟨[], i :: rest, rfl, rfl, tiled⟩
      · exact .inr ⟨[], start, i, rfl, tiled.1, later, inside⟩
    · rcases ih tiled.2 beyond with ⟨front, back, rfl, left, right⟩ | ⟨before, at_, j, left, found, bounds⟩
      · exact .inl ⟨i :: front, back, rfl, ⟨tiled.1, left⟩, right⟩
      · exact .inr ⟨i :: before, at_, j, ⟨tiled.1, left⟩, found, bounds⟩

theorem not_splits_of_tiles (advances : Advances read after) {start stop : ℕ}
    (tiled : Tiles read after start items stop) : ¬ Splits read after start stop := by
  rintro ⟨before, at_, i, front, found, low, high⟩
  induction items generalizing start before with
  | nil =>
    obtain rfl : start = stop := tiled
    exact absurd (tiles_le advances front) (not_le_of_gt low)
  | cons j rest ih =>
    cases before with
    | nil =>
      obtain rfl : start = at_ := front
      obtain rfl : j = i := Option.some.inj (tiled.1.symm.trans found)
      exact absurd (tiles_le advances tiled.2) (not_le_of_gt high)
    | cons k before =>
      obtain rfl : j = k := Option.some.inj (tiled.1.symm.trans front.1)
      exact ih tiled.2 before front.2

theorem readFrom_tiles (advances : Advances read after) {start stop fuel : ℕ}
    (tiled : Tiles read after start items stop) (enough : stop - start ≤ fuel) :
    readFrom read after stop fuel start = items := by
  induction items generalizing start fuel with
  | nil =>
    obtain rfl : start = stop := tiled
    cases fuel with
    | zero => rfl
    | succ fuel => simp [readFrom]
  | cons i rest ih =>
    have further := advances tiled.1
    have below := tiles_lt advances tiled (List.cons_ne_nil _ _)
    cases fuel with
    | zero => omega
    | succ fuel =>
      rw [readFrom, if_pos below, tiled.1]
      simp only
      rw [ih tiled.2 (by omega)]

end E5r.Tilings
