import E5r.WordMixing

/-!
Writing records as bytes and reading them back. A reader consumes bytes from the front
and fails where they run out. A reader *gives* values of some kind when it returns no
others, whatever the bytes.
-/
namespace E5r.ByteCodec
open WordMixing
open Cursor (leNat leNat_lt)

/-- A reader over the bytes that are left. -/
abbrev Dec := StateT (List UInt8) Option

variable {α β : Type}

def take (n : ℕ) : Dec (List UInt8) := fun bytes =>
  if n ≤ bytes.length then some (bytes.take n, bytes.drop n) else none

def remaining : Dec ℕ := fun bytes => some (bytes.length, bytes)

/-- What the value is required to be, or failure. -/
def lift (v : Option α) : Dec α := fun bytes => v.map fun a => (a, bytes)

def guard_ (p : Bool) : Dec Unit := lift (if p then some () else none)

def word (n : ℕ) : Dec ℕ := do
  let bytes ← take n
  pure (leNat bytes)

def u8 : Dec ℕ := word 1
def u32 : Dec ℕ := word 4
def u64 : Dec ℕ := word 8

def bool : Dec Bool := do
  match ← u8 with
  | 0 => pure false
  | 1 => pure true
  | _ => lift none

def str : Dec String := do
  let n ← u32
  let bytes ← take n
  lift (String.fromUTF8? ⟨bytes.toArray⟩)

def optStr : Dec (Option String) := do
  match ← u8 with
  | 0 => pure none
  | 1 => do
    let s ← str
    pure (some s)
  | _ => lift none

/-- A count that is refused when it is larger than the bytes left could encode. The
    product saturates at the largest number. -/
def atMost (n min : ℕ) : Dec Unit := do
  let left ← remaining
  guard_ (decide (Nat.min (n * min) (2 ^ 64 - 1) ≤ left))

def count (min : ℕ) : Dec ℕ := do
  let n ← u64
  atMost n (Nat.max min 1)
  pure n

def times (d : Dec α) : ℕ → Dec (List α)
  | 0 => pure []
  | n + 1 => do
    let a ← d
    let rest ← times d n
    pure (a :: rest)

def bool_ (b : Bool) : List UInt8 := leBytes 1 b.toNat
def bytesOf (s : String) : List UInt8 := s.toByteArray.data.toList
def str_ (s : String) : List UInt8 := leBytes 4 (bytesOf s).length ++ bytesOf s

def optStr_ : Option String → List UInt8
  | some s => leBytes 1 1 ++ str_ s
  | none => leBytes 1 0

theorem bind_run (d : Dec α) (f : α → Dec β) (bytes : List UInt8) :
    (d >>= f) bytes = (d bytes).bind fun r => f r.1 r.2 := rfl

theorem pure_run (a : α) (bytes : List UInt8) : (pure a : Dec α) bytes = some (a, bytes) := rfl

theorem take_run (bytes rest : List UInt8) : take bytes.length (bytes ++ rest) = some (bytes, rest) := by
  rw [take, if_pos (by rw [List.length_append]; omega), List.take_left, List.drop_left]

theorem word_run {n v : ℕ} (small : v < 256 ^ n) (rest : List UInt8) : word n (leBytes n v ++ rest) = some (v, rest) := by
  have taken := take_run (leBytes n v) rest
  rw [length_leBytes] at taken
  rw [word, bind_run, taken, Option.bind_some, pure_run, leNat_leBytes, Nat.mod_eq_of_lt small]

theorem u8_run {v : ℕ} (small : v < 256) (rest : List UInt8) : u8 (leBytes 1 v ++ rest) = some (v, rest) :=
  word_run small rest

theorem u32_run {v : ℕ} (small : v < 2 ^ 32) (rest : List UInt8) : u32 (leBytes 4 v ++ rest) = some (v, rest) :=
  word_run small rest

theorem u64_run {v : ℕ} (small : v < 2 ^ 64) (rest : List UInt8) : u64 (leBytes 8 v ++ rest) = some (v, rest) :=
  word_run small rest

theorem bool_run (b : Bool) (rest : List UInt8) : bool (bool_ b ++ rest) = some (b, rest) := by
  rw [bool, bind_run, bool_, u8_run (by cases b <;> decide), Option.bind_some]
  cases b with
  | false => rfl
  | true => rfl

theorem fromUTF8_bytesOf (s : String) : String.fromUTF8? ⟨(bytesOf s).toArray⟩ = some s := by
  rw [bytesOf, Array.toArray_toList]
  exact dif_pos s.isValidUTF8

theorem str_run {s : String} (short : (bytesOf s).length < 2 ^ 32) (rest : List UInt8) :
    str (str_ s ++ rest) = some (s, rest) := by
  rw [str, str_, List.append_assoc, bind_run, u32_run short, Option.bind_some, bind_run, take_run, Option.bind_some]
  show lift (String.fromUTF8? ⟨(bytesOf s).toArray⟩) rest = _
  rw [fromUTF8_bytesOf]
  rfl

theorem optStr_run {s : Option String} (short : ∀ t ∈ s, (bytesOf t).length < 2 ^ 32) (rest : List UInt8) :
    optStr (optStr_ s ++ rest) = some (s, rest) := by
  cases s with
  | none =>
    rw [optStr, optStr_, bind_run, u8_run (by decide), Option.bind_some]
    rfl
  | some t =>
    rw [optStr, optStr_, List.append_assoc, bind_run, u8_run (by decide), Option.bind_some]
    show (str >>= fun s => pure (some s)) (str_ t ++ rest) = _
    rw [bind_run, str_run (short t rfl), Option.bind_some]
    rfl

theorem atMost_fits {n min : ℕ} {bytes : List UInt8} (fits : Nat.min (n * min) (2 ^ 64 - 1) ≤ bytes.length) :
    atMost n min bytes = some ((), bytes) := by
  rw [atMost, bind_run, remaining, Option.bind_some, guard_, if_pos (decide_eq_true fits)]
  rfl

theorem atMost_run {n min : ℕ} {bytes : List UInt8} (enough : n * min ≤ bytes.length) :
    atMost n min bytes = some ((), bytes) := atMost_fits ((Nat.min_le_left _ _).trans enough)

theorem atMost_none {n min : ℕ} {bytes : List UInt8} (few : ¬Nat.min (n * min) (2 ^ 64 - 1) ≤ bytes.length) :
    atMost n min bytes = none := by
  rw [atMost, bind_run, remaining, Option.bind_some, guard_, if_neg (by simpa using few)]
  rfl

theorem count_run {n min : ℕ} (small : n < 2 ^ 64) {bytes : List UInt8} (enough : n * Nat.max min 1 ≤ bytes.length) :
    count min (leBytes 8 n ++ bytes) = some (n, bytes) := by
  rw [count, bind_run, u64_run small, Option.bind_some, bind_run, atMost_run enough]
  rfl

/-- One reader after another over what was written for each member of a list. -/
theorem times_run {d : Dec α} {enc : α → List UInt8} {l : List α}
    (each : ∀ a ∈ l, ∀ rest, d (enc a ++ rest) = some (a, rest)) (rest : List UInt8) :
    times d l.length (l.flatMap enc ++ rest) = some (l, rest) := by
  induction l with
  | nil => rfl
  | cons a l ih =>
    rw [List.length_cons, times, List.flatMap_cons, List.append_assoc, bind_run, each a List.mem_cons_self,
      Option.bind_some, bind_run, ih fun b member => each b (List.mem_cons_of_mem _ member), Option.bind_some]
    rfl

/-- What is written for the members of a list has at least their least size each. -/
theorem length_flatMap_ge {enc : α → List UInt8} {l : List α} {min : ℕ} (each : ∀ a ∈ l, min ≤ (enc a).length) :
    l.length * min ≤ (l.flatMap enc).length := by
  induction l with
  | nil => simp
  | cons a l ih =>
    have first := each a List.mem_cons_self
    have later := ih fun b member => each b (List.mem_cons_of_mem _ member)
    rw [List.flatMap_cons, List.length_append, List.length_cons, Nat.succ_mul]
    omega

/-- A reader returns only values of this kind. -/
def Gives (d : Dec α) (kind : α → Prop) : Prop := ∀ bytes a rest, d bytes = some (a, rest) → kind a

theorem Gives.bind {d : Dec α} {f : α → Dec β} {kind : α → Prop} {kind' : β → Prop} (first : Gives d kind)
    (next : ∀ a, kind a → Gives (f a) kind') : Gives (d >>= f) kind' := by
  intro bytes b rest ends
  rw [bind_run] at ends
  obtain ⟨⟨a, left⟩, here, later⟩ := Option.bind_eq_some_iff.mp ends
  exact next a (first bytes a left here) left b rest later

theorem Gives.pure {a : α} {kind : α → Prop} (holds : kind a) : Gives (pure a : Dec α) kind := by
  intro bytes b rest ends
  obtain ⟨rfl, -⟩ := Prod.mk.inj (Option.some.inj ends)
  exact holds

theorem Gives.lift {v : Option α} {kind : α → Prop} (holds : ∀ a, v = some a → kind a) : Gives (lift v) kind := by
  intro bytes a rest ends
  obtain ⟨b, here, equal⟩ := Option.map_eq_some_iff.mp ends
  obtain ⟨rfl, -⟩ := Prod.mk.inj equal
  exact holds b here

theorem Gives.any (d : Dec α) : Gives d fun _ => True := fun _ _ _ _ => trivial

theorem gives_take (n : ℕ) : Gives (take n) fun bytes => bytes.length = n := by
  intro bytes a rest ends
  rw [take] at ends
  split at ends
  next enough =>
    obtain ⟨rfl, -⟩ := Prod.mk.inj (Option.some.inj ends)
    rw [List.length_take, Nat.min_eq_left enough]
  next => cases ends

theorem gives_word (n : ℕ) : Gives (word n) fun v => v < 256 ^ n :=
  (gives_take n).bind fun bytes length => .pure (length ▸ leNat_lt bytes)

theorem gives_u32 : Gives u32 fun v => v < 2 ^ 32 := gives_word 4
theorem gives_str : Gives str fun s => (bytesOf s).length < 2 ^ 32 := by
  refine gives_u32.bind fun n small => (gives_take n).bind fun bytes length => .lift fun s decoded => ?_
  rw [String.fromUTF8?] at decoded
  split at decoded
  · obtain rfl := Option.some.inj decoded
    show bytes.toArray.toList.length < 2 ^ 32
    rw [List.toList_toArray, length]
    exact small
  · cases decoded

theorem gives_optStr : Gives optStr fun s => ∀ t ∈ s, (bytesOf t).length < 2 ^ 32 := by
  refine (Gives.any u8).bind fun n _ => ?_
  split
  · exact .pure fun t none_ => by cases none_
  · exact gives_str.bind fun s short => .pure fun t same => Option.some.inj same ▸ short
  · exact .lift fun t none_ => by cases none_

theorem gives_times {d : Dec α} {kind : α → Prop} (each : Gives d kind) (n : ℕ) :
    Gives (times d n) fun l => l.length = n ∧ ∀ a ∈ l, kind a := by
  induction n with
  | zero => exact .pure ⟨rfl, fun a none_ => by cases none_⟩
  | succ n ih =>
    refine each.bind fun a first => ih.bind fun l later => .pure ⟨?_, ?_⟩
    · rw [List.length_cons, later.1]
    · exact List.forall_mem_cons.mpr ⟨first, later.2⟩

end E5r.ByteCodec
