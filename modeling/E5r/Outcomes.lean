import Mathlib.Algebra.Group.Int.Defs
import Mathlib.Data.List.Basic
import E5r.CheckedWords

/-!
# Computations that return or crash

A computation returns a value, fails with an error, or stops the program: an index or a slice out
of range, or a number that leaves its word.
-/

namespace E5r.Outcomes

open CheckedWords

inductive Outcome (ε α : Type) where
  | ok (a : α)
  | err (e : ε)
  | crash
  deriving DecidableEq

variable {ε α β : Type}

namespace Outcome

def bind (x : Outcome ε α) (f : α → Outcome ε β) : Outcome ε β :=
  match x with
  | .ok a => f a
  | .err e => .err e
  | .crash => .crash

instance : Monad (Outcome ε) where
  pure := .ok
  bind := bind

/-- What has a value, or else the error. -/
def orErr (e : ε) : Option α → Outcome ε α
  | some a => .ok a
  | none => .err e

/-- What has a value, or else the program stops. -/
def orCrash : Option α → Outcome ε α
  | some a => .ok a
  | none => .crash

end Outcome

open Outcome

theorem bind_ok_iff {x : Outcome ε α} {f : α → Outcome ε β} {b : β} :
    (x >>= f) = .ok b ↔ ∃ a, x = .ok a ∧ f a = .ok b := by
  cases x <;> simp [Bind.bind, Outcome.bind]

theorem bind_crash_iff {x : Outcome ε α} {f : α → Outcome ε β} :
    (x >>= f) = .crash ↔ x = .crash ∨ ∃ a, x = .ok a ∧ f a = .crash := by
  cases x <;> simp [Bind.bind, Outcome.bind]

@[simp] theorem ok_bind (a : α) (f : α → Outcome ε β) : (Outcome.ok a >>= f) = f a := rfl

@[simp] theorem err_bind (e : ε) (f : α → Outcome ε β) : (Outcome.err e >>= f) = .err e := rfl

@[simp] theorem crash_bind (f : α → Outcome ε β) : (Outcome.crash >>= f) = .crash := rfl

@[simp] theorem pure_eq (a : α) : (pure a : Outcome ε α) = .ok a := rfl

/-- The element at an index. -/
def at_ (l : List α) (i : ℕ) : Outcome ε α := orCrash l[i]?

/-- The elements from one index to another, which must be in order and in range. -/
def slice (l : List α) (i j : ℕ) : Outcome ε (List α) :=
  if i ≤ j ∧ j ≤ l.length then .ok ((l.take j).drop i) else .crash

def sum (arith : Arith) (a b : ℕ) : Outcome ε ℕ := orCrash (arith.add a b)

variable {l : List α} {i : ℕ}

theorem at_ne_crash (inside : i < l.length) : (at_ l i : Outcome ε α) = .ok l[i] := by
  rw [at_, List.getElem?_eq_getElem inside]
  rfl

theorem slice_of_le {j : ℕ} (order : i ≤ j) (inside : j ≤ l.length) :
    (slice l i j : Outcome ε (List α)) = .ok ((l.take j).drop i) := if_pos ⟨order, inside⟩

/-- The arithmetic of a program, when its words are 64 bits wide: sums that fit are exact, and one
that does not fit has no value or one that shows it. -/
structure Exact (arith : Arith) : Prop where
  add : ∀ {a b : ℕ}, a + b < 2 ^ 64 → arith.add a b = some (a + b)
  shows : ∀ {a b c : ℕ}, b < 2 ^ 64 → arith.add a b = some c → c = a + b ∨ c < a
  word : ∀ {a b c : ℕ}, arith.add a b = some c → c < 2 ^ 64

theorem exact_wrapping : Exact wrapping where
  add fits := congrArg some (Nat.mod_eq_of_lt fits)
  shows {a b c} small sum := by
    obtain rfl := Option.some.inj sum
    show (a + b) % 2 ^ 64 = a + b ∨ (a + b) % 2 ^ 64 < a
    omega
  word {a b c} sum := by
    obtain rfl := Option.some.inj sum
    exact Nat.mod_lt _ (by decide)

variable {a b : ℕ}

theorem sum_exact {arith : Arith} (exact : Exact arith) (fits : a + b < 2 ^ 64) :
    (sum arith a b : Outcome ε ℕ) = .ok (a + b) := by
  rw [sum, exact.add fits]
  rfl

theorem sum_shows {arith : Arith} (exact : Exact arith) {c : ℕ} (small : b < 2 ^ 64)
    (found : (sum arith a b : Outcome ε ℕ) = .ok c) : c = a + b ∨ c < a := by
  refine exact.shows small ?_
  unfold sum at found
  cases added : arith.add a b with
  | none => rw [added] at found; cases found
  | some d => rw [added] at found; cases found; rfl

def fits (bits n : ℕ) : Outcome ε ℕ := if n < 2 ^ bits then .ok n else .crash

/-- A signed number that must fit its word of 32 bits. -/
def fits32 (n : ℤ) : Outcome ε ℤ := if -2 ^ 31 ≤ n ∧ n < 2 ^ 31 then .ok n else .crash

/-- A difference that must not be negative. -/
def minus (a b : ℕ) : Outcome ε ℕ := if b ≤ a then .ok (a - b) else .crash

/-- An amount that must be below the width of what is shifted. -/
def amount (bits n : ℕ) : Outcome ε ℕ := if n < bits then .ok n else .crash

/-- The list with another element at an index. -/
def put (l : List α) (i : ℕ) (a : α) : Outcome ε (List α) :=
  if i < l.length then .ok (l.set i a) else .crash

/-- The list with the same element from one index to another. -/
def putAll (l : List α) (i j : ℕ) (a : α) : Outcome ε (List α) :=
  if i ≤ j ∧ j ≤ l.length then .ok (l.take i ++ List.replicate (j - i) a ++ l.drop j) else .crash

theorem fits_of_lt {bits n : ℕ} (small : n < 2 ^ bits) : (fits bits n : Outcome ε ℕ) = .ok n := if_pos small

theorem fits32_of {n : ℤ} (low : -2 ^ 31 ≤ n) (high : n < 2 ^ 31) : (fits32 n : Outcome ε ℤ) = .ok n :=
  if_pos ⟨low, high⟩

theorem minus_of_le (order : b ≤ a) : (minus a b : Outcome ε ℕ) = .ok (a - b) := if_pos order

theorem amount_of_lt {bits n : ℕ} (small : n < bits) : (amount bits n : Outcome ε ℕ) = .ok n := if_pos small

theorem put_of_lt (inside : i < l.length) (a : α) :
    (put l i a : Outcome ε (List α)) = .ok (l.set i a) := if_pos inside

theorem putAll_of_le {j : ℕ} (order : i ≤ j) (inside : j ≤ l.length) (a : α) :
    (putAll l i j a : Outcome ε (List α)) = .ok (l.take i ++ List.replicate (j - i) a ++ l.drop j) :=
  if_pos ⟨order, inside⟩

/-- A program answers as one in which nothing can crash, with an answer that has the property,
unless it fails for a reason of its own (`none`), which the other one does not have. -/
inductive Follows (post : α → Prop) : Outcome (Option ε) α → Except ε α → Prop where
  | ok {a : α} (holds : post a) : Follows post (.ok a) (.ok a)
  | err (e : ε) : Follows post (.err (some e)) (.error e)
  | exhausted (m : Except ε α) : Follows post (.err none) m

variable {post : α → Prop}

variable {x : Outcome (Option ε) α} {m : Except ε α}

theorem follows_bind {after : β → Prop} {f : α → Outcome (Option ε) β} {g : α → Except ε β} (first : Follows post x m)
    (rest : ∀ a, post a → Follows after (f a) (g a)) : Follows after (x >>= f) (m >>= g) := by
  cases first with
  | ok holds => exact rest _ holds
  | err e => exact .err e
  | exhausted m => exact .exhausted _

theorem follows_then {after : β → Prop} {f : α → Outcome (Option ε) β} {g : α → Except ε β} (first : Follows post x m)
    (rest : ∀ a, m = .ok a → post a → Follows after (f a) (g a)) : Follows after (x >>= f) (m >>= g) := by
  cases first with
  | ok holds => exact rest _ rfl holds
  | err e => exact .err e
  | exhausted m => exact .exhausted _

theorem follows_ite {c : Prop} [Decidable c] {y : Outcome (Option ε) α} {k : Except ε α}
    (holds : c → Follows post x m) (fails : ¬c → Follows post y k) :
    Follows post (if c then x else y) (if c then m else k) := by
  split
  · next is => exact holds is
  · next isNot => exact fails isNot

/-- Both refuse for the same reason, or else go on. -/
theorem follows_unless {c : Prop} [Decidable c] {e : ε} {y : Outcome (Option ε) α} {f : PUnit → Except ε α}
    (fails : ¬c → Follows post y m) :
    Follows post (if c then .err (some e) else y) (if c then (throw e : Except ε PUnit) >>= f else m) :=
  follows_ite (fun _ => .err e) fails

theorem follows_ne_crash (follows : Follows post x m) : x ≠ .crash := by
  cases follows <;> nofun

theorem follows_answer (follows : Follows post x m) {a : α} (answer : x = .ok a) : m = .ok a ∧ post a := by
  cases follows with
  | ok holds =>
    cases answer
    exact ⟨rfl, holds⟩
  | err e => cases answer
  | exhausted m => cases answer

end E5r.Outcomes
