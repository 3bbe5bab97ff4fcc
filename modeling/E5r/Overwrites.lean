import Mathlib.Data.List.Perm.Subperm

/-!
Writes to ranges of a list. Writes that agree wherever they overlap have one
result in every order: each position holds what any write to it says.
-/
namespace E5r.Overwrites

variable {α : Type}

/-- The data for the range from an offset on. -/
structure Write (α : Type) where
  off : ℕ
  data : List α

namespace Write

/-- A position is in the range. -/
def Covers (w : Write α) (x : ℕ) : Prop := w.off ≤ x ∧ x < w.off + w.data.length

instance (w : Write α) (x : ℕ) : Decidable (w.Covers x) := inferInstanceAs (Decidable (_ ∧ _))

/-- What a write says of a position. -/
def at_ (w : Write α) (x : ℕ) : Option α := w.data[x - w.off]?

/-- The list has the whole range. -/
def Fits (w : Write α) (image : List α) : Prop := w.off + w.data.length ≤ image.length

instance (w : Write α) (image : List α) : Decidable (w.Fits image) := inferInstanceAs (Decidable (_ ≤ _))

/-- The list with a range overwritten. -/
def put (image : List α) (w : Write α) : List α :=
  image.take w.off ++ w.data ++ image.drop (w.off + w.data.length)

/-- Two writes to a common position write the same. -/
def Agree (v w : Write α) : Prop := ∀ x, v.Covers x → w.Covers x → v.at_ x = w.at_ x

variable {w : Write α} {image : List α}

theorem length_put (fits : w.Fits image) : (put image w).length = image.length := by
  rw [Fits] at fits
  rw [put, List.length_append, List.length_append, List.length_take, List.length_drop]
  omega

theorem get_put (fits : w.Fits image) (x : ℕ) : (put image w)[x]? = if w.Covers x then w.at_ x else image[x]? := by
  rw [Fits] at fits
  have front : (image.take w.off).length = w.off := List.length_take_of_le (by omega)
  rw [put, List.append_assoc]
  by_cases before : x < w.off
  · rw [List.getElem?_append_left (by omega), List.getElem?_take_of_lt before, if_neg (by rw [Covers]; omega)]
  · rw [List.getElem?_append_right (by omega), front]
    by_cases inside : x < w.off + w.data.length
    · rw [List.getElem?_append_left (by omega), if_pos ⟨by omega, inside⟩]
      rfl
    · rw [List.getElem?_append_right (by omega), List.getElem?_drop, if_neg (by rw [Covers]; omega)]
      congr 1
      omega

/-- What a list holds in the range of a write, if it fits. -/
def found (image : List α) (off len : ℕ) : List α := (image.drop off).take len

theorem found_get {off len x : ℕ} (low : off ≤ x) (high : x < off + len) :
    (found image off len)[x - off]? = image[x]? := by
  rw [found, List.getElem?_take_of_lt (by omega), List.getElem?_drop]
  congr 1
  omega

end Write

open Write

variable {ws : List (Write α)} {image : List α}

theorem length_puts (fits : ∀ w ∈ ws, w.Fits image) : (ws.foldl put image).length = image.length := by
  induction ws generalizing image with
  | nil => rfl
  | cons w ws ih =>
    have first := length_put (fits w (List.mem_cons_self ..))
    rw [List.foldl_cons, ih, first]
    intro v member
    rw [Fits, first]
    exact fits v (List.mem_cons_of_mem w member)

/-- A position that no write covers keeps its content. -/
theorem puts_outside (fits : ∀ w ∈ ws, w.Fits image) {x : ℕ} (outside : ∀ w ∈ ws, ¬w.Covers x) :
    (ws.foldl put image)[x]? = image[x]? := by
  induction ws generalizing image with
  | nil => rfl
  | cons w ws ih =>
    have first := fits w (List.mem_cons_self ..)
    rw [List.foldl_cons, ih, get_put first, if_neg (outside w (List.mem_cons_self ..))]
    · intro v member
      rw [Fits, length_put first]
      exact fits v (List.mem_cons_of_mem w member)
    · exact fun v member => outside v (List.mem_cons_of_mem w member)

/-- A position holds what any write to it says, when the writes agree. -/
theorem puts_inside (fits : ∀ w ∈ ws, w.Fits image) (agree : ∀ v ∈ ws, ∀ w ∈ ws, v.Agree w) {w : Write α}
    (member : w ∈ ws) {x : ℕ} (covers : w.Covers x) : (ws.foldl put image)[x]? = w.at_ x := by
  induction ws generalizing image w with
  | nil => cases member
  | cons v ws ih =>
    have first := fits v (List.mem_cons_self ..)
    have later : ∀ u ∈ ws, u.Fits (put image v) := by
      intro u inside
      rw [Fits, length_put first]
      exact fits u (List.mem_cons_of_mem v inside)
    have rest : ∀ t ∈ ws, ∀ u ∈ ws, t.Agree u := fun t inside u among =>
      agree t (List.mem_cons_of_mem v inside) u (List.mem_cons_of_mem v among)
    rw [List.foldl_cons]
    by_cases again : ∃ u ∈ ws, u.Covers x
    · obtain ⟨u, inside, covered⟩ := again
      rw [ih later rest inside covered]
      exact agree u (List.mem_cons_of_mem v inside) w member x covered covers
    · have none : ∀ u ∈ ws, ¬u.Covers x := fun u inside covered => again ⟨u, inside, covered⟩
      rcases List.mem_cons.mp member with rfl | inside
      · rw [puts_outside later none, get_put first, if_pos covers]
      · exact absurd covers (none w inside)

/-- A list with every write in it is what agreeing writes leave. -/
theorem puts_eq {result : List α} (fits : ∀ w ∈ ws, w.Fits image) (agree : ∀ v ∈ ws, ∀ w ∈ ws, v.Agree w)
    (inside : ∀ w ∈ ws, ∀ x, w.Covers x → result[x]? = w.at_ x)
    (outside : ∀ x, (∀ w ∈ ws, ¬w.Covers x) → result[x]? = image[x]?) : ws.foldl put image = result := by
  apply List.ext_getElem?
  intro x
  by_cases covered : ∃ w ∈ ws, w.Covers x
  · obtain ⟨w, member, covers⟩ := covered
    rw [puts_inside fits agree member covers, inside w member x covers]
  · have none : ∀ w ∈ ws, ¬w.Covers x := fun w member covers => covered ⟨w, member, covers⟩
    rw [puts_outside fits none, outside x none]

end E5r.Overwrites
