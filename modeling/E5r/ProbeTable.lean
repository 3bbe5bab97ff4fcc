import Mathlib.Data.List.Perm.Subperm
import Mathlib.Data.List.Range
import Mathlib.Data.Nat.Bitwise
import Mathlib.Tactic.Ring

/-!
An index by open addressing. A table of slots, a power of two of them, holds ids; an id
stands in the first slot that was vacant when it entered, from the slot of its hash on.
A walk from the slot of a hash therefore meets every id of that hash before a vacant
slot.
-/
namespace E5r.ProbeTable

/-- Where a walk stops: at an id that it was looking for, or at a vacant slot. -/
inductive Probe where
  | found (id : ℕ)
  | vacant (slot : ℕ)
deriving DecidableEq

section
variable (free : ℕ)

/-- Walk from a slot on, to a vacant one or an id that is looked for. -/
def walk (slots : List ℕ) (same : ℕ → Bool) : ℕ → ℕ → Option Probe
  | 0, _ => none
  | fuel + 1, i =>
    let id := slots.getD i free
    if id = free then some (.vacant i)
    else if same id then some (.found id)
    else walk slots same fuel ((i + 1) &&& (slots.length - 1))

/-- Enter ids one after another, each in the first vacant slot of its hash. -/
def enterAll (hash : ℕ → ℕ) : List ℕ → List ℕ → Option (List ℕ)
  | slots, [] => some slots
  | slots, id :: rest =>
    match walk free slots (fun _ => false) (slots.length + 1) (hash id &&& (slots.length - 1)) with
    | some (.vacant i) => enterAll hash (slots.set i id) rest
    | _ => none

def slotAt (slots : List ℕ) (h d : ℕ) : ℕ := slots.getD ((h + d) % slots.length) free

/-- The slots hold these ids, each behind occupied slots only. -/
structure Indexed (hash : ℕ → ℕ) (slots ids : List ℕ) : Prop where
  placed : ∀ id ∈ ids, ∃ d, slotAt free slots (hash id) d = id ∧ ∀ k < d, slotAt free slots (hash id) k ≠ free
  held : (slots.filter fun id => decide (id ≠ free)).Perm ids

end

variable {free : ℕ} {hash : ℕ → ℕ} {slots ids : List ℕ}

theorem mask_eq {n k : ℕ} (size : n = 2 ^ k) (i : ℕ) : i &&& (n - 1) = i % n := by
  rw [size, Nat.and_two_pow_sub_one_eq_mod]

theorem exists_vacant (held : (slots.filter fun id => decide (id ≠ free)).Perm ids) (room : ids.length < slots.length) :
    ∃ i < slots.length, slots.getD i free = free := by
  by_contra full
  have all : slots.filter (fun id => decide (id ≠ free)) = slots := by
    refine List.filter_eq_self.mpr fun id member => ?_
    obtain ⟨i, inside, rfl⟩ := List.mem_iff_getElem.mp member
    refine decide_eq_true fun vacant => full ⟨i, inside, ?_⟩
    rw [List.getD_eq_getElem _ _ inside, vacant]
  have same := held.length_eq
  rw [all] at same
  omega

/-- Where a walk from the slot of a hash stops. -/
structure Stops (free : ℕ) (slots : List ℕ) (same : ℕ → Bool) (h d : ℕ) (p : Probe) : Prop where
  passed : ∀ k < d, slotAt free slots h k ≠ free ∧ same (slotAt free slots h k) = false
  here : (p = .vacant ((h + d) % slots.length) ∧ slotAt free slots h d = free) ∨
    (p = .found (slotAt free slots h d) ∧ slotAt free slots h d ≠ free ∧ same (slotAt free slots h d) = true)

theorem walk_stops {k : ℕ} (size : slots.length = 2 ^ k) (vacant : ∃ i < slots.length, slots.getD i free = free)
    (same : ℕ → Bool) (h : ℕ) :
    ∃ d p, walk free slots same (slots.length + 1) (h &&& (slots.length - 1)) = some p ∧ Stops free slots same h d p := by
  have positive : 0 < slots.length := by
    rw [size]
    exact Nat.two_pow_pos k
  obtain ⟨v, inside, empty⟩ := vacant
  -- The vacant slot lies at a distance below the number of slots.
  obtain ⟨far, near, there⟩ : ∃ far < slots.length, (h + far) % slots.length = v := by
    have low := Nat.mod_lt h positive
    refine ⟨(v + (slots.length - h % slots.length)) % slots.length, Nat.mod_lt _ positive, ?_⟩
    have sum : h % slots.length + (v + (slots.length - h % slots.length)) = v + slots.length := by omega
    rw [Nat.add_mod_mod, ← Nat.mod_add_mod, sum, Nat.add_mod_right, Nat.mod_eq_of_lt inside]
  have run : ∀ fuel start, far < start + fuel → start ≤ far →
      (∀ j < start, slotAt free slots h j ≠ free ∧ same (slotAt free slots h j) = false) →
      ∃ d p, walk free slots same fuel ((h + start) % slots.length) = some p ∧ Stops free slots same h d p := by
    intro fuel
    induction fuel with
    | zero => intro start enough low _; omega
    | succ fuel ih =>
      intro start enough low passed
      rw [walk]
      by_cases empty' : slots.getD ((h + start) % slots.length) free = free
      · exact ⟨start, .vacant ((h + start) % slots.length), if_pos empty', passed, .inl ⟨rfl, empty'⟩⟩
      · by_cases sought : same (slots.getD ((h + start) % slots.length) free) = true
        · refine ⟨start, .found (slotAt free slots h start), ?_, passed, .inr ⟨rfl, empty', sought⟩⟩
          rw [if_neg empty', if_pos sought]
          rfl
        · have less : start < far := by
            refine lt_of_le_of_ne low fun equal => empty' ?_
            rw [equal, there]
            exact empty
          obtain ⟨d, p, stops, facts⟩ := ih (start + 1) (by omega) less (fun j below => by
            rcases Nat.lt_succ_iff_lt_or_eq.mp below with earlier | rfl
            · exact passed j earlier
            · exact ⟨empty', by simpa [slotAt] using sought⟩)
          refine ⟨d, p, ?_, facts⟩
          rw [if_neg empty', if_neg sought, mask_eq size, Nat.mod_add_mod]
          exact stops
  have start := run (slots.length + 1) 0 (by omega) (Nat.zero_le _) (by simp)
  rwa [Nat.add_zero, ← mask_eq size] at start

/-- A walk for an id of the table, from the slot of its hash, finds one it looks for. -/
theorem Stops.found {same : ℕ → Bool} {h d : ℕ} {p : Probe} (stops : Stops free slots same h d p)
    (indexed : Indexed free hash slots ids) {id : ℕ} (member : id ∈ ids) (fresh : free ∉ ids) (hashed : hash id = h)
    (sought : same id = true) : ∃ id' ∈ ids, p = .found id' ∧ same id' = true := by
  obtain ⟨far, there, path⟩ := indexed.placed id member
  rw [hashed] at there path
  rcases stops.here with ⟨-, empty⟩ | ⟨rfl, occupied, hit⟩
  · exfalso
    rcases Nat.lt_trichotomy d far with before | rfl | behind
    · exact path d before empty
    · rw [there] at empty
      exact fresh (empty ▸ member)
    · have passed := (stops.passed far behind).2
      rw [there, sought] at passed
      cases passed
  · refine ⟨slotAt free slots h d, indexed.held.mem_iff.mp (List.mem_filter.mpr ⟨?_, decide_eq_true occupied⟩), rfl, hit⟩
    by_cases inside : (h + d) % slots.length < slots.length
    · rw [slotAt, List.getD_eq_getElem _ _ inside]
      exact List.getElem_mem inside
    · rw [slotAt, List.getD_eq_default _ _ (Nat.not_lt.mp inside)] at occupied
      exact absurd rfl occupied

theorem held_set {i id : ℕ} (inside : i < slots.length) (vacant : slots.getD i free = free) (other : id ≠ free) :
    ((slots.set i id).filter fun id => decide (id ≠ free)).Perm
      (id :: slots.filter fun id => decide (id ≠ free)) := by
  induction slots generalizing i with
  | nil => exact absurd inside (Nat.not_lt_zero _)
  | cons first rest ih =>
    cases i with
    | zero =>
      have empty : first = free := vacant
      rw [List.set_cons_zero, List.filter_cons_of_pos (by simpa using other),
        List.filter_cons_of_neg (by simpa using empty)]
    | succ i =>
      have rest_ := ih (i := i) (Nat.lt_of_succ_lt_succ inside) vacant
      rw [List.set_cons_succ]
      by_cases empty : first = free
      · rw [List.filter_cons_of_neg (by simpa using empty), List.filter_cons_of_neg (by simpa using empty)]
        exact rest_
      · rw [List.filter_cons_of_pos (by simpa using empty), List.filter_cons_of_pos (by simpa using empty)]
        exact (rest_.cons first).trans (List.Perm.swap id first _)

theorem Indexed.enter {same : ℕ → Bool} {d id : ℕ} (indexed : Indexed free hash slots ids)
    (stops : Stops free slots same (hash id) d (.vacant ((hash id + d) % slots.length))) (other : id ≠ free)
    (fresh : free ∉ ids) (positive : 0 < slots.length) :
    Indexed free hash (slots.set ((hash id + d) % slots.length) id) (id :: ids) := by
  have inside := Nat.mod_lt (hash id + d) positive
  have empty : slotAt free slots (hash id) d = free := by
    rcases stops.here with ⟨-, empty⟩ | ⟨impossible, -⟩
    · exact empty
    · cases impossible
  -- A slot that was occupied holds what it held.
  have kept : ∀ h k, slotAt free slots h k ≠ free →
      slotAt free (slots.set ((hash id + d) % slots.length) id) h k = slotAt free slots h k := by
    intro h k occupied
    have apart : (hash id + d) % slots.length ≠ (h + k) % slots.length := by
      intro equal
      apply occupied
      rw [slotAt, ← equal]
      exact empty
    rw [slotAt, slotAt, List.length_set, List.getD_eq_getElem?_getD, List.getElem?_set_ne apart,
      List.getD_eq_getElem?_getD]
  have here : slotAt free (slots.set ((hash id + d) % slots.length) id) (hash id) d = id := by
    rw [slotAt, List.length_set, List.getD_eq_getElem?_getD, List.getElem?_set_self inside]
    rfl
  refine ⟨fun other_ member => ?_, (held_set inside empty other).trans (indexed.held.cons id)⟩
  rcases List.mem_cons.mp member with rfl | old
  · refine ⟨d, here, fun k below => ?_⟩
    have occupied := (stops.passed k below).1
    rw [kept _ _ occupied]
    exact occupied
  · obtain ⟨far, there, path⟩ := indexed.placed other_ old
    have occupied : slotAt free slots (hash other_) far ≠ free := by
      rw [there]
      exact fun vacant => fresh (vacant ▸ old)
    refine ⟨far, by rw [kept _ _ occupied, there], fun k below => ?_⟩
    rw [kept _ _ (path k below)]
    exact path k below

theorem Indexed.perm {ids' : List ℕ} (indexed : Indexed free hash slots ids) (same : ids.Perm ids') :
    Indexed free hash slots ids' :=
  ⟨fun id member => indexed.placed id (same.mem_iff.mpr member), indexed.held.trans same⟩

theorem Indexed.congr {hash' : ℕ → ℕ} (indexed : Indexed free hash slots ids) (same : ∀ id ∈ ids, hash id = hash' id) :
    Indexed free hash' slots ids := by
  refine ⟨fun id member => ?_, indexed.held⟩
  rw [← same id member]
  exact indexed.placed id member

theorem indexed_vacant (n : ℕ) : Indexed free hash (List.replicate n free) [] := by
  refine ⟨fun id member => absurd member List.not_mem_nil, ?_⟩
  have none_ : (List.replicate n free).filter (fun id => decide (id ≠ free)) = [] := by
    refine List.filter_eq_nil_iff.mpr fun id member => ?_
    simp [List.eq_of_mem_replicate member]
  rw [none_]

theorem enterAll_indexed {more : List ℕ} {k : ℕ} (size : slots.length = 2 ^ k) (indexed : Indexed free hash slots ids)
    (room : ids.length + more.length ≤ slots.length) (fresh : free ∉ ids) (fresh' : free ∉ more) :
    ∃ slots', enterAll free hash slots more = some slots' ∧ slots'.length = slots.length ∧
      Indexed free hash slots' (more.reverse ++ ids) := by
  induction more generalizing slots ids with
  | nil => exact ⟨slots, rfl, rfl, indexed⟩
  | cons id rest ih =>
    rw [List.length_cons] at room
    have positive : 0 < slots.length := by omega
    obtain ⟨d, p, stops, facts⟩ := walk_stops size (exists_vacant indexed.held (by omega)) (fun _ => false) (hash id)
    have other : id ≠ free := fun equal => fresh' (equal ▸ List.mem_cons_self)
    rcases facts.here with ⟨rfl, -⟩ | ⟨-, -, impossible⟩
    · obtain ⟨slots', ends, length, final⟩ := ih (by rw [List.length_set, size]) (indexed.enter facts other fresh positive)
        (by rw [List.length_set, List.length_cons]; omega)
        (fun member => (List.mem_cons.mp member).elim (fun equal => other equal.symm) fresh)
        (fun member => fresh' (List.mem_cons_of_mem _ member))
      refine ⟨slots', ?_, by rw [length, List.length_set], ?_⟩
      · rw [enterAll, stops]
        exact ends
      · rwa [List.reverse_cons, List.append_assoc, List.singleton_append]
    · cases impossible

end E5r.ProbeTable
