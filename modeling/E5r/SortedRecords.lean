import Mathlib.Data.List.Sort
import Mathlib.Data.List.Destutter

/-!
Lists kept sorted by a key that several records may share. A record enters in
front of the records with its key or a later one (`put`), and one list absorbs
the records of another whose keys it does not hold yet (`absorb`). A sorted list
is determined by what it holds under each key (`sorted_ext`), so every law of
`absorb` is a law of the lists held under one key (`withKey_absorb`).
-/
namespace E5r.SortedRecords

variable {α : Type*} {κ : Type*} [LinearOrder κ] (key : α → κ)

/-- Sorted by the key, where one key may occur several times. -/
def Sorted (l : List α) : Prop := l.Pairwise (fun a b => key a ≤ key b)

def StrictlySorted (l : List α) : Prop := l.Pairwise (fun a b => key a < key b)

/-- The index of the first element at which a predicate fails. -/
def partitionPoint (p : α → Bool) (l : List α) : ℕ := (l.takeWhile p).length

/-- Enter a record in front of the first one whose key is not smaller. -/
def put (a : α) (l : List α) : List α :=
  l.insertIdx (partitionPoint (fun r => decide (key r < key a)) l) a

/-- Enter the records of `m` whose keys are not yet held, one after another. -/
def absorb (l m : List α) : List α :=
  m.foldl (fun held r => if held.any (fun e => decide (key e = key r)) then held else put key r held) l

def sortByKey (l : List α) : List α := l.mergeSort (fun a b => decide (key a ≤ key b))

/-- Keep the first record of every run with one key. -/
def dedupByKey (l : List α) : List α := l.destutter (fun a b => key a ≠ key b)

def withKey (k : κ) (l : List α) : List α := l.filter (fun r => decide (key r = k))

/-- No record with this key is held. -/
def Fresh (k : κ) (l : List α) : Prop := ∀ r ∈ l, key r ≠ k

instance (k : κ) (l : List α) : Decidable (Fresh key k l) :=
  inferInstanceAs (Decidable (∀ r ∈ l, key r ≠ k))

variable {l : List α}

theorem StrictlySorted.sorted (strict : StrictlySorted key l) : Sorted key l :=
  strict.imp le_of_lt

theorem StrictlySorted.nodup (strict : StrictlySorted key l) : l.Nodup :=
  strict.imp (fun less same => absurd (congrArg key same) (ne_of_lt less))

theorem StrictlySorted.ext {m : List α} (strictL : StrictlySorted key l) (strictM : StrictlySorted key m)
    (same : ∀ x, x ∈ l ↔ x ∈ m) : l = m :=
  ((List.perm_ext_iff_of_nodup strictL.nodup strictM.nodup).mpr same).eq_of_pairwise
    (fun _ _ _ _ first second => absurd (first.trans second) (lt_irrefl _)) strictL strictM

variable {a : α}

theorem StrictlySorted.key_unique (strict : StrictlySorted key l) {b : α} (inA : a ∈ l) (inB : b ∈ l)
    (same : key a = key b) : a = b := by
  induction l with
  | nil => simp at inA
  | cons c rest ih =>
    obtain ⟨below, tail⟩ := List.pairwise_cons.mp strict
    rcases List.mem_cons.mp inA with rfl | laterA
    · rcases List.mem_cons.mp inB with rfl | laterB
      · rfl
      · exact absurd same (ne_of_lt (below b laterB))
    · rcases List.mem_cons.mp inB with rfl | laterB
      · exact absurd same.symm (ne_of_lt (below a laterA))
      · exact ih tail laterA laterB

@[simp] theorem withKey_nil (k : κ) : withKey key k ([] : List α) = [] := rfl

theorem withKey_cons (k : κ) (a : α) (l : List α) :
    withKey key k (a :: l) = if key a = k then a :: withKey key k l else withKey key k l := by
  by_cases same : key a = k
  · simp [withKey, same]
  · simp [withKey, same]

variable {k : κ}

theorem withKey_eq_nil : withKey key k l = [] ↔ Fresh key k l := by
  simp [withKey, Fresh]

theorem withKey_self_ne_nil (member : a ∈ l) : withKey key (key a) l ≠ [] := by
  intro none
  exact (withKey_eq_nil key).mp none a member rfl

variable {m : List α}

theorem sorted_ext (sortedL : Sorted key l) (sortedM : Sorted key m) (same : ∀ k, withKey key k l = withKey key k m) :
    l = m := by
  induction l generalizing m with
  | nil =>
    cases m with
    | nil => rfl
    | cons b rest => exact absurd (same (key b)).symm (withKey_self_ne_nil key List.mem_cons_self)
  | cons a l ih =>
    cases m with
    | nil => exact absurd (same (key a)) (withKey_self_ne_nil key List.mem_cons_self)
    | cons b m =>
      obtain ⟨belowL, tailL⟩ := List.pairwise_cons.mp sortedL
      obtain ⟨belowM, tailM⟩ := List.pairwise_cons.mp sortedM
      have lower : ∀ {c : α} {k : κ} {rest : List α}, (∀ x ∈ rest, key c ≤ key x) →
          withKey key k (c :: rest) ≠ [] → key c ≤ k := by
        intro c k rest below some
        by_contra beyond
        refine some ((withKey_eq_nil key).mpr ?_)
        intro r member equal
        rcases List.mem_cons.mp member with rfl | later
        · exact beyond (le_of_eq equal)
        · exact beyond (equal ▸ below r later)
      -- The smallest key of either list is held by both, so the heads share it.
      have headLe : key a ≤ key b :=
        lower belowL (by rw [same]; exact withKey_self_ne_nil key List.mem_cons_self)
      have headGe : key b ≤ key a :=
        lower belowM (by rw [← same]; exact withKey_self_ne_nil key List.mem_cons_self)
      have headSame : key a = key b := le_antisymm headLe headGe
      have heads := same (key a)
      rw [withKey_cons, withKey_cons, if_pos rfl, if_pos headSame.symm] at heads
      obtain ⟨rfl, -⟩ := List.cons.inj heads
      refine congrArg _ (ih tailL tailM (fun k => ?_))
      have here := same k
      rw [withKey_cons, withKey_cons] at here
      by_cases at_k : key a = k
      · simpa [at_k] using here
      · simpa [at_k] using here

theorem put_nil (a : α) : put key a [] = [a] := rfl

theorem put_cons (a b : α) (l : List α) :
    put key a (b :: l) = if key b < key a then b :: put key a l else a :: b :: l := by
  by_cases less : key b < key a
  · simp [put, partitionPoint, less]
  · simp [put, partitionPoint, less]

theorem mem_put {b : α} : b ∈ put key a l ↔ b = a ∨ b ∈ l := by
  induction l with
  | nil => simp [put_nil]
  | cons c rest ih =>
    rw [put_cons]
    by_cases less : key c < key a
    · simp only [less, if_true, List.mem_cons, ih]
      tauto
    · simp [less]

theorem put_sorted (sorted : Sorted key l) : Sorted key (put key a l) := by
  induction l with
  | nil => simp [put_nil, Sorted]
  | cons c rest ih =>
    obtain ⟨below, tail⟩ := List.pairwise_cons.mp sorted
    rw [put_cons]
    by_cases less : key c < key a
    · rw [if_pos less]
      refine List.pairwise_cons.mpr ⟨fun x member => ?_, ih tail⟩
      rcases (mem_put key).mp member with rfl | later
      · exact le_of_lt less
      · exact below x later
    · rw [if_neg less]
      have first : key a ≤ key c := le_of_not_gt less
      refine List.pairwise_cons.mpr ⟨fun x member => ?_, sorted⟩
      rcases List.mem_cons.mp member with rfl | later
      · exact first
      · exact first.trans (below x later)

theorem withKey_put (sorted : Sorted key l) :
    withKey key k (put key a l) = if key a = k then a :: withKey key k l else withKey key k l := by
  induction l with
  | nil => simp [put_nil, withKey_cons]
  | cons c rest ih =>
    obtain ⟨-, tail⟩ := List.pairwise_cons.mp sorted
    rw [put_cons]
    by_cases less : key c < key a
    · rw [if_pos less, withKey_cons, ih tail, withKey_cons]
      by_cases same : key a = k
      · simp [same, ne_of_lt (same ▸ less)]
      · simp [same]
    · rw [if_neg less, withKey_cons]

theorem put_strictlySorted (strict : StrictlySorted key l) :
    StrictlySorted key (put key a l) ↔ Fresh key (key a) l := by
  constructor
  · intro after r member same
    have held := withKey_put key (k := key a) (a := a) (strict.sorted key)
    rw [if_pos rfl] at held
    have inside : r ∈ withKey key (key a) l := by simp [withKey, member, same]
    have distinct : (withKey key (key a) (put key a l)).Pairwise (fun a b => key a < key b) :=
      List.Pairwise.filter _ after
    rw [held] at distinct
    exact absurd same (ne_of_gt ((List.pairwise_cons.mp distinct).1 r inside))
  · intro fresh
    induction l with
    | nil => simp [put_nil, StrictlySorted]
    | cons c rest ih =>
      obtain ⟨below, tail⟩ := List.pairwise_cons.mp strict
      rw [put_cons]
      by_cases less : key c < key a
      · rw [if_pos less]
        refine List.pairwise_cons.mpr ⟨fun x member => ?_, ih tail (fun r m => fresh r (List.mem_cons_of_mem _ m))⟩
        rcases (mem_put key).mp member with rfl | later
        · exact less
        · exact below x later
      · rw [if_neg less]
        have first : key a < key c :=
          lt_of_le_of_ne (le_of_not_gt less) (fun same => fresh c List.mem_cons_self same.symm)
        refine List.pairwise_cons.mpr ⟨fun x member => ?_, strict⟩
        rcases List.mem_cons.mp member with rfl | later
        · exact first
        · exact first.trans (below x later)

private theorem absorb_step (l : List α) (a : α) (m : List α) :
    absorb key l (a :: m) = absorb key (absorb key l [a]) m := rfl

private theorem absorb_one (l : List α) (a : α) :
    absorb key l [a] = if Fresh key (key a) l then put key a l else l := by
  by_cases fresh : Fresh key (key a) l
  · have none : l.any (fun e => decide (key e = key a)) = false := by
      simpa [Fresh] using fresh
    rw [if_pos fresh, absorb, List.foldl_cons, List.foldl_nil, none]
    rfl
  · have some : l.any (fun e => decide (key e = key a)) = true := by
      simpa [Fresh] using fresh
    rw [if_neg fresh, absorb, List.foldl_cons, List.foldl_nil, some]
    rfl

private theorem absorb_one_sorted (sorted : Sorted key l) (a : α) : Sorted key (absorb key l [a]) := by
  rw [absorb_one]
  split
  · exact put_sorted key sorted
  · exact sorted

theorem absorb_sorted (sorted : Sorted key l) (m : List α) : Sorted key (absorb key l m) := by
  induction m generalizing l with
  | nil => exact sorted
  | cons a rest ih =>
    rw [absorb_step]
    exact ih (absorb_one_sorted key sorted a)

theorem absorb_strictlySorted (strict : StrictlySorted key l) (m : List α) : StrictlySorted key (absorb key l m) := by
  induction m generalizing l with
  | nil => exact strict
  | cons a rest ih =>
    rw [absorb_step, absorb_one]
    split
    next fresh => exact ih ((put_strictlySorted key strict).mpr fresh)
    next => exact ih strict

/-- Under each key the absorbing list keeps what it holds, and takes the first
    record of the other list when it holds none. -/
theorem withKey_absorb (k : κ) (sorted : Sorted key l) (m : List α) :
    withKey key k (absorb key l m) =
      if withKey key k l = [] then (withKey key k m).take 1 else withKey key k l := by
  induction m generalizing l with
  | nil =>
    by_cases empty : withKey key k l = []
    · simp [absorb, empty]
    · simp [absorb, empty]
  | cons a rest ih =>
    rw [absorb_step, ih (absorb_one_sorted key sorted a), absorb_one, withKey_cons]
    by_cases fresh : Fresh key (key a) l
    · rw [if_pos fresh, withKey_put key sorted]
      by_cases same : key a = k
      · subst same
        simp [(withKey_eq_nil key).mpr fresh]
      · simp [same]
    · rw [if_neg fresh]
      by_cases same : key a = k
      · subst same
        have held : withKey key (key a) l ≠ [] := fun empty => fresh ((withKey_eq_nil key).mp empty)
        simp [held]
      · simp [same]

variable {r : α}

theorem mem_absorb (member : r ∈ absorb key l m) : r ∈ l ∨ r ∈ m := by
  induction m generalizing l with
  | nil => exact .inl member
  | cons a rest ih =>
    rw [absorb_step, absorb_one] at member
    rcases ih member with inside | later
    · split at inside
      · rcases (mem_put key).mp inside with rfl | old
        · exact .inr List.mem_cons_self
        · exact .inl old
      · exact .inl inside
    · exact .inr (List.mem_cons_of_mem _ later)

theorem subset_absorb (m : List α) (member : r ∈ l) : r ∈ absorb key l m := by
  induction m generalizing l with
  | nil => exact member
  | cons a rest ih =>
    rw [absorb_step]
    refine ih ?_
    rw [absorb_one]
    split
    · exact (mem_put key).mpr (.inr member)
    · exact member

theorem absorb_self (l : List α) : absorb key l l = l := by
  have held : ∀ m : List α, (∀ r ∈ m, r ∈ l) → absorb key l m = l := by
    intro m
    induction m with
    | nil => intro _; rfl
    | cons a rest ih =>
      intro inside
      have present : ¬ Fresh key (key a) l := fun fresh => fresh a (inside a List.mem_cons_self) rfl
      rw [absorb_step, absorb_one, if_neg present]
      exact ih (fun r member => inside r (List.mem_cons_of_mem _ member))
  exact held l (fun _ member => member)

theorem absorb_assoc (sortedL : Sorted key l) (sortedM : Sorted key m) (n : List α) :
    absorb key (absorb key l m) n = absorb key l (absorb key m n) := by
  refine sorted_ext key (absorb_sorted key (absorb_sorted key sortedL m) n)
    (absorb_sorted key sortedL _) (fun k => ?_)
  rw [withKey_absorb key k (absorb_sorted key sortedL m), withKey_absorb key k sortedL,
    withKey_absorb key k sortedL, withKey_absorb key k sortedM]
  by_cases inL : withKey key k l = []
  · by_cases inM : withKey key k m = []
    · simp [inL, inM, List.take_take]
    · simp [inL, inM, List.take_eq_nil_iff]
  · simp [inL]

/-- Two lists can be exchanged when under each key they hold the same records,
    or one of them holds none and the other exactly one. -/
def Compatible (l m : List α) : Prop :=
  ∀ k, withKey key k l = withKey key k m ∨
    (withKey key k l = [] ∧ (withKey key k m).length = 1) ∨
    (withKey key k m = [] ∧ (withKey key k l).length = 1)

theorem absorb_comm_iff (sortedL : Sorted key l) (sortedM : Sorted key m) :
    absorb key l m = absorb key m l ↔ Compatible key l m := by
  have both : absorb key l m = absorb key m l ↔
      ∀ k, withKey key k (absorb key l m) = withKey key k (absorb key m l) :=
    ⟨fun equal k => by rw [equal],
      sorted_ext key (absorb_sorted key sortedL m) (absorb_sorted key sortedM l)⟩
  rw [both]
  refine forall_congr' (fun k => ?_)
  rw [withKey_absorb key k sortedL, withKey_absorb key k sortedM]
  generalize withKey key k l = A
  generalize withKey key k m = B
  -- Only the sizes none, one and several matter on either side.
  match A, B with
  | [], [] => simp
  | [], [b] => simp
  | [], b :: c :: B => simp
  | [a], [] => simp
  | a :: c :: A, [] => simp
  | a :: A, b :: B => simp

theorem sortByKey_sorted (l : List α) : Sorted key (sortByKey key l) := by
  have sorted : (sortByKey key l).Pairwise (fun a b => decide (key a ≤ key b) = true) :=
    List.pairwise_mergeSort
      (fun a b c first second => by simpa using (of_decide_eq_true first).trans (of_decide_eq_true second))
      (fun a b => by simpa using le_total (key a) (key b)) l
  exact sorted.imp of_decide_eq_true

theorem mem_sortByKey : r ∈ sortByKey key l ↔ r ∈ l :=
  (List.mergeSort_perm l _).mem_iff

theorem sortByKey_strict (injective : Function.Injective key) (distinct : l.Nodup) :
    StrictlySorted key (sortByKey key l) :=
  ((sortByKey_sorted key l).and ((List.mergeSort_perm l _).nodup_iff.mpr distinct)).imp
    fun ⟨below, other⟩ => lt_of_le_of_ne below (injective.ne other)

private theorem strict_of_chain (distinct : l.IsChain (fun a b => key a ≠ key b)) (sorted : Sorted key l) :
    l.IsChain (fun a b => key a < key b) := by
  induction l with
  | nil => exact .nil
  | cons a rest ih =>
    cases rest with
    | nil => exact .singleton a
    | cons b rest =>
      obtain ⟨different, chain⟩ := List.isChain_cons_cons.mp distinct
      obtain ⟨below, tail⟩ := List.pairwise_cons.mp sorted
      exact List.isChain_cons_cons.mpr
        ⟨lt_of_le_of_ne (below b List.mem_cons_self) different, ih chain tail⟩

theorem strict_of_distinct (distinct : l.IsChain (fun a b => key a ≠ key b)) (sorted : Sorted key l) :
    StrictlySorted key l := by
  have trans : Trans (fun a b => key a < key b) (fun a b => key a < key b) (fun a b : α => key a < key b) :=
    ⟨fun first second => first.trans second⟩
  exact List.isChain_iff_pairwise.mp (strict_of_chain key distinct sorted)

theorem dedupByKey_strictlySorted (sorted : Sorted key l) : StrictlySorted key (dedupByKey key l) :=
  strict_of_distinct key (List.isChain_destutter _ l) (List.Pairwise.sublist (List.destutter_sublist _ l) sorted)

private theorem takeWhile_le_eq_nil (sorted : Sorted key l) (greater : k < key a) (first : l.head? = some a) :
    withKey key k l = [] := by
  refine (withKey_eq_nil key).mpr (fun r member same => ?_)
  obtain ⟨rest, rfl⟩ := List.head?_eq_some_iff.mp first
  rcases List.mem_cons.mp member with rfl | later
  · exact absurd same (ne_of_gt greater)
  · have := (List.pairwise_cons.mp sorted).1 r later
    exact absurd (lt_of_lt_of_le greater this) (by rw [same]; exact lt_irrefl k)

theorem slice_eq_withKey (sorted : Sorted key l) (k : κ) :
    (l.take (partitionPoint (fun r => decide (key r ≤ k)) l)).drop
      (partitionPoint (fun r => decide (key r < k)) l) = withKey key k l := by
  induction l with
  | nil => rfl
  | cons a rest ih =>
    have sortedRest : Sorted key rest := (List.pairwise_cons.mp sorted).2
    rcases lt_trichotomy (key a) k with less | same | greater
    · have notSame : key a ≠ k := ne_of_lt less
      simpa [partitionPoint, less, le_of_lt less, withKey_cons, notSame] using ih sortedRest
    · subst same
      -- nothing after it is smaller, so the slice starts here
      have none (l : List α) (above : ∀ r ∈ l, key a ≤ key r) : partitionPoint (fun r => decide (key r < key a)) l = 0 := by
        cases l with
        | nil => rfl
        | cons b rest =>
          have : ¬key b < key a := not_lt.mpr (above b List.mem_cons_self)
          simp [partitionPoint, this]
      have above := (List.pairwise_cons.mp sorted).1
      have tail := ih sortedRest
      rw [none rest above, List.drop_zero] at tail
      rw [none (a :: rest) (by simpa using above), List.drop_zero, withKey_cons, if_pos rfl, ← tail]
      simp [partitionPoint]
    · have notLe : ¬key a ≤ k := not_le.mpr greater
      rw [takeWhile_le_eq_nil key sorted greater rfl]
      simp [partitionPoint, notLe]

theorem withKey_sortByKey (k : κ) (l : List α) : withKey key k (sortByKey key l) = withKey key k l := by
  have kept : (withKey key k l).Sublist (sortByKey key l) := by
    refine List.sublist_mergeSort (fun a b c first second => ?_) (fun a b => ?_) ?_ List.filter_sublist
    · exact decide_eq_true ((of_decide_eq_true first).trans (of_decide_eq_true second))
    · simpa using le_total (key a) (key b)
    · refine List.pairwise_of_forall_mem_list fun a inA b inB => ?_
      have sameA : key a = k := by simpa using (List.mem_filter.mp inA).2
      have sameB : key b = k := by simpa using (List.mem_filter.mp inB).2
      exact decide_eq_true (by rw [sameA, sameB])
  have filtered := kept.filter (fun r => decide (key r = k))
  have same : (withKey key k l).filter (fun r => decide (key r = k)) = withKey key k l := by
    unfold withKey
    rw [List.filter_filter]
    simp
  rw [same] at filtered
  refine (filtered.eq_of_length ?_).symm
  exact ((List.mergeSort_perm l _).filter _).length_eq.symm

/-- The last of the records with the greatest key at or below `k`: no record before it
    has a greater one, and every record after it a smaller one. -/
def IsFloor (l : List α) (k : κ) (r : α) : Prop :=
  ∃ before after, l = before ++ r :: after ∧ key r ≤ k ∧ (∀ x ∈ before, key x ≤ k → key x ≤ key r) ∧
    ∀ x ∈ after, key x ≤ k → key x < key r

theorem IsFloor.key_le (floor : IsFloor key l k r) {x : α} (member : x ∈ l) (below : key x ≤ k) : key x ≤ key r := by
  obtain ⟨before, after, rfl, -, earlier, later⟩ := floor
  rcases List.mem_append.mp member with inside | inside
  · exact earlier x inside below
  · rcases List.mem_cons.mp inside with rfl | inside
    · exact le_refl _
    · exact le_of_lt (later x inside below)

theorem isFloor_iff :
    IsFloor key l k r ↔
      key r ≤ k ∧ (∀ x ∈ l, key x ≤ k → key x ≤ key r) ∧ (withKey key (key r) l).getLast? = some r := by
  constructor
  · intro floor
    refine ⟨?_, fun x member below => floor.key_le key member below, ?_⟩
    · obtain ⟨before, after, -, below, -⟩ := floor
      exact below
    · obtain ⟨before, after, rfl, below, -, later⟩ := floor
      have none : after.filter (fun x => decide (key x = key r)) = [] := by
        refine List.filter_eq_nil_iff.mpr fun x member same => ?_
        have same : key x = key r := by simpa using same
        exact absurd same (ne_of_lt (later x member (same ▸ below)))
      simp [withKey, none]
  · rintro ⟨below, greatest, last⟩
    obtain ⟨first, split⟩ := List.getLast?_eq_some_iff.mp last
    obtain ⟨l₁, l₂, rfl, -, second⟩ := List.filter_eq_append_iff.mp split
    obtain ⟨l₃, l₄, rfl, -, -, none⟩ := List.filter_eq_cons_iff.mp second
    refine ⟨l₁ ++ l₃, l₄, by simp, below, fun x member => greatest x ?_, fun x member beneath => ?_⟩
    · rcases List.mem_append.mp member with inside | inside
      · exact List.mem_append_left _ inside
      · exact List.mem_append_right _ (List.mem_append_left _ inside)
    · refine lt_of_le_of_ne (greatest x ?_ beneath) fun same => ?_
      · exact List.mem_append_right _ (List.mem_append_right _ (List.mem_cons_of_mem _ member))
      · exact absurd (decide_eq_true same) (List.filter_eq_nil_iff.mp none x member)

theorem takeWhile_le (sorted : Sorted key l) (k : κ) :
    l.takeWhile (fun r => decide (key r ≤ k)) = l.filter (fun r => decide (key r ≤ k)) := by
  induction l with
  | nil => rfl
  | cons a rest ih =>
    obtain ⟨above, tail⟩ := List.pairwise_cons.mp sorted
    by_cases below : key a ≤ k
    · simp [below, ih tail]
    · have none : rest.filter (fun r => decide (key r ≤ k)) = [] := by
        refine List.filter_eq_nil_iff.mpr fun x member beneath => ?_
        exact below ((above x member).trans (of_decide_eq_true beneath))
      simp [below, none]

theorem floor_sortByKey :
    ((sortByKey key l).takeWhile (fun r => decide (key r ≤ k))).getLast? = some r ↔ IsFloor key l k r := by
  have sorted := sortByKey_sorted key l
  rw [isFloor_iff, takeWhile_le key sorted]
  have under : ∀ j, j ≤ k →
      withKey key j ((sortByKey key l).filter (fun r => decide (key r ≤ k))) = withKey key j l := by
    intro j below
    rw [← withKey_sortByKey key j l]
    unfold withKey
    rw [List.filter_filter]
    refine List.filter_congr fun x _ => ?_
    by_cases same : key x = j
    · simp [same, below]
    · simp [same]
  have spec : ∀ {s}, ((sortByKey key l).filter (fun r => decide (key r ≤ k))).getLast? = some s →
      key s ≤ k ∧ (∀ x ∈ l, key x ≤ k → key x ≤ key s) ∧ (withKey key (key s) l).getLast? = some s := by
    intro s last
    obtain ⟨first, split⟩ := List.getLast?_eq_some_iff.mp last
    have inside : s ∈ (sortByKey key l).filter (fun r => decide (key r ≤ k)) := by simp [split]
    have below : key s ≤ k := by simpa using (List.mem_filter.mp inside).2
    refine ⟨below, fun x member beneath => ?_, ?_⟩
    · have held : x ∈ first ++ [s] := by
        rw [← split]
        exact List.mem_filter.mpr ⟨(mem_sortByKey key).mpr member, decide_eq_true beneath⟩
      have ordered : Sorted key (first ++ [s]) := split ▸ List.Pairwise.filter _ sorted
      rcases List.mem_append.mp held with earlier | last
      · exact (List.pairwise_append.mp ordered).2.2 x earlier s (List.mem_singleton_self s)
      · rw [List.mem_singleton.mp last]
    · rw [← under (key s) below, split]
      simp [withKey]
  constructor
  · exact spec
  · rintro ⟨below, greatest, last⟩
    have member : r ∈ l := (List.mem_filter.mp (List.mem_of_getLast? last)).1
    have some : (sortByKey key l).filter (fun r => decide (key r ≤ k)) ≠ [] := by
      refine List.ne_nil_of_mem (a := r) ?_
      exact List.mem_filter.mpr ⟨(mem_sortByKey key).mpr member, decide_eq_true below⟩
    obtain ⟨s, is⟩ := Option.isSome_iff_exists.mp (List.getLast?_isSome.mpr some)
    obtain ⟨belowS, greatestS, lastS⟩ := spec is
    have memberS : s ∈ l := (List.mem_filter.mp (List.mem_of_getLast? lastS)).1
    have same : key s = key r := le_antisymm (greatest s memberS belowS) (greatestS r member below)
    rw [same, last] at lastS
    rw [is, lastS]

end E5r.SortedRecords
