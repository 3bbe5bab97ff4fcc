import Mathlib.Data.List.NodupEquivFin
import E5r.CommonSubsequences
import E5r.StreamAlign

/-!
What an alignment is. It consumes both streams once and in order, pairs equal tokens
only, and pairs as many as can be where a region has no token that occurs once on each
side.
-/
namespace E5r.AlignCorrect
open SortedRecords IncreasingRuns CommonSubsequences StreamAlign

/-! ### Edit scripts -/

/-- The indices of the old side that steps consume. -/
def olds (steps : List Step) : List ℕ :=
  steps.filterMap fun s => match s with
    | .pair i _ => some i
    | .old i => some i
    | .new _ => none

def news (steps : List Step) : List ℕ :=
  steps.filterMap fun s => match s with
    | .pair _ j => some j
    | .old _ => none
    | .new j => some j

def pairCount (steps : List Step) : ℕ :=
  steps.countP fun s => match s with
    | .pair _ _ => true
    | _ => false

def oldCount (steps : List Step) : ℕ :=
  steps.countP fun s => match s with
    | .old _ => true
    | _ => false

def newCount (steps : List Step) : ℕ :=
  steps.countP fun s => match s with
    | .new _ => true
    | _ => false

section
variable {α : Type} (a b : List α)

/-- Steps that consume the indices of a region once each and in order, and pair equal
    tokens only. -/
structure Covers (r : Region) (steps : List Step) : Prop where
  oldSide : r.alo ≤ r.ahi
  newSide : r.blo ≤ r.bhi
  olds : olds steps = List.range' r.alo (r.ahi - r.alo)
  news : news steps = List.range' r.blo (r.bhi - r.blo)
  equal : ∀ i j, Step.pair i j ∈ steps → ∃ t, a[i]? = some t ∧ b[j]? = some t

structure Within (r : Region) : Prop where
  oldSide : r.alo ≤ r.ahi
  oldEnd : r.ahi ≤ a.length
  newSide : r.blo ≤ r.bhi
  newEnd : r.bhi ≤ b.length

end

variable {α : Type} {a b : List α}

variable {lo : ℕ}

theorem range'_join {mid hi : ℕ} (first : lo ≤ mid) (second : mid ≤ hi) :
    List.range' lo (mid - lo) ++ List.range' mid (hi - mid) = List.range' lo (hi - lo) := by
  have here : mid = lo + (mid - lo) := by omega
  conv_lhs => rw [here]
  rw [show lo + (mid - lo) - lo = mid - lo by omega, show hi - (lo + (mid - lo)) = hi - mid by omega,
    List.range'_append_1, show mid - lo + (hi - mid) = hi - lo by omega]

variable {ahi bhi : ℕ}

theorem Covers.append {alo blo x y : ℕ} {s t : List Step} (first : Covers a b ⟨alo, x, blo, y⟩ s)
    (second : Covers a b ⟨x, ahi, y, bhi⟩ t) : Covers a b ⟨alo, ahi, blo, bhi⟩ (s ++ t) := by
  have oldFirst : alo ≤ x := first.oldSide
  have oldSecond : x ≤ ahi := second.oldSide
  have newFirst : blo ≤ y := first.newSide
  have newSecond : y ≤ bhi := second.newSide
  refine ⟨oldFirst.trans oldSecond, newFirst.trans newSecond, ?_, ?_, fun i j member => ?_⟩
  · rw [AlignCorrect.olds, List.filterMap_append]
    show AlignCorrect.olds s ++ AlignCorrect.olds t = _
    rw [first.olds, second.olds, range'_join oldFirst oldSecond]
  · rw [AlignCorrect.news, List.filterMap_append]
    show AlignCorrect.news s ++ AlignCorrect.news t = _
    rw [first.news, second.news, range'_join newFirst newSecond]
  · exact (List.mem_append.mp member).elim (first.equal i j) (second.equal i j)

variable {i j : ℕ} {t : α}

theorem covers_pair (here : a[i]? = some t) (there : b[j]? = some t) : Covers a b ⟨i, i + 1, j, j + 1⟩ [.pair i j] := by
  have one : ∀ k, k + 1 - k = 1 := fun k => by omega
  refine ⟨Nat.le_succ i, Nat.le_succ j, ?_, ?_, fun i' j' member => ?_⟩
  · show [i] = List.range' i (i + 1 - i)
    rw [one]
    rfl
  · show [j] = List.range' j (j + 1 - j)
    rw [one]
    rfl
  · obtain ⟨rfl, rfl⟩ := Step.pair.inj (List.mem_singleton.mp member)
    exact ⟨t, here, there⟩

theorem covers_old (i j : ℕ) : Covers a b ⟨i, i + 1, j, j⟩ [.old i] := by
  refine ⟨Nat.le_succ i, le_rfl, ?_, ?_, fun i' j' member => by cases List.mem_singleton.mp member⟩
  · show [i] = List.range' i (i + 1 - i)
    rw [show i + 1 - i = 1 by omega]
    rfl
  · show [] = List.range' j (j - j)
    rw [Nat.sub_self]
    rfl

theorem covers_new (i j : ℕ) : Covers a b ⟨i, i, j, j + 1⟩ [.new j] := by
  refine ⟨le_rfl, Nat.le_succ j, ?_, ?_, fun i' j' member => by cases List.mem_singleton.mp member⟩
  · show [] = List.range' i (i - i)
    rw [Nat.sub_self]
    rfl
  · show [j] = List.range' j (j + 1 - j)
    rw [show j + 1 - j = 1 by omega]
    rfl

theorem olds_oldsAlone (lo hi : ℕ) : olds (oldsAlone lo hi) = List.range' lo (hi - lo) := by
  rw [olds, oldsAlone, List.filterMap_map]
  exact List.filterMap_some

theorem olds_newsAlone (lo hi : ℕ) : olds (newsAlone lo hi) = [] := by
  rw [olds, newsAlone, List.filterMap_map]
  exact List.filterMap_eq_nil_iff.mpr fun _ _ => rfl

theorem news_oldsAlone (lo hi : ℕ) : news (oldsAlone lo hi) = [] := by
  rw [news, oldsAlone, List.filterMap_map]
  exact List.filterMap_eq_nil_iff.mpr fun _ _ => rfl

theorem news_newsAlone (lo hi : ℕ) : news (newsAlone lo hi) = List.range' lo (hi - lo) := by
  rw [news, newsAlone, List.filterMap_map]
  exact List.filterMap_some

variable {r : Region}

/-- A region in which nothing corresponds. -/
theorem covers_alone (oldSide : r.alo ≤ r.ahi) (newSide : r.blo ≤ r.bhi) :
    Covers a b r (oldsAlone r.alo r.ahi ++ newsAlone r.blo r.bhi) := by
  refine ⟨oldSide, newSide, ?_, ?_, fun i j member => ?_⟩
  · rw [olds, List.filterMap_append]
    show olds _ ++ olds _ = _
    rw [olds_oldsAlone, olds_newsAlone, List.append_nil]
  · rw [news, List.filterMap_append]
    show news _ ++ news _ = _
    rw [news_oldsAlone, news_newsAlone, List.nil_append]
  · rcases List.mem_append.mp member with old | new
    · obtain ⟨_, -, impossible⟩ := List.mem_map.mp old
      cases impossible
    · obtain ⟨_, -, impossible⟩ := List.mem_map.mp new
      cases impossible

variable {n : ℕ}

/-- Tokens that correspond one after another. -/
theorem covers_pairs (equal : ∀ k < n, ∃ t, a[i + k]? = some t ∧ b[j + k]? = some t) :
    Covers a b ⟨i, i + n, j, j + n⟩ (pairs i j n) := by
  induction n with
  | zero =>
    refine ⟨le_rfl, le_rfl, ?_, ?_, fun _ _ member => by cases member⟩
    · show [] = List.range' i (i - i)
      rw [Nat.sub_self]
      rfl
    · show [] = List.range' j (j - j)
      rw [Nat.sub_self]
      rfl
  | succ n ih =>
    obtain ⟨t, here, there⟩ := equal n (Nat.lt_succ_self n)
    have whole : pairs i j (n + 1) = pairs i j n ++ [.pair (i + n) (j + n)] := by
      rw [pairs, List.range_succ, List.map_append]
      rfl
    rw [whole]
    exact (ih fun k below => equal k (Nat.lt_succ_of_lt below)).append (covers_pair here there)

/-! ### Common ends -/

variable [DecidableEq α]

theorem front_spec (a b : List α) (n m i j : ℕ) :
    front a b n m i j ≤ n ∧ front a b n m i j ≤ m ∧ ∀ k < front a b n m i j, a[i + k]? = b[j + k]? := by
  induction n generalizing m i j with
  | zero =>
    rw [front]
    · exact ⟨le_rfl, Nat.zero_le _, fun k below => absurd below (Nat.not_lt_zero k)⟩
    · exact fun n m impossible => by cases impossible
  | succ n ih =>
    cases m with
    | zero =>
      rw [front]
      · exact ⟨Nat.zero_le _, le_rfl, fun k below => absurd below (Nat.not_lt_zero k)⟩
      · exact fun n m _ impossible => by cases impossible
    | succ m =>
      rw [front]
      by_cases same : a[i]? = b[j]?
      · rw [if_pos same]
        obtain ⟨old, new, equal⟩ := ih m (i + 1) (j + 1)
        refine ⟨Nat.succ_le_succ old, Nat.succ_le_succ new, fun k below => ?_⟩
        cases k with
        | zero => exact same
        | succ k =>
          have later := equal k (Nat.lt_of_succ_lt_succ below)
          rwa [Nat.add_right_comm, Nat.add_right_comm j, Nat.add_assoc, Nat.add_assoc j] at later
      · rw [if_neg same]
        exact ⟨Nat.zero_le _, Nat.zero_le _, fun k below => absurd below (Nat.not_lt_zero k)⟩

variable {c : ℕ}

theorem le_front {m : ℕ} (old : c ≤ n) (new : c ≤ m) (equal : ∀ k < c, a[i + k]? = b[j + k]?) :
    c ≤ front a b n m i j := by
  induction n generalizing m i j c with
  | zero => omega
  | succ n ih =>
    cases c with
    | zero => exact Nat.zero_le _
    | succ c =>
      cases m with
      | zero => omega
      | succ m =>
        have first := equal 0 (Nat.succ_pos c)
        rw [Nat.add_zero, Nat.add_zero] at first
        rw [front, if_pos first]
        refine Nat.succ_le_succ (ih (Nat.le_of_succ_le_succ old) (Nat.le_of_succ_le_succ new) fun k below => ?_)
        rw [Nat.add_right_comm, Nat.add_right_comm j, Nat.add_assoc, Nat.add_assoc j]
        exact equal (k + 1) (Nat.succ_lt_succ below)

theorem back_spec (a b : List α) (n m i j : ℕ) :
    back a b n m i j ≤ n ∧ back a b n m i j ≤ m ∧
      ∀ k < back a b n m i j, a[i + n - back a b n m i j + k]? = b[j + m - back a b n m i j + k]? := by
  induction n generalizing m with
  | zero =>
    rw [back]
    · exact ⟨le_rfl, Nat.zero_le _, fun k below => absurd below (Nat.not_lt_zero k)⟩
    · exact fun n m impossible => by cases impossible
  | succ n ih =>
    cases m with
    | zero =>
      rw [back]
      · exact ⟨Nat.zero_le _, le_rfl, fun k below => absurd below (Nat.not_lt_zero k)⟩
      · exact fun n m _ impossible => by cases impossible
    | succ m =>
      rw [back]
      by_cases same : a[i + n]? = b[j + m]?
      · rw [if_pos same]
        obtain ⟨old, new, equal⟩ := ih m
        refine ⟨Nat.succ_le_succ old, Nat.succ_le_succ new, fun k below => ?_⟩
        have oldEnd : i + (n + 1) - (back a b n m i j + 1) = i + n - back a b n m i j := by omega
        have newEnd : j + (m + 1) - (back a b n m i j + 1) = j + m - back a b n m i j := by omega
        rw [oldEnd, newEnd]
        rcases Nat.lt_succ_iff_lt_or_eq.mp below with earlier | rfl
        · exact equal k earlier
        · rw [Nat.sub_add_cancel (by omega), Nat.sub_add_cancel (by omega)]
          exact same
      · rw [if_neg same]
        exact ⟨Nat.zero_le _, Nat.zero_le _, fun k below => absurd below (Nat.not_lt_zero k)⟩

theorem le_back {m : ℕ} (old : c ≤ n) (new : c ≤ m) (equal : ∀ k < c, a[i + n - 1 - k]? = b[j + m - 1 - k]?) :
    c ≤ back a b n m i j := by
  induction n generalizing m c with
  | zero => omega
  | succ n ih =>
    cases c with
    | zero => exact Nat.zero_le _
    | succ c =>
      cases m with
      | zero => omega
      | succ m =>
        have last := equal 0 (Nat.succ_pos c)
        rw [show i + (n + 1) - 1 - 0 = i + n by omega, show j + (m + 1) - 1 - 0 = j + m by omega] at last
        rw [back, if_pos last]
        refine Nat.succ_le_succ (ih (Nat.le_of_succ_le_succ old) (Nat.le_of_succ_le_succ new) fun k below => ?_)
        rw [show i + n - 1 - k = i + (n + 1) - 1 - (k + 1) by omega, show j + m - 1 - k = j + (m + 1) - 1 - (k + 1) by omega]
        exact equal (k + 1) (Nat.succ_lt_succ below)

theorem strip_spec (within : Within a b r) :
    Within a b (strip a b r) ∧ r.alo ≤ (strip a b r).alo ∧ (strip a b r).ahi ≤ r.ahi ∧
      Covers a b ⟨r.alo, (strip a b r).alo, r.blo, (strip a b r).blo⟩ (pairs r.alo r.blo ((strip a b r).alo - r.alo)) ∧
      Covers a b ⟨(strip a b r).ahi, r.ahi, (strip a b r).bhi, r.bhi⟩
        (pairs (strip a b r).ahi (strip a b r).bhi (r.ahi - (strip a b r).ahi)) := by
  obtain ⟨oldSide, oldEnd, newSide, newEnd⟩ := within
  obtain ⟨oldP, newP, equalP⟩ := front_spec a b (r.ahi - r.alo) (r.bhi - r.blo) r.alo r.blo
  rw [strip]
  simp only
  generalize front a b (r.ahi - r.alo) (r.bhi - r.blo) r.alo r.blo = p at *
  obtain ⟨oldQ, newQ, equalQ⟩ := back_spec a b (r.ahi - r.alo - p) (r.bhi - r.blo - p) (r.alo + p) (r.blo + p)
  generalize back a b (r.ahi - r.alo - p) (r.bhi - r.blo - p) (r.alo + p) (r.blo + p) = q at *
  have token : ∀ i j : ℕ, i < a.length → a[i]? = b[j]? → ∃ t, a[i]? = some t ∧ b[j]? = some t := by
    intro i j inside same
    exact ⟨a[i], List.getElem?_eq_getElem inside, by rw [← same, List.getElem?_eq_getElem inside]⟩
  refine ⟨⟨?_, ?_, ?_, ?_⟩, ?_, ?_, ?_, ?_⟩
  · show r.alo + p ≤ r.ahi - q
    omega
  · show r.ahi - q ≤ a.length
    omega
  · show r.blo + p ≤ r.bhi - q
    omega
  · show r.bhi - q ≤ b.length
    omega
  · omega
  · omega
  · rw [Nat.add_sub_cancel_left]
    exact covers_pairs fun k below => token _ _ (by omega) (equalP k below)
  · rw [show r.ahi - (r.ahi - q) = q by omega]
    have whole : Covers a b ⟨r.ahi - q, r.ahi - q + q, r.bhi - q, r.bhi - q + q⟩ (pairs (r.ahi - q) (r.bhi - q) q) := by
      refine covers_pairs fun k below => token _ _ (by omega) ?_
      have same := equalQ k below
      rwa [show r.alo + p + (r.ahi - r.alo - p) - q = r.ahi - q by omega,
        show r.blo + p + (r.bhi - r.blo - p) - q = r.bhi - q by omega] at same
    rwa [show r.ahi - q + q = r.ahi by omega, show r.bhi - q + q = r.bhi by omega] at whole

/-! ### The table of common subsequences -/

section
variable {xs ys : List α}

/-- The cells of the rows behind a place hold their lengths, and so does the last column. -/
def Filled (xs ys : List α) (i j : ℕ) (len : List ℕ) : Prop :=
  len.length = (xs.length + 1) * (ys.length + 1) ∧
    ∀ i' j', i' ≤ xs.length → j' ≤ ys.length → (i < i' ∨ (i' = i ∧ j ≤ j') ∨ j' = ys.length) →
      len.getD (i' * (ys.length + 1) + j') 0 = lcsLength (xs.drop i') (ys.drop j')

variable {i j : ℕ}

theorem lcsLength_drop (old : i < xs.length) (new : j < ys.length) :
    lcsLength (xs.drop i) (ys.drop j) =
      if xs[i]? = ys[j]? then lcsLength (xs.drop (i + 1)) (ys.drop (j + 1)) + 1
      else max (lcsLength (xs.drop (i + 1)) (ys.drop j)) (lcsLength (xs.drop i) (ys.drop (j + 1))) := by
  rw [List.drop_eq_getElem_cons old, List.drop_eq_getElem_cons new, List.getElem?_eq_getElem old,
    List.getElem?_eq_getElem new]
  by_cases same : xs[i] = ys[j]
  · rw [if_pos (congrArg some same), same, lcsLength_same]
  · rw [if_neg fun equal => same (Option.some.inj equal), lcsLength_other same]

theorem filled_cell (old : i < xs.length) (new : j < ys.length) {len : List ℕ} (filled : Filled xs ys i (j + 1) len) :
    Filled xs ys i j (len.set (i * (ys.length + 1) + j)
      (if xs[i]? = ys[j]? then len.getD ((i + 1) * (ys.length + 1) + j + 1) 0 + 1
      else max (len.getD ((i + 1) * (ys.length + 1) + j) 0) (len.getD (i * (ys.length + 1) + j + 1) 0))) := by
  obtain ⟨length, cells⟩ := filled
  have diagonal := cells (i + 1) (j + 1) old new (.inl (Nat.lt_succ_self i))
  have below := cells (i + 1) j old new.le (.inl (Nat.lt_succ_self i))
  have right := cells i (j + 1) old.le new (.inr (.inl ⟨rfl, le_rfl⟩))
  rw [← Nat.add_assoc] at diagonal right
  rw [diagonal, below, right, ← lcsLength_drop old new]
  refine ⟨by rw [List.length_set, length], fun i' j' inside inside' done => ?_⟩
  by_cases here : i' = i ∧ j' = j
  · obtain ⟨rfl, rfl⟩ := here
    have place : i' * (ys.length + 1) + j' < len.length := by
      rw [length]
      calc i' * (ys.length + 1) + j' < i' * (ys.length + 1) + (ys.length + 1) := by omega
        _ = (i' + 1) * (ys.length + 1) := (Nat.succ_mul i' _).symm
        _ ≤ (xs.length + 1) * (ys.length + 1) := Nat.mul_le_mul_right _ (by omega)
    rw [List.getD_eq_getElem?_getD, List.getElem?_set_self place]
    rfl
  · have apart : i * (ys.length + 1) + j ≠ i' * (ys.length + 1) + j' := by
      intro same
      obtain ⟨rfl, rfl⟩ := cell_inj (by omega) (by omega) same
      exact here ⟨rfl, rfl⟩
    rw [List.getD_eq_getElem?_getD, List.getElem?_set_ne apart, ← List.getD_eq_getElem?_getD]
    refine cells i' j' inside inside' ?_
    rcases done with later | ⟨rfl, from_⟩ | last
    · exact .inl later
    · rcases Nat.lt_or_ge j j' with after | before
      · exact .inr (.inl ⟨rfl, after⟩)
      · exact absurd ⟨rfl, by omega⟩ here
    · exact .inr (.inr last)

/-- The rows from a place on hold their lengths, and so does the last column. -/
def RowsFilled (xs ys : List α) (i : ℕ) (len : List ℕ) : Prop :=
  len.length = (xs.length + 1) * (ys.length + 1) ∧
    ∀ i' j', i' ≤ xs.length → j' ≤ ys.length → (i ≤ i' ∨ j' = ys.length) →
      len.getD (i' * (ys.length + 1) + j') 0 = lcsLength (xs.drop i') (ys.drop j')

theorem rowsFilled_start (xs ys : List α) :
    RowsFilled xs ys xs.length (List.replicate ((xs.length + 1) * (ys.length + 1)) 0) := by
  refine ⟨List.length_replicate, fun i' j' inside inside' done => ?_⟩
  have zero : ∀ n m : ℕ, (List.replicate n 0).getD m 0 = 0 := by
    intro n m
    rw [List.getD_eq_getElem?_getD, List.getElem?_replicate]
    split <;> rfl
  rw [zero]
  rcases done with last | column
  · rw [List.drop_eq_nil_of_le last, nil_lcsLength]
  · rw [column, List.drop_eq_nil_of_le (le_refl ys.length), lcsLength_nil]

theorem fillTable_spec (xs ys : List α) (old : i ≤ xs.length) (new : j ≤ ys.length) :
    (fillTable xs ys).getD (i * (ys.length + 1) + j) 0 = lcsLength (xs.drop i) (ys.drop j) := by
  have whole : RowsFilled xs ys 0 (fillTable xs ys) := by
    rw [fillTable]
    refine foldl_range_reverse (rowsFilled_start xs ys) fun k below len rows => ?_
    have row : Filled xs ys k ys.length len := by
      refine ⟨rows.1, fun i' j' inside inside' done => rows.2 i' j' inside inside' ?_⟩
      omega
    obtain ⟨length, cells⟩ := foldl_range_reverse row fun j below' len' filled => filled_cell below below' filled
    refine ⟨length, fun i' j' inside inside' done => cells i' j' inside inside' ?_⟩
    omega
  exact whole.2 i j old new (.inl (Nat.zero_le i))

theorem length_window (lo : ℕ) {hi : ℕ} (inside : hi ≤ a.length) : (window a lo hi).length = hi - lo := by
  rw [window, List.length_take, List.length_drop]
  omega

theorem getElem?_window {lo hi k : ℕ} (inside : k < hi - lo) : (window a lo hi)[k]? = a[lo + k]? := by
  rw [window, List.getElem?_take_of_lt inside, List.getElem?_drop]

theorem pairCount_alone (lo hi lo' hi' : ℕ) : pairCount (oldsAlone lo hi ++ newsAlone lo' hi') = 0 := by
  rw [pairCount, List.countP_append, oldsAlone, newsAlone, List.countP_map, List.countP_map]
  exact Nat.add_eq_zero_iff.mpr ⟨List.countP_eq_zero.mpr fun _ _ => Bool.false_ne_true,
    List.countP_eq_zero.mpr fun _ _ => Bool.false_ne_true⟩

theorem walk_spec {r : Region} (within : Within a b r) {len : List ℕ}
    (table : ∀ i j, i ≤ r.ahi - r.alo → j ≤ r.bhi - r.blo → len.getD (i * (r.bhi - r.blo + 1) + j) 0 =
      lcsLength ((window a r.alo r.ahi).drop i) ((window b r.blo r.bhi).drop j)) (old : i ≤ r.ahi - r.alo) (new : j ≤ r.bhi - r.blo) :
    Covers a b ⟨r.alo + i, r.ahi, r.blo + j, r.bhi⟩ (walk a b r.alo r.ahi r.blo r.bhi len i j) ∧
      pairCount (walk a b r.alo r.ahi r.blo r.bhi len i j) =
        lcsLength ((window a r.alo r.ahi).drop i) ((window b r.blo r.bhi).drop j) := by
  obtain ⟨oldSide, oldEnd, newSide, newEnd⟩ := within
  have lengthA := length_window r.alo oldEnd
  have lengthB := length_window r.blo newEnd
  induction i, j using walk.induct a b r.alo r.ahi r.blo r.bhi len with
  | case1 i j inside same ih =>
    obtain ⟨covers, count⟩ := ih inside.1 inside.2
    have here := List.getElem?_eq_getElem (show r.alo + i < a.length by omega)
    rw [walk, if_pos inside, if_pos same, lcsLength_drop (by omega) (by omega), getElem?_window inside.1,
      getElem?_window inside.2, if_pos same]
    refine ⟨(covers_pair here (by rw [← same, here])).append covers, ?_⟩
    rw [← count]
    exact List.countP_cons_of_pos rfl
  | case2 i j inside different more ih =>
    obtain ⟨covers, count⟩ := ih inside.1 new
    have down := table (i + 1) j inside.1 new
    have right := table i (j + 1) old inside.2
    rw [← Nat.add_assoc] at right
    rw [down, right] at more
    rw [walk, if_pos inside, if_neg different, if_pos (by rw [down, right]; exact more), lcsLength_drop (by omega) (by omega),
      getElem?_window inside.1, getElem?_window inside.2, if_neg different, Nat.max_eq_left more]
    refine ⟨(covers_old _ _).append covers, ?_⟩
    rw [← count]
    exact List.countP_cons_of_neg Bool.false_ne_true
  | case3 i j inside different less ih =>
    obtain ⟨covers, count⟩ := ih old inside.2
    have down := table (i + 1) j inside.1 new
    have right := table i (j + 1) old inside.2
    rw [← Nat.add_assoc] at right
    rw [down, right] at less
    rw [walk, if_pos inside, if_neg different, if_neg (by rw [down, right]; exact less), lcsLength_drop (by omega) (by omega),
      getElem?_window inside.1, getElem?_window inside.2, if_neg different, Nat.max_eq_right (by omega)]
    refine ⟨(covers_new _ _).append covers, ?_⟩
    rw [← count]
    exact List.countP_cons_of_neg Bool.false_ne_true
  | case4 i j outside =>
    rw [walk, if_neg outside]
    have region : Covers a b ⟨r.alo + i, r.ahi, r.blo + j, r.bhi⟩
        (oldsAlone (r.alo + i) r.ahi ++ newsAlone (r.blo + j) r.bhi) :=
      covers_alone (show r.alo + i ≤ r.ahi by omega) (show r.blo + j ≤ r.bhi by omega)
    refine ⟨region, ?_⟩
    rw [pairCount_alone]
    rcases Nat.lt_or_ge i (r.ahi - r.alo) with more | last
    · rw [List.drop_eq_nil_of_le (show (window b r.blo r.bhi).length ≤ j by omega), lcsLength_nil]
    · rw [List.drop_eq_nil_of_le (show (window a r.alo r.ahi).length ≤ i by omega), nil_lcsLength]

/-- The tokens of the pairs of a script are a longest common subsequence of its region. -/
def Longest (a b : List α) (r : Region) (steps : List Step) : Prop :=
  ∀ l : List α, l.Sublist (window a r.alo r.ahi) → l.Sublist (window b r.blo r.bhi) → l.length ≤ pairCount steps

theorem fallback_covers {r : Region} (within : Within a b r) :
    Covers a b r (fallback a b r.alo r.ahi r.blo r.bhi).1 ∧
      ((fallback a b r.alo r.ahi r.blo r.bhi).2 = false → Longest a b r (fallback a b r.alo r.ahi r.blo r.bhi).1) := by
  rw [fallback]
  split
  · exact ⟨covers_alone within.oldSide within.newSide, fun impossible => by cases impossible⟩
  · have lengthB := length_window r.blo within.newEnd
    have lengthA := length_window r.alo within.oldEnd
    have table : ∀ i j, i ≤ r.ahi - r.alo → j ≤ r.bhi - r.blo →
        (fillTable (window a r.alo r.ahi) (window b r.blo r.bhi)).getD (i * (r.bhi - r.blo + 1) + j) 0 =
          lcsLength ((window a r.alo r.ahi).drop i) ((window b r.blo r.bhi).drop j) := by
      intro i j old new
      rw [← lengthB]
      exact fillTable_spec _ _ (by omega) (by omega)
    obtain ⟨covers, count⟩ := walk_spec within table (Nat.zero_le _) (Nat.zero_le _)
    refine ⟨covers, fun _ l inA inB => ?_⟩
    rw [count]
    exact le_lcsLength inA inB

end

/-! ### Counting -/

/-- What the counts say when these tokens of either side have been counted. -/
structure Counted (olds news : List (α × ℕ)) (counts : List (Seen α)) : Prop where
  distinct : (counts.map Seen.token).Nodup
  tokens : ∀ t, t ∈ counts.map Seen.token ↔ t ∈ olds.map Prod.fst
  old : ∀ e ∈ counts, e.olds = (olds.map Prod.fst).count e.token % 2 ^ 32 ∧ (e.token, e.old) ∈ olds
  new : ∀ e ∈ counts, e.news = (news.map Prod.fst).count e.token % 2 ^ 32 ∧
    (0 < (news.map Prod.fst).count e.token → (e.token, e.new) ∈ news)

variable {p : α × ℕ}

theorem countOld_fresh {counts : List (Seen α)} (fresh : ∀ e ∈ counts, e.token ≠ p.1) :
    countOld counts p = counts ++ [⟨p.1, 1, 0, p.2, 0⟩] := by
  induction counts with
  | nil => rfl
  | cons e rest ih =>
    rw [countOld, if_neg (fresh e List.mem_cons_self), ih fun e member => fresh e (List.mem_cons_of_mem _ member)]
    rfl

theorem countOld_seen {front rest : List (Seen α)} {e : Seen α} (fresh : ∀ e ∈ front, e.token ≠ p.1)
    (same : e.token = p.1) :
    countOld (front ++ e :: rest) p = front ++ { e with olds := (e.olds + 1) % 2 ^ 32, old := p.2 } :: rest := by
  induction front with
  | nil => rw [List.nil_append, countOld, if_pos same]; rfl
  | cons first front ih =>
    rw [List.cons_append, countOld, if_neg (fresh first List.mem_cons_self),
      ih fun e member => fresh e (List.mem_cons_of_mem _ member)]
    rfl

theorem countNew_fresh {counts : List (Seen α)} (fresh : ∀ e ∈ counts, e.token ≠ p.1) : countNew counts p = counts := by
  induction counts with
  | nil => rfl
  | cons e rest ih =>
    rw [countNew, if_neg (fresh e List.mem_cons_self), ih fun e member => fresh e (List.mem_cons_of_mem _ member)]

theorem countNew_seen {front rest : List (Seen α)} {e : Seen α} (fresh : ∀ e ∈ front, e.token ≠ p.1)
    (same : e.token = p.1) :
    countNew (front ++ e :: rest) p = front ++ { e with news := (e.news + 1) % 2 ^ 32, new := p.2 } :: rest := by
  induction front with
  | nil => rw [List.nil_append, countNew, if_pos same]; rfl
  | cons first front ih =>
    rw [List.cons_append, countNew, if_neg (fresh first List.mem_cons_self),
      ih fun e member => fresh e (List.mem_cons_of_mem _ member)]
    rfl

theorem split_counts {counts : List (Seen α)} (distinct : (counts.map Seen.token).Nodup) (t : α) :
    (∀ e ∈ counts, e.token ≠ t) ∨ ∃ front e rest, counts = front ++ e :: rest ∧ e.token = t ∧
      (∀ e ∈ front, e.token ≠ t) ∧ ∀ e ∈ rest, e.token ≠ t := by
  by_cases seen : ∃ e ∈ counts, e.token = t
  · obtain ⟨e, member, same⟩ := seen
    obtain ⟨front, rest, rfl⟩ := List.append_of_mem member
    rw [List.map_append, List.map_cons] at distinct
    obtain ⟨-, tail, apart⟩ := List.nodup_append.mp distinct
    refine .inr ⟨front, e, rest, rfl, same, fun e' before equal => ?_, fun e' behind equal => ?_⟩
    · exact apart _ (List.mem_map_of_mem before) _ List.mem_cons_self (equal.trans same.symm)
    · exact (List.nodup_cons.mp tail).1 (by rw [same, ← equal]; exact List.mem_map_of_mem behind)
  · exact .inl fun e member same => seen ⟨e, member, same⟩

theorem Counted.countOld {olds : List (α × ℕ)} {counts : List (Seen α)} (counted : Counted olds [] counts) (p : α × ℕ) :
    Counted (olds ++ [p]) [] (countOld counts p) := by
  have sum : ∀ t, ((olds ++ [p]).map Prod.fst).count t = (olds.map Prod.fst).count t + if p.1 = t then 1 else 0 := by
    intro t
    rw [List.map_append, List.count_append]
    simp [List.count_singleton]
  -- An entry for another token is as it was.
  have other : ∀ e ∈ counts, e.token ≠ p.1 → (e.olds = ((olds ++ [p]).map Prod.fst).count e.token % 2 ^ 32 ∧
      (e.token, e.old) ∈ olds ++ [p]) := by
    intro e member different
    obtain ⟨count, last⟩ := counted.old e member
    rw [sum, if_neg (Ne.symm different)]
    exact ⟨count, List.mem_append_left _ last⟩
  rcases split_counts counted.distinct p.1 with fresh | ⟨front, e, rest, rfl, same, before, behind⟩
  · rw [countOld_fresh fresh]
    have none_ : (olds.map Prod.fst).count p.1 = 0 := by
      refine List.count_eq_zero.mpr fun member => ?_
      obtain ⟨e, inside, equal⟩ := List.mem_map.mp ((counted.tokens p.1).mpr member)
      exact fresh e inside equal
    refine ⟨?_, fun t => ?_, fun e member => ?_, fun e member => ?_⟩
    · rw [List.map_append]
      refine List.nodup_append.mpr ⟨counted.distinct, List.nodup_singleton _, fun t member t' last equal => ?_⟩
      obtain ⟨e, inside, rfl⟩ := List.mem_map.mp member
      exact fresh e inside (equal.trans (List.mem_singleton.mp last))
    · rw [List.map_append, List.mem_append, counted.tokens t, List.map_append, List.mem_append]
      rfl
    · rcases List.mem_append.mp member with old | new
      · exact other e old (fresh e old)
      · rw [List.mem_singleton.mp new]
        refine ⟨?_, List.mem_append_right _ (List.mem_singleton_self p)⟩
        rw [sum, none_, if_pos rfl]
        rfl
    · rcases List.mem_append.mp member with old | new
      · exact counted.new e old
      · rw [List.mem_singleton.mp new]
        exact ⟨rfl, fun impossible => absurd impossible (Nat.lt_irrefl 0)⟩
  · rw [countOld_seen before same]
    have inside : e ∈ front ++ e :: rest := List.mem_append_right _ List.mem_cons_self
    have tokens : (front ++ { e with olds := (e.olds + 1) % 2 ^ 32, old := p.2 } :: rest).map Seen.token =
        (front ++ e :: rest).map Seen.token := by simp
    refine ⟨?_, fun t => ?_, fun e' member => ?_, fun e' member => ?_⟩
    · rw [tokens]
      exact counted.distinct
    · rw [tokens, counted.tokens t, List.map_append, List.mem_append]
      refine ⟨.inl, fun either => either.elim id fun last => ?_⟩
      rw [List.mem_singleton.mp last]
      exact (counted.tokens p.1).mp (same ▸ List.mem_map_of_mem inside)
    · rcases List.mem_append.mp member with early | late
      · exact other e' (List.mem_append_left _ early) (before e' early)
      · rcases List.mem_cons.mp late with rfl | late
        · refine ⟨?_, List.mem_append_right _ (List.mem_singleton.mpr (Prod.ext same rfl))⟩
          show (e.olds + 1) % 2 ^ 32 = ((olds ++ [p]).map Prod.fst).count e.token % 2 ^ 32
          rw [sum, if_pos same.symm, (counted.old e inside).1, Nat.mod_add_mod]
        · exact other e' (List.mem_append_right _ (List.mem_cons_of_mem _ late)) (behind e' late)
    · rcases List.mem_append.mp member with early | late
      · exact counted.new e' (List.mem_append_left _ early)
      · rcases List.mem_cons.mp late with rfl | late
        · exact counted.new e inside
        · exact counted.new e' (List.mem_append_right _ (List.mem_cons_of_mem _ late))

theorem Counted.countNew {olds news : List (α × ℕ)} {counts : List (Seen α)} (counted : Counted olds news counts)
    (p : α × ℕ) : Counted olds (news ++ [p]) (countNew counts p) := by
  have sum : ∀ t, ((news ++ [p]).map Prod.fst).count t = (news.map Prod.fst).count t + if p.1 = t then 1 else 0 := by
    intro t
    rw [List.map_append, List.count_append]
    simp [List.count_singleton]
  have other : ∀ e ∈ counts, e.token ≠ p.1 → (e.news = ((news ++ [p]).map Prod.fst).count e.token % 2 ^ 32 ∧
      (0 < ((news ++ [p]).map Prod.fst).count e.token → (e.token, e.new) ∈ news ++ [p])) := by
    intro e member different
    obtain ⟨count, last⟩ := counted.new e member
    rw [sum, if_neg (Ne.symm different)]
    exact ⟨count, fun some_ => List.mem_append_left _ (last some_)⟩
  rcases split_counts counted.distinct p.1 with fresh | ⟨front, e, rest, rfl, same, before, behind⟩
  · rw [countNew_fresh fresh]
    exact ⟨counted.distinct, counted.tokens, counted.old, fun e member => other e member (fresh e member)⟩
  · rw [countNew_seen before same]
    have inside : e ∈ front ++ e :: rest := List.mem_append_right _ List.mem_cons_self
    have tokens : (front ++ { e with news := (e.news + 1) % 2 ^ 32, new := p.2 } :: rest).map Seen.token =
        (front ++ e :: rest).map Seen.token := by simp
    refine ⟨?_, fun t => ?_, fun e' member => ?_, fun e' member => ?_⟩
    · rw [tokens]
      exact counted.distinct
    · rw [tokens, counted.tokens t]
    · rcases List.mem_append.mp member with early | late
      · exact counted.old e' (List.mem_append_left _ early)
      · rcases List.mem_cons.mp late with rfl | late
        · exact counted.old e inside
        · exact counted.old e' (List.mem_append_right _ (List.mem_cons_of_mem _ late))
    · rcases List.mem_append.mp member with early | late
      · exact other e' (List.mem_append_left _ early) (before e' early)
      · rcases List.mem_cons.mp late with rfl | late
        · refine ⟨?_, fun _ => List.mem_append_right _ (List.mem_singleton.mpr (Prod.ext same rfl))⟩
          show (e.news + 1) % 2 ^ 32 = ((news ++ [p]).map Prod.fst).count e.token % 2 ^ 32
          rw [sum, if_pos same.symm, (counted.new e inside).1, Nat.mod_add_mod]
        · exact other e' (List.mem_append_right _ (List.mem_cons_of_mem _ late)) (behind e' late)

theorem count_counted (a b : List α) (alo ahi blo bhi : ℕ) :
    Counted ((window a alo ahi).zipIdx alo) ((window b blo bhi).zipIdx blo) (StreamAlign.count a b alo ahi blo bhi) := by
  have old : ∀ (l front : List (α × ℕ)) (counts : List (Seen α)), Counted front [] counts →
      Counted (front ++ l) [] (l.foldl StreamAlign.countOld counts) := by
    intro l
    induction l with
    | nil => exact fun front counts counted => by rwa [List.append_nil]
    | cons p l ih =>
      intro front counts counted
      have next := ih (front ++ [p]) _ (counted.countOld p)
      rwa [List.append_assoc] at next
  have new : ∀ (olds l front : List (α × ℕ)) (counts : List (Seen α)), Counted olds front counts →
      Counted olds (front ++ l) (l.foldl StreamAlign.countNew counts) := by
    intro olds l
    induction l with
    | nil => exact fun front counts counted => by rwa [List.append_nil]
    | cons p l ih =>
      intro front counts counted
      have next := ih (front ++ [p]) _ (counted.countNew p)
      rwa [List.append_assoc] at next
  have start : Counted ([] : List (α × ℕ)) [] [] :=
    ⟨.nil, fun _ => Iff.rfl, fun _ member => (by cases member), fun _ member => (by cases member)⟩
  exact new _ _ _ _ (old _ _ _ start)

/-! ### Unique tokens -/

/-- Two places of a region hold the same token, which neither side of the region has at
    another place. -/
structure Unique (a b : List α) (r : Region) (t : α) (p : ℕ × ℕ) : Prop where
  old : (window a r.alo r.ahi).count t = 1
  new : (window b r.blo r.bhi).count t = 1
  oldPlace : (t, p.1) ∈ (window a r.alo r.ahi).zipIdx r.alo
  newPlace : (t, p.2) ∈ (window b r.blo r.bhi).zipIdx r.blo

/-- Order-preserving pairs of places. -/
def Ascending (l : List (ℕ × ℕ)) : Prop := l.Pairwise fun p q => p.1 < q.1 ∧ p.2 < q.2

theorem mem_zipIdx_window {hi : ℕ} (member : (t, i) ∈ (window a lo hi).zipIdx lo) :
    lo ≤ i ∧ i < hi ∧ a[i]? = some t := by
  obtain ⟨low, here⟩ := List.mk_mem_zipIdx_iff_le_and_getElem?_sub.mp member
  have inside := (List.getElem?_eq_some_iff.mp here).1
  rw [window, List.length_take] at inside
  rw [getElem?_window (by omega), Nat.add_sub_cancel' low] at here
  exact ⟨low, by omega, here⟩

/-- The places of tokens that the counters take to occur once, by the old side. -/
def candidates (a b : List α) (r : Region) : List (ℕ × ℕ) :=
  sortByKey (fun p : ℕ × ℕ => toLex p)
    (((count a b r.alo r.ahi r.blo r.bhi).filter fun e => decide (e.olds = 1 ∧ e.news = 1)).map fun e => (e.old, e.new))

theorem mem_candidates {p : ℕ × ℕ} :
    p ∈ candidates a b r ↔ ∃ e ∈ count a b r.alo r.ahi r.blo r.bhi, (e.olds = 1 ∧ e.news = 1) ∧ (e.old, e.new) = p := by
  rw [candidates, mem_sortByKey, List.mem_map]
  refine exists_congr fun e => ?_
  rw [List.mem_filter, decide_eq_true_eq, and_assoc]

theorem candidates_place {p : ℕ × ℕ} (member : p ∈ candidates a b r) :
    ∃ t, (t, p.1) ∈ (window a r.alo r.ahi).zipIdx r.alo ∧ (t, p.2) ∈ (window b r.blo r.bhi).zipIdx r.blo := by
  obtain ⟨e, inside, ⟨-, once⟩, rfl⟩ := mem_candidates.mp member
  have counted := count_counted a b r.alo r.ahi r.blo r.bhi
  obtain ⟨number, last⟩ := counted.new e inside
  refine ⟨e.token, (counted.old e inside).2, last (Nat.pos_of_ne_zero fun none_ => ?_)⟩
  rw [none_, once] at number
  cases number

theorem candidates_ordered (a b : List α) (r : Region) : (candidates a b r).Pairwise fun p q => p.1 < q.1 := by
  have counted := count_counted a b r.alo r.ahi r.blo r.bhi
  have apart : (((count a b r.alo r.ahi r.blo r.bhi).filter fun e => decide (e.olds = 1 ∧ e.news = 1)).map
      fun e => (e.old, e.new)).Pairwise fun p q => p.1 ≠ q.1 := by
    have tokens : (count a b r.alo r.ahi r.blo r.bhi).Pairwise fun e e' => e.token ≠ e'.token :=
      List.pairwise_map.mp counted.distinct
    refine List.pairwise_map.mpr (List.Pairwise.filter _ (List.Pairwise.imp_of_mem ?_ tokens))
    intro e e' member member' different same
    have here := (mem_zipIdx_window (counted.old e member).2).2.2
    have there := (mem_zipIdx_window (counted.old e' member').2).2.2
    rw [show e.old = e'.old from same] at here
    exact different (Option.some.inj (here.symm.trans there))
  have distinct : (candidates a b r).Pairwise fun p q => p.1 ≠ q.1 :=
    (List.Perm.pairwise_iff (fun different => Ne.symm different) (List.mergeSort_perm _ _)).mpr apart
  have sorted : Sorted (fun p : ℕ × ℕ => toLex p) (candidates a b r) := sortByKey_sorted _ _
  refine (sorted.and distinct).imp fun {p q} both => ?_
  rcases Prod.Lex.toLex_le_toLex.mp both.1 with less | ⟨same, -⟩
  · exact less
  · exact absurd same both.2

theorem uniqueCommon_ascending (a b : List α) (r : Region) : Ascending (uniqueCommon a b r.alo r.ahi r.blo r.bhi) := by
  obtain ⟨sub, increasing, -⟩ := longestIncreasing_spec Prod.snd (candidates a b r)
  exact (List.Pairwise.sublist sub (candidates_ordered a b r)).and increasing

theorem place_eq {l : List α} (once : l.count t = 1) (first : (t, i) ∈ l.zipIdx lo) (second : (t, j) ∈ l.zipIdx lo) :
    i = j := by
  obtain ⟨low, here⟩ := List.mk_mem_zipIdx_iff_le_and_getElem?_sub.mp first
  obtain ⟨low', there⟩ := List.mk_mem_zipIdx_iff_le_and_getElem?_sub.mp second
  obtain ⟨inside, same⟩ := List.getElem?_eq_some_iff.mp here
  obtain ⟨inside', same'⟩ := List.getElem?_eq_some_iff.mp there
  have single : ∀ m n (first : m < l.length) (second : n < l.length), m < n → l[m] = t → l[n] ≠ t := by
    intro m n first second less atM atN
    have twice : 2 ≤ l.count t := List.duplicate_iff_two_le_count.mp
      (List.duplicate_iff_exists_distinct_get.mpr ⟨⟨m, first⟩, ⟨n, second⟩, less, atM.symm, atN.symm⟩)
    omega
  rcases Nat.lt_trichotomy (i - lo) (j - lo) with less | equal | more
  · exact absurd same' (single _ _ inside inside' less same)
  · omega
  · exact absurd same (single _ _ inside' inside more same')

theorem candidates_unique (within : Within a b r) (shortA : a.length ≤ 2 ^ 32) (shortB : b.length ≤ 2 ^ 32)
    {p : ℕ × ℕ} : p ∈ candidates a b r ↔ ∃ t, Unique a b r t p := by
  have counted := count_counted a b r.alo r.ahi r.blo r.bhi
  have old := List.zipIdx_map_fst r.alo (window a r.alo r.ahi)
  have new := List.zipIdx_map_fst r.blo (window b r.blo r.bhi)
  have lengthA := length_window r.alo within.oldEnd
  have lengthB := length_window r.blo within.newEnd
  have oldEnd := within.oldEnd
  have newEnd := within.newEnd
  -- A count of at most 2^32 that is 1 to 32 bits is 1.
  have exact_ : ∀ (l : List α) (t : α), l.length ≤ 2 ^ 32 → (l.count t % 2 ^ 32 = 1 ↔ l.count t = 1) := by
    intro l t short
    have few : l.count t ≤ l.length := List.count_le_length
    omega
  rw [mem_candidates]
  constructor
  · rintro ⟨e, inside, ⟨onceOld, onceNew⟩, rfl⟩
    obtain ⟨numberOld, lastOld⟩ := counted.old e inside
    obtain ⟨numberNew, lastNew⟩ := counted.new e inside
    rw [onceOld, old, eq_comm, exact_ _ _ (by omega)] at numberOld
    rw [new] at numberNew lastNew
    rw [onceNew, eq_comm, exact_ _ _ (by omega)] at numberNew
    exact ⟨e.token, numberOld, numberNew, lastOld, lastNew (by omega)⟩
  · rintro ⟨t, unique⟩
    have seen : t ∈ (count a b r.alo r.ahi r.blo r.bhi).map Seen.token := by
      rw [counted.tokens, old]
      exact List.count_pos_iff.mp (by rw [unique.old]; exact Nat.one_pos)
    obtain ⟨e, inside, rfl⟩ := List.mem_map.mp seen
    obtain ⟨numberOld, lastOld⟩ := counted.old e inside
    obtain ⟨numberNew, lastNew⟩ := counted.new e inside
    rw [old, unique.old] at numberOld
    rw [new, unique.new] at numberNew lastNew
    exact ⟨e, inside, ⟨numberOld, numberNew⟩,
      Prod.ext (place_eq unique.old lastOld unique.oldPlace) (place_eq unique.new (lastNew Nat.one_pos) unique.newPlace)⟩

def LongestUnique (a b : List α) (r : Region) (l : List (ℕ × ℕ)) : Prop :=
  (∀ p ∈ l, ∃ t, Unique a b r t p) ∧ Ascending l ∧
    ∀ l' : List (ℕ × ℕ), (∀ p ∈ l', ∃ t, Unique a b r t p) → Ascending l' → l'.length ≤ l.length

theorem uniqueCommon_longest (within : Within a b r) (shortA : a.length ≤ 2 ^ 32) (shortB : b.length ≤ 2 ^ 32) :
    LongestUnique a b r (uniqueCommon a b r.alo r.ahi r.blo r.bhi) := by
  obtain ⟨sub, -, longest⟩ := longestIncreasing_spec Prod.snd (candidates a b r)
  refine ⟨fun p member => (candidates_unique within shortA shortB).mp (sub.subset member), uniqueCommon_ascending a b r,
    fun l' unique ascending => longest l' ?_ (ascending.imp And.right)⟩
  have firsts : l'.Pairwise fun p q => p.1 < q.1 := ascending.imp And.left
  have distinct : l'.Nodup := by
    refine List.Pairwise.imp (fun {p q} less same => ?_) firsts
    rw [same] at less
    exact Nat.lt_irrefl _ less
  have antisymm : Std.Antisymm fun p q : ℕ × ℕ => p.1 < q.1 :=
    ⟨fun p q less more => absurd more (Nat.lt_asymm less)⟩
  exact List.sublist_of_subperm_of_pairwise
    (List.subperm_of_subset distinct fun p member => (candidates_unique within shortA shortB).mpr (unique p member))
    firsts (candidates_ordered a b r)

/-- No token occurs exactly once on each side of a region. -/
def NoUnique (a b : List α) (r : Region) : Prop :=
  ∀ t, ¬((window a r.alo r.ahi).count t = 1 ∧ (window b r.blo r.bhi).count t = 1)

theorem uniqueCommon_nil (within : Within a b r) (shortA : a.length ≤ 2 ^ 32) (shortB : b.length ≤ 2 ^ 32)
    (none_ : NoUnique a b r) : uniqueCommon a b r.alo r.ahi r.blo r.bhi = [] := by
  refine List.eq_nil_iff_forall_not_mem.mpr fun p member => ?_
  obtain ⟨t, unique⟩ := (uniqueCommon_longest within shortA shortB).1 p member
  exact none_ t ⟨unique.old, unique.new⟩

/-! ### The recursion -/

def gaps (ahi bhi : ℕ) : ℕ → ℕ → List (ℕ × ℕ) → List Region
  | pa, pb, [] => [⟨pa, ahi, pb, bhi⟩]
  | pa, pb, (i, j) :: rest => ⟨pa, i, pb, j⟩ :: gaps ahi bhi (i + 1) (j + 1) rest

/-- Anchors of a region: ascending places of equal tokens. -/
def Anchors (a b : List α) (ahi bhi pa pb : ℕ) (anchors : List (ℕ × ℕ)) : Prop :=
  Ascending anchors ∧ ∀ p ∈ anchors, pa ≤ p.1 ∧ p.1 < ahi ∧ pb ≤ p.2 ∧ p.2 < bhi ∧ ∃ t, a[p.1]? = some t ∧ b[p.2]? = some t

theorem Anchors.rest {pa pb : ℕ} {rest : List (ℕ × ℕ)} (anchors : Anchors a b ahi bhi pa pb ((i, j) :: rest)) :
    Anchors a b ahi bhi (i + 1) (j + 1) rest := by
  obtain ⟨ascending, places⟩ := anchors
  obtain ⟨above, tail⟩ := List.pairwise_cons.mp ascending
  refine ⟨tail, fun p member => ?_⟩
  obtain ⟨-, old, -, new, equal⟩ := places p (List.mem_cons_of_mem _ member)
  exact ⟨(above p member).1, old, (above p member).2, new, equal⟩

theorem between_covers {align : ℕ → ℕ → ℕ → ℕ → List Step × Bool} (oldEnd : ahi ≤ a.length) (newEnd : bhi ≤ b.length)
    (each : ∀ g : Region, Within a b g → Covers a b g (align g.alo g.ahi g.blo g.bhi).1) {pa pb : ℕ}
    (oldSide : pa ≤ ahi) (newSide : pb ≤ bhi) {anchors : List (ℕ × ℕ)} (places : Anchors a b ahi bhi pa pb anchors) :
    Covers a b ⟨pa, ahi, pb, bhi⟩ (between align ahi bhi pa pb anchors).1 := by
  induction anchors generalizing pa pb with
  | nil => exact each ⟨pa, ahi, pb, bhi⟩ ⟨oldSide, oldEnd, newSide, newEnd⟩
  | cons p rest ih =>
    obtain ⟨i, j⟩ := p
    obtain ⟨low, high, low', high', t, here, there⟩ := places.2 (i, j) List.mem_cons_self
    have gap := each ⟨pa, i, pb, j⟩ ⟨low, high.le.trans oldEnd, low', high'.le.trans newEnd⟩
    have later := ih (Nat.succ_le_of_lt high) (Nat.succ_le_of_lt high') places.rest
    exact gap.append ((covers_pair here there).append later)

theorem uniqueCommon_anchors (a b : List α) (r : Region) :
    Anchors a b r.ahi r.bhi r.alo r.blo (uniqueCommon a b r.alo r.ahi r.blo r.bhi) := by
  refine ⟨uniqueCommon_ascending a b r, fun p member => ?_⟩
  obtain ⟨sub, -⟩ := longestIncreasing_spec Prod.snd (candidates a b r)
  obtain ⟨t, old, new⟩ := candidates_place (sub.subset member)
  obtain ⟨low, high, here⟩ := mem_zipIdx_window old
  obtain ⟨low', high', there⟩ := mem_zipIdx_window new
  exact ⟨low, high, low', high', t, here, there⟩

/-- What a call does between the common ends. -/
def middle (a b : List α) (levels : ℕ) (s : Region) : List Step × Bool :=
  if s.alo = s.ahi ∨ s.blo = s.bhi then (oldsAlone s.alo s.ahi ++ newsAlone s.blo s.bhi, false)
  else
    match levels with
    | 0 => fallback a b s.alo s.ahi s.blo s.bhi
    | levels + 1 =>
      match uniqueCommon a b s.alo s.ahi s.blo s.bhi with
      | [] => fallback a b s.alo s.ahi s.blo s.bhi
      | anchors =>
        between (fun alo ahi blo bhi => patience a b levels ⟨alo, ahi, blo, bhi⟩) s.ahi s.bhi s.alo s.blo anchors

theorem patience_eq (a b : List α) (levels : ℕ) (r : Region) :
    patience a b levels r =
      (pairs r.alo r.blo ((strip a b r).alo - r.alo) ++ (middle a b levels (strip a b r)).1 ++
        pairs (strip a b r).ahi (strip a b r).bhi (r.ahi - (strip a b r).ahi), (middle a b levels (strip a b r)).2) := by
  cases levels <;> rfl

theorem patience_covers (levels : ℕ) (within : Within a b r) : Covers a b r (patience a b levels r).1 := by
  induction levels generalizing r with
  | zero =>
    obtain ⟨inner, -, -, before, behind⟩ := strip_spec within
    rw [patience_eq]
    refine Covers.append (before.append ?_) behind
    rw [middle]
    split
    · exact covers_alone inner.oldSide inner.newSide
    · exact (fallback_covers inner).1
  | succ levels ih =>
    obtain ⟨inner, -, -, before, behind⟩ := strip_spec within
    rw [patience_eq]
    refine Covers.append (before.append ?_) behind
    rw [middle]
    split
    · exact covers_alone inner.oldSide inner.newSide
    · have anchors := uniqueCommon_anchors a b (strip a b r)
      split
      · exact (fallback_covers inner).1
      · exact between_covers inner.oldEnd inner.newEnd (fun g within => ih within) inner.oldSide inner.newSide anchors

/-- The regions that aligning two streams comes to, with the levels left for each. -/
inductive Visited (a b : List α) : ℕ → Region → Prop where
  | whole : Visited a b maxDepth ⟨0, a.length, 0, b.length⟩
  | gap {levels : ℕ} {r g : Region} : Visited a b (levels + 1) r →
      (strip a b r).alo ≠ (strip a b r).ahi → (strip a b r).blo ≠ (strip a b r).bhi →
      uniqueCommon a b (strip a b r).alo (strip a b r).ahi (strip a b r).blo (strip a b r).bhi ≠ [] →
      g ∈ gaps (strip a b r).ahi (strip a b r).bhi (strip a b r).alo (strip a b r).blo
        (uniqueCommon a b (strip a b r).alo (strip a b r).ahi (strip a b r).blo (strip a b r).bhi) →
      Visited a b levels g

theorem gaps_between {align : ℕ → ℕ → ℕ → ℕ → List Step × Bool} {ahi bhi : ℕ} (oldEnd : ahi ≤ a.length)
    (newEnd : bhi ≤ b.length) {pa pb : ℕ} (oldSide : pa ≤ ahi) (newSide : pb ≤ bhi) {anchors : List (ℕ × ℕ)}
    (places : Anchors a b ahi bhi pa pb anchors) {g : Region} (member : g ∈ gaps ahi bhi pa pb anchors) :
    Within a b g ∧ (align g.alo g.ahi g.blo g.bhi).1 <:+: (between align ahi bhi pa pb anchors).1 ∧
      ((between align ahi bhi pa pb anchors).2 = false → (align g.alo g.ahi g.blo g.bhi).2 = false) := by
  induction anchors generalizing pa pb with
  | nil =>
    obtain rfl := List.mem_singleton.mp member
    exact ⟨⟨oldSide, oldEnd, newSide, newEnd⟩, List.infix_refl _, id⟩
  | cons p rest ih =>
    obtain ⟨i, j⟩ := p
    obtain ⟨low, high, low', high', -⟩ := places.2 (i, j) List.mem_cons_self
    rcases List.mem_cons.mp member with rfl | later
    · refine ⟨⟨low, high.le.trans oldEnd, low', high'.le.trans newEnd⟩, (List.prefix_append _ _).isInfix, fun flag => ?_⟩
      exact (Bool.or_eq_false_iff.mp flag).1
    · obtain ⟨within, inside, flagged⟩ := ih (Nat.succ_le_of_lt high) (Nat.succ_le_of_lt high') places.rest later
      refine ⟨within, inside.trans (List.IsSuffix.isInfix ?_), fun flag => flagged (Bool.or_eq_false_iff.mp flag).2⟩
      exact (List.suffix_cons _ _).trans (List.suffix_append _ _)

theorem Visited.inside {levels : ℕ} (visited : Visited a b levels r) :
    Within a b r ∧ (patience a b levels r).1 <:+: (align a b).1 ∧
      ((align a b).2 = false → (patience a b levels r).2 = false) := by
  induction visited with
  | whole => exact ⟨⟨Nat.zero_le _, le_rfl, Nat.zero_le _, le_rfl⟩, List.infix_refl _, id⟩
  | @gap levels r g _ oldSome newSome anchored member ih =>
    obtain ⟨within, inside, flagged⟩ := ih
    obtain ⟨inner, -⟩ := strip_spec within
    obtain ⟨withinG, insideG, flaggedG⟩ := @gaps_between _ a b _
      (fun alo ahi blo bhi => patience a b levels ⟨alo, ahi, blo, bhi⟩) _ _ inner.oldEnd inner.newEnd _ _ inner.oldSide
      inner.newSide _ (uniqueCommon_anchors a b (strip a b r)) _ member
    have parts : middle a b (levels + 1) (strip a b r) =
        between (fun alo ahi blo bhi => patience a b levels ⟨alo, ahi, blo, bhi⟩) (strip a b r).ahi (strip a b r).bhi
          (strip a b r).alo (strip a b r).blo
          (uniqueCommon a b (strip a b r).alo (strip a b r).ahi (strip a b r).blo (strip a b r).bhi) := by
      rw [middle, if_neg fun empty => empty.elim oldSome newSome]
      split
      · next none_ => exact absurd none_ anchored
      · rfl
    rw [patience_eq, parts] at inside flagged
    refine ⟨withinG, (insideG.trans ?_).trans inside, fun flag => flaggedG (flagged flag)⟩
    exact ⟨_, _, rfl⟩

theorem middle_longest {levels : ℕ} {s : Region} (within : Within a b s) (shortA : a.length ≤ 2 ^ 32)
    (shortB : b.length ≤ 2 ^ 32) (none_ : NoUnique a b s) (flag : (middle a b levels s).2 = false) :
    Covers a b s (middle a b levels s).1 ∧ Longest a b s (middle a b levels s).1 := by
  rw [middle.eq_def] at flag ⊢
  by_cases empty : s.alo = s.ahi ∨ s.blo = s.bhi
  · rw [if_pos empty]
    refine ⟨covers_alone within.oldSide within.newSide, fun l inA inB => ?_⟩
    have lengthA := length_window s.alo within.oldEnd
    have lengthB := length_window s.blo within.newEnd
    have shorterA := inA.length_le
    have shorterB := inB.length_le
    omega
  · rw [if_neg empty] at flag ⊢
    have fall := fallback_covers within
    cases levels with
    | zero => exact ⟨fall.1, fall.2 flag⟩
    | succ levels =>
      simp only [uniqueCommon_nil within shortA shortB none_] at flag ⊢
      exact ⟨fall.1, fall.2 flag⟩

/-! ### One run inserted or deleted -/

theorem strip_meets {d : ℕ} (frontEqual : ∀ k < c, a[k]? = b[k]?)
    (backEqual : ∀ k < d, a[a.length - 1 - k]? = b[b.length - 1 - k]?) (cA : c ≤ a.length) (cB : c ≤ b.length)
    (enough : min a.length b.length ≤ c + d) :
    ∃ p ≤ min a.length b.length, strip a b ⟨0, a.length, 0, b.length⟩ =
      ⟨p, a.length - (min a.length b.length - p), p, b.length - (min a.length b.length - p)⟩ := by
  have low : c ≤ front a b (a.length - 0) (b.length - 0) 0 0 := by
    refine le_front (by omega) (by omega) fun k below => ?_
    rw [Nat.zero_add]
    exact frontEqual k below
  obtain ⟨highA, highB, -⟩ := front_spec a b (a.length - 0) (b.length - 0) 0 0
  rw [strip]
  simp only
  generalize front a b (a.length - 0) (b.length - 0) 0 0 = p at *
  obtain ⟨backA, backB, -⟩ := back_spec a b (a.length - 0 - p) (b.length - 0 - p) (0 + p) (0 + p)
  have more : min a.length b.length - p ≤ back a b (a.length - 0 - p) (b.length - 0 - p) (0 + p) (0 + p) := by
    refine le_back (by omega) (by omega) fun k below => ?_
    rw [show 0 + p + (a.length - 0 - p) - 1 - k = a.length - 1 - k by omega,
      show 0 + p + (b.length - 0 - p) - 1 - k = b.length - 1 - k by omega]
    exact backEqual k (by omega)
  have all : back a b (a.length - 0 - p) (b.length - 0 - p) (0 + p) (0 + p) = min a.length b.length - p := by omega
  rw [all, Nat.zero_add]
  exact ⟨p, by omega, rfl⟩

theorem counts_of_covers {steps : List Step} (covers : Covers a b r steps) :
    pairCount steps + oldCount steps = r.ahi - r.alo ∧ pairCount steps + newCount steps = r.bhi - r.blo := by
  have sizes : ∀ steps, (olds steps).length = pairCount steps + oldCount steps ∧
      (news steps).length = pairCount steps + newCount steps := by
    intro steps
    induction steps with
    | nil => exact ⟨rfl, rfl⟩
    | cons s steps ih =>
      simp only [olds, news, pairCount, oldCount, newCount, List.filterMap_cons, List.countP_cons] at ih ⊢
      cases s <;> simp <;> omega
  obtain ⟨old, new⟩ := sizes steps
  rw [covers.olds, List.length_range'] at old
  rw [covers.news, List.length_range'] at new
  exact ⟨old.symm, new.symm⟩

theorem oldCount_pairs (i j n : ℕ) : oldCount (pairs i j n) = 0 := by
  rw [oldCount, pairs, List.countP_map]
  exact List.countP_eq_zero.mpr fun _ _ => Bool.false_ne_true

theorem newCount_pairs (i j n : ℕ) : newCount (pairs i j n) = 0 := by
  rw [newCount, pairs, List.countP_map]
  exact List.countP_eq_zero.mpr fun _ _ => Bool.false_ne_true

theorem oldCount_alone (lo hi lo' : ℕ) : oldCount (oldsAlone lo lo ++ newsAlone lo' hi) = 0 := by
  rw [oldCount, List.countP_append, oldsAlone, newsAlone, List.countP_map, List.countP_map, Nat.sub_self]
  exact Nat.add_eq_zero_iff.mpr ⟨rfl, List.countP_eq_zero.mpr fun _ _ => Bool.false_ne_true⟩

theorem newCount_alone (lo hi lo' : ℕ) : newCount (oldsAlone lo hi ++ newsAlone lo' lo') = 0 := by
  rw [newCount, List.countP_append, oldsAlone, newsAlone, List.countP_map, List.countP_map, Nat.sub_self]
  exact Nat.add_eq_zero_iff.mpr ⟨List.countP_eq_zero.mpr fun _ _ => Bool.false_ne_true, rfl⟩

theorem align_covers (a b : List α) : Covers a b ⟨0, a.length, 0, b.length⟩ (align a b).1 :=
  patience_covers maxDepth ⟨Nat.zero_le _, le_rfl, Nat.zero_le _, le_rfl⟩

/-- A script is of pairs and so many steps of the new side alone, or of the old one. -/
def AllButNew (n : ℕ) (steps : List Step) : Prop := oldCount steps = 0 ∧ newCount steps = n
def AllButOld (n : ℕ) (steps : List Step) : Prop := newCount steps = 0 ∧ oldCount steps = n

theorem ends_agree (front more behind : List α) :
    (∀ k < front.length, (front ++ behind)[k]? = (front ++ more ++ behind)[k]?) ∧
      ∀ k < behind.length, (front ++ behind)[(front ++ behind).length - 1 - k]? =
        (front ++ more ++ behind)[(front ++ more ++ behind).length - 1 - k]? := by
  constructor
  · intro k below
    rw [List.append_assoc, List.getElem?_append_left below, List.getElem?_append_left below]
  · intro k below
    rw [List.length_append, List.length_append, List.getElem?_append_right (by omega),
      List.getElem?_append_right (by omega), List.length_append]
    congr 1
    omega

theorem align_insertion (front more behind : List α) :
    AllButNew more.length (align (front ++ behind) (front ++ more ++ behind)).1 := by
  obtain ⟨before, after⟩ := ends_agree front more behind
  have lengthA : (front ++ behind).length = front.length + behind.length := List.length_append
  have lengthB : (front ++ more ++ behind).length = front.length + more.length + behind.length := by
    rw [List.length_append, List.length_append]
  have covers := align_covers (front ++ behind) (front ++ more ++ behind)
  obtain ⟨p, low, stripped⟩ := strip_meets before after (by omega) (by omega) (by omega)
  have none_ : oldCount (align (front ++ behind) (front ++ more ++ behind)).1 = 0 := by
    rw [align, patience_eq, middle.eq_def, stripped]
    simp only
    rw [if_pos (.inl (by omega)), show (front ++ behind).length -
      (min (front ++ behind).length (front ++ more ++ behind).length - p) = p by omega]
    have parts := oldCount_alone p ((front ++ more ++ behind).length -
      (min (front ++ behind).length (front ++ more ++ behind).length - p)) p
    rw [oldCount] at parts ⊢
    rw [List.countP_append, List.countP_append, parts]
    exact Nat.add_eq_zero_iff.mpr ⟨oldCount_pairs _ _ _, oldCount_pairs _ _ _⟩
  obtain ⟨old, new⟩ := counts_of_covers covers
  refine ⟨none_, ?_⟩
  simp only at old new
  omega

theorem align_deletion (front more behind : List α) :
    AllButOld more.length (align (front ++ more ++ behind) (front ++ behind)).1 := by
  obtain ⟨before, after⟩ := ends_agree front more behind
  have lengthB : (front ++ behind).length = front.length + behind.length := List.length_append
  have lengthA : (front ++ more ++ behind).length = front.length + more.length + behind.length := by
    rw [List.length_append, List.length_append]
  have covers := align_covers (front ++ more ++ behind) (front ++ behind)
  obtain ⟨p, low, stripped⟩ := strip_meets (fun k below => (before k below).symm) (fun k below => (after k below).symm)
    (by omega) (by omega) (by omega)
  have none_ : newCount (align (front ++ more ++ behind) (front ++ behind)).1 = 0 := by
    rw [align, patience_eq, middle.eq_def, stripped]
    simp only
    rw [if_pos (.inr (by omega)), show (front ++ behind).length -
      (min (front ++ more ++ behind).length (front ++ behind).length - p) = p by omega]
    have parts := newCount_alone p ((front ++ more ++ behind).length -
      (min (front ++ more ++ behind).length (front ++ behind).length - p)) p
    rw [newCount] at parts ⊢
    rw [List.countP_append, List.countP_append, parts]
    exact Nat.add_eq_zero_iff.mpr ⟨newCount_pairs _ _ _, newCount_pairs _ _ _⟩
  obtain ⟨old, new⟩ := counts_of_covers covers
  refine ⟨none_, ?_⟩
  simp only at old new
  omega

/-- An alignment is an edit script. Where no counter can wrap, regions without unique
    tokens are aligned along longest common subsequences unless one was too large, and
    unique tokens are paired along a longest ascending set. A run that was inserted, or
    deleted, is all that is not paired. -/
theorem align_correct (a b : List α) :
    Covers a b ⟨0, a.length, 0, b.length⟩ (align a b).1 ∧
    (a.length ≤ 2 ^ 32 → b.length ≤ 2 ^ 32 →
      ((align a b).2 = false → ∀ levels r, Visited a b levels r → NoUnique a b (strip a b r) →
        ∃ part, part <:+: (align a b).1 ∧ Covers a b (strip a b r) part ∧ Longest a b (strip a b r) part) ∧
      ∀ r, Within a b r → LongestUnique a b r (uniqueCommon a b r.alo r.ahi r.blo r.bhi)) ∧
    (∀ front more behind, a = front ++ behind → b = front ++ more ++ behind → AllButNew more.length (align a b).1) ∧
    ∀ front more behind, a = front ++ more ++ behind → b = front ++ behind → AllButOld more.length (align a b).1 := by
  refine ⟨align_covers a b, fun shortA shortB => ⟨fun flag levels r visited none_ => ?_, fun r within => ?_⟩, ?_, ?_⟩
  · obtain ⟨within, inside, flagged⟩ := visited.inside
    have truncated := flagged flag
    rw [patience_eq] at inside truncated
    obtain ⟨covers, longest⟩ := middle_longest (strip_spec within).1 shortA shortB none_ truncated
    exact ⟨_, List.IsInfix.trans ⟨_, _, rfl⟩ inside, covers, longest⟩
  · exact uniqueCommon_longest within shortA shortB
  · rintro front more behind rfl rfl
    exact align_insertion front more behind
  · rintro front more behind rfl rfl
    exact align_deletion front more behind

/-- Two tokens inserted between two. -/
theorem align_correct_small : AllButNew 2 (align [1, 2] [1, 3, 4, 2]).1 ∧
    LongestUnique [1, 2] [1, 3, 4, 2] ⟨0, 2, 0, 4⟩ (uniqueCommon [1, 2] [1, 3, 4, 2] 0 2 0 4) :=
  ⟨(align_correct [1, 2] [1, 3, 4, 2]).2.2.1 [1] [3, 4] [2] rfl rfl,
    ((align_correct [1, 2] [1, 3, 4, 2]).2.1 (by decide) (by decide)).2 ⟨0, 2, 0, 4⟩ ⟨by decide, by decide, by decide, by decide⟩⟩

end E5r.AlignCorrect
