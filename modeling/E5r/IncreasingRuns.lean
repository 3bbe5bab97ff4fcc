import E5r.SortedRecords

/-!
Patience sorting. Items are dealt one by one; the k-th tail is the index of the item with
the least key that ends an increasing subsequence of k + 1 items, and every item points
back at the one before it in such a subsequence. Following the pointers from the last
tail gives a longest increasing subsequence.
-/
namespace E5r.IncreasingRuns
open SortedRecords

/-- The tails, and for every item that was dealt the one before it. -/
structure Tails where
  tails : List ℕ
  back : List (Option ℕ)
deriving DecidableEq

section
variable {α κ : Type} [LinearOrder κ] (key : α → κ) (items : List α)

/-- Deal the next item: its place is behind the tails with smaller keys. -/
def deal (s : Tails) (p : α × ℕ) : Tails :=
  let place := partitionPoint (fun t => (items[t]?).any fun q => decide (key q < key p.1)) s.tails
  { tails := if place = s.tails.length then s.tails ++ [p.2] else s.tails.set place p.2
    back := s.back ++ [if 0 < place then s.tails[place - 1]? else none] }

/-- Follow the pointers from an item. -/
def chase (back : List (Option ℕ)) : ℕ → Option ℕ → List α
  | fuel + 1, some n => (items[n]?).toList ++ chase back fuel (back.getD n none)
  | _, _ => []

def longestIncreasing : List α :=
  let s := items.zipIdx.foldl (deal key items) ⟨[], []⟩
  (chase items s.back items.length s.tails.getLast?).reverse

/-- Pointers lead from an item through so many others, each of a smaller key and dealt
    before. -/
inductive Run (back : List (Option ℕ)) : ℕ → ℕ → Prop where
  | first {t : ℕ} {p : α} : back[t]? = some none → items[t]? = some p → Run back 0 t
  | next {k t u : ℕ} {p q : α} : back[t]? = some (some u) → u < t → items[t]? = some p → items[u]? = some q →
      key q < key p → Run back k u → Run back (k + 1) t

/-- What holds when so many items have been dealt. -/
structure Dealt (n : ℕ) (s : Tails) : Prop where
  length : s.back.length = n
  runs : ∀ k t, s.tails[k]? = some t → Run key items s.back k t
  ordered : s.tails.Pairwise fun t u => ∀ p q, items[t]? = some p → items[u]? = some q → key p < key q
  best : ∀ l : List α, l.Sublist (items.take n) → l.Pairwise (fun p q => key p < key q) → ∀ v, l.getLast? = some v →
    ∃ t q, s.tails[l.length - 1]? = some t ∧ items[t]? = some q ∧ key q ≤ key v

end

variable {α κ : Type} [LinearOrder κ] {key : α → κ} {items : List α} {back : List (Option ℕ)}

theorem Run.item {k t : ℕ} (run : Run key items back k t) : ∃ p, items[t]? = some p := by
  cases run with
  | first _ here => exact ⟨_, here⟩
  | next _ _ here _ _ _ => exact ⟨_, here⟩

theorem Run.dealt {k t : ℕ} (run : Run key items back k t) : t < back.length := by
  cases run with
  | first pointer _ => exact (List.getElem?_eq_some_iff.mp pointer).1
  | next pointer _ _ _ _ _ => exact (List.getElem?_eq_some_iff.mp pointer).1

theorem Run.append {k t : ℕ} (run : Run key items back k t) (more : List (Option ℕ)) : Run key items (back ++ more) k t := by
  induction run with
  | @first t _ pointer here =>
    have inside := (List.getElem?_eq_some_iff.mp pointer).1
    exact .first (by rw [List.getElem?_append_left inside, pointer]) here
  | @next _ t _ _ _ pointer before here there less _ ih =>
    have inside := (List.getElem?_eq_some_iff.mp pointer).1
    exact .next (by rw [List.getElem?_append_left inside, pointer]) before here there less ih

theorem Run.chase {k t : ℕ} (run : Run key items back k t) {fuel : ℕ} (enough : t < fuel) :
    (chase items back fuel (some t)).length = k + 1 ∧
      (chase items back fuel (some t)).reverse.Sublist (items.take (t + 1)) ∧
      (chase items back fuel (some t)).reverse.Pairwise (fun p q => key p < key q) ∧
      ∀ p, items[t]? = some p → ∀ q ∈ chase items back fuel (some t), key q ≤ key p := by
  induction run generalizing fuel with
  | @first t p pointer here =>
    cases fuel with
    | zero => omega
    | succ fuel =>
      have whole : IncreasingRuns.chase items back (fuel + 1) (some t) = [p] := by
        rw [IncreasingRuns.chase, here, List.getD_eq_getElem?_getD, pointer, Option.getD_some]
        cases fuel <;> rfl
      rw [whole]
      refine ⟨rfl, ?_, List.pairwise_singleton _ _, fun p' same q member => ?_⟩
      · rw [List.take_add_one, here]
        exact List.sublist_append_right _ _
      · rw [List.mem_singleton.mp member, Option.some.inj (here.symm.trans same)]
  | @next k t u p q pointer before here there less _ ih =>
    cases fuel with
    | zero => omega
    | succ fuel =>
      obtain ⟨length, sub, increasing, below⟩ := ih (by omega : u < fuel)
      have whole : IncreasingRuns.chase items back (fuel + 1) (some t) =
          p :: IncreasingRuns.chase items back fuel (some u) := by
        rw [IncreasingRuns.chase, here, List.getD_eq_getElem?_getD, pointer, Option.getD_some]
        rfl
      rw [whole]
      refine ⟨by rw [List.length_cons, length], ?_, ?_, fun p' same r member => ?_⟩
      · rw [List.reverse_cons, List.take_add_one, here]
        refine List.Sublist.append (sub.trans ?_) (List.Sublist.refl _)
        exact (List.take_prefix_take_left (by omega)).sublist
      · rw [List.reverse_cons]
        refine List.pairwise_append.mpr ⟨increasing, List.pairwise_singleton _ _, fun r member p' last => ?_⟩
        rw [List.mem_singleton.mp last]
        exact (below q there r (List.mem_reverse.mp member)).trans_lt less
      · obtain rfl := Option.some.inj (here.symm.trans same)
        rcases List.mem_cons.mp member with rfl | later
        · exact le_rfl
        · exact (below q there r later).trans less.le

theorem place_spec {tails : List ℕ} {v : κ} (valid : ∀ t ∈ tails, ∃ p, items[t]? = some p)
    (ordered : tails.Pairwise fun t u => ∀ p q, items[t]? = some p → items[u]? = some q → key p < key q) (k t : ℕ)
    (here : tails[k]? = some t) (p : α) (item : items[t]? = some p) :
    k < partitionPoint (fun t => (items[t]?).any fun q => decide (key q < v)) tails ↔ key p < v := by
  induction tails generalizing k with
  | nil => cases here
  | cons first rest ih =>
    obtain ⟨above, tail⟩ := List.pairwise_cons.mp ordered
    obtain ⟨q, item'⟩ := valid first List.mem_cons_self
    by_cases less : key q < v
    · rw [partitionPoint, List.takeWhile_cons_of_pos (by simpa [item'] using less), List.length_cons]
      cases k with
      | zero =>
        obtain rfl := Option.some.inj here
        obtain rfl := Option.some.inj (item'.symm.trans item)
        exact ⟨fun _ => less, fun _ => Nat.succ_pos _⟩
      | succ k =>
        rw [Nat.succ_lt_succ_iff]
        exact ih (fun t member => valid t (List.mem_cons_of_mem _ member)) tail k here
    · rw [partitionPoint, List.takeWhile_cons_of_neg (by simpa [item'] using less), List.length_nil]
      refine ⟨fun impossible => absurd impossible (Nat.not_lt_zero k), fun small => ?_⟩
      cases k with
      | zero =>
        obtain rfl := Option.some.inj here
        obtain rfl := Option.some.inj (item'.symm.trans item)
        exact absurd small less
      | succ k => exact absurd ((above t (List.mem_of_getElem? here) q p item' item).trans small) less

theorem place_le (key : α → κ) (items : List α) (v : κ) (tails : List ℕ) :
    partitionPoint (fun t => (items[t]?).any fun q => decide (key q < v)) tails ≤ tails.length :=
  (List.takeWhile_sublist _).length_le

theorem deal_tails (key : α → κ) (items : List α) (s : Tails) (p : α) (n k : ℕ) :
    (deal key items s (p, n)).tails[k]? =
      if k = partitionPoint (fun t => (items[t]?).any fun q => decide (key q < key p)) s.tails then some n
      else s.tails[k]? := by
  have low := place_le key items (key p) s.tails
  rw [deal]
  simp only
  generalize partitionPoint (fun t => (items[t]?).any fun q => decide (key q < key p)) s.tails = place at low
  by_cases last : place = s.tails.length
  · rw [if_pos last, last]
    by_cases before : k < s.tails.length
    · rw [List.getElem?_append_left before, if_neg (Nat.ne_of_lt before)]
    · rw [List.getElem?_append_right (Nat.not_lt.mp before)]
      by_cases here : k = s.tails.length
      · rw [if_pos here, here, Nat.sub_self]
        rfl
      · rw [if_neg here, List.getElem?_eq_none (by rw [List.length_singleton]; omega), List.getElem?_eq_none (by omega)]
  · rw [if_neg last]
    by_cases here : k = place
    · rw [if_pos here, here, List.getElem?_set_self (lt_of_le_of_ne low last)]
    · rw [if_neg here, List.getElem?_set_ne (Ne.symm here)]

theorem Dealt.deal {n : ℕ} {s : Tails} (dealt : Dealt key items n s) {p : α} (item : items[n]? = some p) :
    Dealt key items (n + 1) (deal key items s (p, n)) := by
  have valid : ∀ t ∈ s.tails, ∃ q, items[t]? = some q := by
    intro t member
    obtain ⟨k, here⟩ := List.mem_iff_getElem?.mp member
    exact (dealt.runs k t here).item
  have spec := place_spec (v := key p) valid dealt.ordered
  have low := place_le key items (key p) s.tails
  have tails := deal_tails key items s p n
  have backs : (IncreasingRuns.deal key items s (p, n)).back =
      s.back ++ [if 0 < partitionPoint (fun t => (items[t]?).any fun q => decide (key q < key p)) s.tails then
        s.tails[partitionPoint (fun t => (items[t]?).any fun q => decide (key q < key p)) s.tails - 1]? else none] := rfl
  generalize IncreasingRuns.deal key items s (p, n) = s' at tails backs
  generalize partitionPoint (fun t => (items[t]?).any fun q => decide (key q < key p)) s.tails = place at *
  have pointer : s'.back[n]? = some (if 0 < place then s.tails[place - 1]? else none) := by
    rw [backs, List.getElem?_append_right (by rw [dealt.length]), dealt.length, Nat.sub_self]
    rfl
  refine ⟨?_, ?_, ?_, ?_⟩
  · rw [backs, List.length_append, dealt.length]
    rfl
  · intro k t here
    rw [tails] at here
    by_cases new : k = place
    · rw [if_pos new] at here
      obtain rfl := Option.some.inj here
      rw [new]
      cases place with
      | zero => exact .first pointer item
      | succ before =>
        rw [if_pos (Nat.succ_pos before), Nat.add_sub_cancel] at pointer
        have inside : before < s.tails.length := low
        rw [List.getElem?_eq_getElem inside] at pointer
        have run := dealt.runs before _ (List.getElem?_eq_getElem inside)
        obtain ⟨q, there⟩ := run.item
        have less := (spec before _ (List.getElem?_eq_getElem inside) q there).mp (Nat.lt_succ_self before)
        refine .next pointer ?_ item there less ?_
        · rw [← dealt.length]
          exact run.dealt
        · rw [backs]
          exact run.append _
    · rw [if_neg new] at here
      rw [backs]
      exact (dealt.runs k t here).append _
  · refine List.pairwise_iff_getElem.mpr fun i j insideI insideJ before a b itemA itemB => ?_
    have hereI := tails i
    have hereJ := tails j
    rw [List.getElem?_eq_getElem insideI] at hereI
    rw [List.getElem?_eq_getElem insideJ] at hereJ
    have order : ∀ i j t u : ℕ, i < j → s.tails[i]? = some t → s.tails[j]? = some u → ∀ p q, items[t]? = some p →
        items[u]? = some q → key p < key q := by
      intro i j t u before first second
      obtain ⟨insideI, rfl⟩ := List.getElem?_eq_some_iff.mp first
      obtain ⟨insideJ, rfl⟩ := List.getElem?_eq_some_iff.mp second
      exact List.pairwise_iff_getElem.mp dealt.ordered i j insideI insideJ before
    by_cases newI : i = place
    · rw [if_pos newI] at hereI
      rw [if_neg (by omega)] at hereJ
      rw [Option.some.inj hereI, item] at itemA
      obtain rfl := Option.some.inj itemA
      -- The tail that was replaced is not below the item, and the later ones are above it.
      have inside : place < s.tails.length := by
        have far := (List.getElem?_eq_some_iff.mp hereJ.symm).1
        omega
      have there := List.getElem?_eq_getElem inside
      obtain ⟨q, itemQ⟩ := valid _ (List.getElem_mem inside)
      have notLess := (spec place _ there q itemQ).not.mp (Nat.lt_irrefl place)
      exact (not_lt.mp notLess).trans_lt (order place j _ _ (by omega) there hereJ.symm q b itemQ itemB)
    · rw [if_neg newI] at hereI
      by_cases newJ : j = place
      · rw [if_pos newJ] at hereJ
        rw [Option.some.inj hereJ, item] at itemB
        obtain rfl := Option.some.inj itemB
        exact (spec i _ hereI.symm a itemA).mp (by omega)
      · rw [if_neg newJ] at hereJ
        exact order i j _ _ before hereI.symm hereJ.symm a b itemA itemB
  · intro l sub increasing v last
    rw [List.take_add_one, item] at sub
    obtain ⟨l₁, l₂, rfl, sub₁, sub₂⟩ := List.sublist_append_iff.mp sub
    obtain ⟨increasing₁, -, across⟩ := List.pairwise_append.mp increasing
    rcases List.sublist_singleton.mp sub₂ with rfl | rfl
    · rw [List.append_nil] at last ⊢
      obtain ⟨t, q, here, itemQ, below⟩ := dealt.best l₁ sub₁ increasing₁ v last
      rw [tails]
      by_cases new : l₁.length - 1 = place
      · rw [if_pos new]
        have notLess := (spec _ t here q itemQ).not.mp (by omega)
        exact ⟨n, p, rfl, item, (not_lt.mp notLess).trans below⟩
      · rw [if_neg new]
        exact ⟨t, q, here, itemQ, below⟩
    · rw [List.getLast?_concat] at last
      obtain rfl := Option.some.inj last
      rw [List.length_append, List.length_singleton, Nat.add_sub_cancel, tails]
      by_cases new : l₁.length = place
      · rw [if_pos new]
        exact ⟨n, p, rfl, item, le_rfl⟩
      · rw [if_neg new]
        have behind : l₁.length < place := by
          refine lt_of_le_of_ne ?_ new
          rcases List.eq_nil_or_concat l₁ with rfl | ⟨front, w, rfl⟩
          · exact Nat.zero_le _
          · rw [List.concat_eq_append] at *
            obtain ⟨t, q, here, itemQ, below⟩ := dealt.best _ sub₁ increasing₁ w List.getLast?_concat
            have less := across w (List.mem_append_right _ (List.mem_singleton_self w)) p (List.mem_singleton_self p)
            have place_ := (spec _ t here q itemQ).mpr (below.trans_lt less)
            rw [List.length_append, List.length_singleton] at place_ ⊢
            omega
        have inside : l₁.length < s.tails.length := by omega
        obtain ⟨q, itemQ⟩ := valid _ (List.getElem_mem inside)
        have there := List.getElem?_eq_getElem inside
        exact ⟨_, q, there, itemQ, ((spec _ _ there q itemQ).mp behind).le⟩

theorem dealt_all (key : α → κ) (items : List α) :
    Dealt key items items.length (items.zipIdx.foldl (deal key items) ⟨[], []⟩) := by
  have rest : ∀ (rest : List α) (n : ℕ) (s : Tails), items.drop n = rest → Dealt key items n s →
      Dealt key items (n + rest.length) ((rest.zipIdx n).foldl (deal key items) s) := by
    intro rest
    induction rest with
    | nil => exact fun n s _ dealt => dealt
    | cons p rest ih =>
      intro n s left dealt
      have item : items[n]? = some p := by rw [← List.head?_drop, left]; rfl
      have more : items.drop (n + 1) = rest := by rw [← List.drop_drop, left]; rfl
      have next := ih (n + 1) _ more (dealt.deal item)
      rw [List.length_cons, Nat.add_comm rest.length, ← Nat.add_assoc]
      exact next
  have start : Dealt key items 0 ⟨[], []⟩ := by
    refine ⟨rfl, fun k t here => (by cases here), .nil, fun l sub _ v last => ?_⟩
    rw [List.take_zero, List.sublist_nil] at sub
    rw [sub] at last
    cases last
  have whole := rest items 0 _ rfl start
  rwa [Nat.zero_add] at whole

theorem longestIncreasing_spec (key : α → κ) (items : List α) :
    (longestIncreasing key items).Sublist items ∧
      (longestIncreasing key items).Pairwise (fun p q => key p < key q) ∧
      ∀ l : List α, l.Sublist items → l.Pairwise (fun p q => key p < key q) →
        l.length ≤ (longestIncreasing key items).length := by
  have dealt := dealt_all key items
  rw [longestIncreasing]
  generalize items.zipIdx.foldl (deal key items) ⟨[], []⟩ = s at dealt
  rcases List.eq_nil_or_concat s.tails with none_ | ⟨front, t, split⟩
  · have nothing : (chase items s.back items.length s.tails.getLast?).reverse = [] := by
      rw [none_]
      cases items.length <;> rfl
    rw [nothing]
    refine ⟨List.nil_sublist _, .nil, fun l sub increasing => ?_⟩
    rcases List.eq_nil_or_concat l with rfl | ⟨rest, v, rfl⟩
    · exact le_rfl
    · rw [List.concat_eq_append] at sub increasing
      obtain ⟨t, q, here, -⟩ := dealt.best _ (by rwa [List.take_length]) increasing v List.getLast?_concat
      rw [none_] at here
      cases here
  · rw [List.concat_eq_append] at split
    have here : s.tails[front.length]? = some t := by
      rw [split, List.getElem?_append_right le_rfl, Nat.sub_self]
      rfl
    have run := dealt.runs _ t here
    have inside := run.dealt
    rw [dealt.length] at inside
    obtain ⟨length, sub, increasing, -⟩ := run.chase inside
    rw [split, List.getLast?_concat]
    refine ⟨sub.trans (List.take_sublist _ _), increasing, fun l sub' increasing' => ?_⟩
    rw [List.length_reverse, length]
    rcases List.eq_nil_or_concat l with rfl | ⟨rest, v, rfl⟩
    · exact Nat.zero_le _
    · rw [List.concat_eq_append] at *
      obtain ⟨u, q, there, -⟩ := dealt.best _ (by rwa [List.take_length]) increasing' v List.getLast?_concat
      have last := (List.getElem?_eq_some_iff.mp there).1
      rw [split, List.length_append, List.length_append, List.length_singleton, List.length_singleton] at last
      rw [List.length_append, List.length_singleton]
      omega

end E5r.IncreasingRuns
