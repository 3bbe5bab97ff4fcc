import E5r.CallSites

/-!
The evidence for a fact as it is found. The first of the strongest stays the best; the rest is
kept sorted and once each, so the order of the findings shows in nothing but the best.
-/
namespace E5r.Provenances
open CacheCodec CallSites SortedRecords

/-- How strong evidence is, counted from the weakest strength. -/
def level (e : Evidence) : ℕ := (Evidence.strength e).ctorIdx

/-- The strongest first, then in the order of declaration. -/
def place (e : Evidence) : ℕ ×ₗ ℕ := toLex (3 - level e, e.ctorIdx)

def new (e : Evidence) : Provenance := ⟨e, []⟩

def has (p : Provenance) (e : Evidence) : Bool := p.best = e || p.corroborating.contains e

/-- How many independent sources agree. -/
def support (p : Provenance) : ℕ := 1 + p.corroborating.length

/-- Record another source agreeing. -/
def add (p : Provenance) (e : Evidence) : Provenance :=
  if e = p.best ∨ e ∈ p.corroborating then p
  else if level p.best < level e then ⟨e, sortByKey place (p.corroborating ++ [p.best])⟩
  else ⟨p.best, sortByKey place (p.corroborating ++ [e])⟩

def merge (p other : Provenance) : Provenance := other.corroborating.foldl add (add p other.best)

def found (first : Evidence) (later : List Evidence) : Provenance := later.foldl add (new first)

def pick (b e : Evidence) : Evidence := if level b < level e then e else b

def strongest (first : Evidence) (later : List Evidence) : Evidence := later.foldl pick first

structure Kept (p : Provenance) : Prop where
  once : p.best ∉ p.corroborating
  sorted : StrictlySorted place p.corroborating
  weaker : ∀ e ∈ p.corroborating, level e ≤ level p.best

variable {p q : Provenance} {e d : Evidence} {es ds : List Evidence}

theorem has_iff : has p e = true ↔ e = p.best ∨ e ∈ p.corroborating := by
  rw [has, Bool.or_eq_true, decide_eq_true_eq, List.contains_iff_mem, eq_comm]

theorem place_injective : Function.Injective place := by
  intro a b same
  have index : a.ctorIdx = b.ctorIdx := (Prod.mk.inj (toLex.injective same)).2
  rw [← Evidence.ofNat_ctorIdx a, index, Evidence.ofNat_ctorIdx]

theorem Kept.ext (keptP : Kept p) (keptQ : Kept q) (best : p.best = q.best) (same : ∀ x, has p x = has q x) :
    p = q := by
  obtain ⟨b, l⟩ := p
  obtain ⟨c, m⟩ := q
  obtain rfl : b = c := best
  refine congrArg _ (keptP.sorted.ext place keptQ.sorted fun x => ?_)
  have each : x = b ∨ x ∈ l ↔ x = b ∨ x ∈ m := by
    rw [← has_iff (p := ⟨b, l⟩), ← has_iff (p := ⟨b, m⟩), same]
  by_cases first : x = b
  · subst first
    exact ⟨fun inside => absurd inside keptP.once, fun inside => absurd inside keptQ.once⟩
  · simpa [first] using each

theorem Kept.add (kept : Kept p) (e : Evidence) :
    Kept (add p e) ∧ (∀ x, has (add p e) x ↔ has p x ∨ x = e) ∧ (Provenances.add p e).best = pick p.best e := by
  rw [Provenances.add, pick]
  by_cases held : e = p.best ∨ e ∈ p.corroborating
  · have below : level e ≤ level p.best := held.elim (fun same => same ▸ le_rfl) (kept.weaker e)
    rw [if_pos held, if_neg below.not_gt]
    refine ⟨kept, fun x => ⟨.inl, ?_⟩, rfl⟩
    rintro (old | rfl)
    · exact old
    · exact has_iff.mpr held
  · obtain ⟨other, outside⟩ := not_or.mp held
    have distinct : ∀ x ∉ p.corroborating, (p.corroborating ++ [x]).Nodup := fun x fresh =>
      List.nodup_append.mpr ⟨kept.sorted.nodup, List.nodup_singleton x, fun a inside b last same =>
        fresh (List.mem_singleton.mp last ▸ same ▸ inside)⟩
    rw [if_neg held]
    by_cases stronger : level p.best < level e
    · rw [if_pos stronger, if_pos stronger]
      refine ⟨⟨?_, sortByKey_strict place place_injective (distinct _ kept.once), ?_⟩, fun x => ?_, rfl⟩
      · simp [mem_sortByKey, outside, other]
      · intro x inside
        rcases List.mem_append.mp ((mem_sortByKey place).mp inside) with old | last
        · exact (kept.weaker x old).trans stronger.le
        · exact List.mem_singleton.mp last ▸ stronger.le
      · simp only [has_iff, mem_sortByKey, List.mem_append, List.mem_singleton]
        tauto
    · rw [if_neg stronger, if_neg stronger]
      refine ⟨⟨?_, sortByKey_strict place place_injective (distinct _ outside), ?_⟩, fun x => ?_, rfl⟩
      · simp [mem_sortByKey, kept.once, Ne.symm other]
      · intro x inside
        rcases List.mem_append.mp ((mem_sortByKey place).mp inside) with old | last
        · exact kept.weaker x old
        · rw [List.mem_singleton.mp last]
          exact not_lt.mp stronger
      · simp only [has_iff, mem_sortByKey, List.mem_append, List.mem_singleton]
        tauto

/-- What is kept of the evidence: all of it once, under the first of the strongest. -/
theorem found_keeps (e : Evidence) (es : List Evidence) :
    Kept (found e es) ∧ (∀ x, has (found e es) x ↔ x ∈ e :: es) ∧ (found e es).best = strongest e es := by
  induction es using List.reverseRecOn with
  | nil => exact ⟨⟨List.not_mem_nil, .nil, fun _ inside => absurd inside List.not_mem_nil⟩, fun x => by simp [has_iff, found, new], rfl⟩
  | append_singleton es d ih =>
    obtain ⟨kept, members, best⟩ := ih
    obtain ⟨keeps, more, first⟩ := kept.add d
    rw [found, strongest, List.foldl_concat, List.foldl_concat]
    refine ⟨keeps, fun x => (more x).trans ?_, first.trans (congrArg (pick · d) best)⟩
    rw [members]
    simp [or_assoc]

theorem found_ext (same : ∀ x, x ∈ e :: es ↔ x ∈ d :: ds) (first : strongest e es = strongest d ds) :
    found e es = found d ds := by
  obtain ⟨kept, members, best⟩ := found_keeps e es
  obtain ⟨keptD, membersD, bestD⟩ := found_keeps d ds
  refine kept.ext keptD (best.trans (first.trans bestD.symm)) fun x => ?_
  rw [Bool.eq_iff_iff, members, membersD, same]

/-- The order of the findings shows in nothing but which of the strongest came first. -/
theorem found_eq_iff (e d : Evidence) (es ds : List Evidence) : found e es = found d ds ↔
    (∀ x, x ∈ e :: es ↔ x ∈ d :: ds) ∧ strongest e es = strongest d ds := by
  obtain ⟨-, members, best⟩ := found_keeps e es
  obtain ⟨-, membersD, bestD⟩ := found_keeps d ds
  constructor
  · intro same
    exact ⟨fun x => by rw [← members, same, membersD], by rw [← best, same, bestD]⟩
  · rintro ⟨same, first⟩
    exact found_ext same first

/-- Every source counts once however often it is found. -/
theorem support_found (e : Evidence) (es : List Evidence) : support (found e es) = (e :: es).dedup.length := by
  obtain ⟨kept, members, -⟩ := found_keeps e es
  have all : ((found e es).best :: (found e es).corroborating).Perm (e :: es).dedup := by
    refine (List.perm_ext_iff_of_nodup (List.nodup_cons.mpr ⟨kept.once, kept.sorted.nodup⟩) (List.nodup_dedup _)).mpr
      fun x => ?_
    rw [List.mem_dedup, ← members, has_iff, List.mem_cons]
  rw [support, Nat.add_comm]
  exact all.length_eq

theorem pick_assoc (a b c : Evidence) : pick (pick a b) c = pick a (pick b c) := by
  unfold pick
  split_ifs <;> first | rfl | omega

instance : Std.Associative pick := ⟨pick_assoc⟩

theorem strongest_of_le (below : ∀ x ∈ es, level x ≤ level e) : strongest e es = e := by
  induction es with
  | nil => rfl
  | cons c rest ih =>
    obtain ⟨first, later⟩ := List.forall_mem_cons.mp below
    rw [strongest, List.foldl_cons, pick, if_neg first.not_gt]
    exact ih later

theorem strongest_append : strongest e (es ++ d :: ds) = pick (strongest e es) (strongest d ds) := by
  rw [strongest, List.foldl_append, List.foldl_cons, List.foldl_assoc]
  rfl

/-- What two searches keep, merged, is what one search through the finds of both keeps. -/
theorem merge_found (e d : Evidence) (es ds : List Evidence) :
    merge (found e es) (found d ds) = found e (es ++ d :: ds) := by
  obtain ⟨kept, members, best⟩ := found_keeps d ds
  have run : merge (found e es) (found d ds) = found e (es ++ (found d ds).best :: (found d ds).corroborating) := by
    simp only [merge, found, List.foldl_append, List.foldl_cons]
  rw [run]
  refine found_ext (fun x => ?_) (by rw [strongest_append, strongest_append, strongest_of_le kept.weaker, best])
  have each := members x
  rw [has_iff] at each
  simp only [List.mem_cons, List.mem_append] at each ⊢
  tauto

end E5r.Provenances
