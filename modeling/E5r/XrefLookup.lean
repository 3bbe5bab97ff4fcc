import E5r.CacheRoundTrip

/-!
The index of cross references, searched in both directions. Its answers at an address are the
references from it or to it, each once, and it depends on nothing but the set of references.
-/
namespace E5r.XrefLookup
open CacheCodec CacheRoundTrip SortedRecords

/-- References made by the instruction at an address. -/
def from_ (index : XrefIndex) (addr : ℕ) : List Xref :=
  (index.byFrom.take (partitionPoint (fun x => decide (x.source ≤ addr)) index.byFrom)).drop
    (partitionPoint (fun x => decide (x.source < addr)) index.byFrom)

/-- References pointing at an address. -/
def to_ (index : XrefIndex) (addr : ℕ) : List Xref :=
  (index.byTo.take (partitionPoint (fun x => decide (x.target ≤ addr)) index.byTo)).drop
    (partitionPoint (fun x => decide (x.target < addr)) index.byTo)

theorem rank_injective : Function.Injective XrefKind.rank := by
  intro a b same
  cases a <;> cases b <;> first | rfl | cases same

theorem fromKey_injective : Function.Injective Xref.fromKey := by
  rintro ⟨source, target, kind⟩ ⟨source', target', kind'⟩ same
  simp only [Xref.fromKey, EmbeddingLike.apply_eq_iff_eq, Prod.mk.injEq] at same
  obtain ⟨rfl, rfl, kinds⟩ := same
  rw [rank_injective kinds]

theorem toKey_injective : Function.Injective Xref.toKey := by
  rintro ⟨source, target, kind⟩ ⟨source', target', kind'⟩ same
  simp only [Xref.toKey, EmbeddingLike.apply_eq_iff_eq, Prod.mk.injEq] at same
  obtain ⟨rfl, rfl, kinds⟩ := same
  rw [rank_injective kinds]

variable {refs others : List Xref} {x : Xref}

theorem byFrom_strict : StrictlySorted Xref.fromKey (XrefIndex.build refs).byFrom :=
  strict_of_distinct _ ((dedup_distinct _).imp fun _ _ other => fromKey_injective.ne other)
    ((sortByKey_sorted _ refs).sublist (DataRegions.dedup_sublist _))

theorem byTo_strict : StrictlySorted Xref.toKey (XrefIndex.build refs).byTo :=
  sortByKey_strict _ toKey_injective byFrom_strict.nodup

theorem mem_byFrom : x ∈ (XrefIndex.build refs).byFrom ↔ x ∈ refs := by
  simp [XrefIndex.build, DataRegions.mem_dedup, mem_sortByKey]

theorem mem_byTo : x ∈ (XrefIndex.build refs).byTo ↔ x ∈ refs :=
  (mem_sortByKey _).trans mem_byFrom

theorem le_of_toLex {a c : ℕ} {b d : ℕ ×ₗ ℕ} (below : toLex (a, b) ≤ toLex (c, d)) : a ≤ c :=
  (Prod.Lex.toLex_le_toLex.mp below).elim le_of_lt fun same => same.1.le

/-- The answers at an address are the references from it and those to it, each of them once. -/
theorem lookup_exact (refs : List Xref) (addr : ℕ) :
    ((from_ (XrefIndex.build refs) addr).Nodup ∧
      ∀ x, x ∈ from_ (XrefIndex.build refs) addr ↔ x ∈ refs ∧ x.source = addr) ∧
    (to_ (XrefIndex.build refs) addr).Nodup ∧ ∀ x, x ∈ to_ (XrefIndex.build refs) addr ↔ x ∈ refs ∧ x.target = addr := by
  have bySource : Sorted Xref.source (XrefIndex.build refs).byFrom := (byFrom_strict.sorted _).imp le_of_toLex
  have byTarget : Sorted Xref.target (XrefIndex.build refs).byTo := (byTo_strict.sorted _).imp le_of_toLex
  rw [from_, to_, slice_eq_withKey Xref.source bySource, slice_eq_withKey Xref.target byTarget]
  refine ⟨⟨byFrom_strict.nodup.filter _, fun x => ?_⟩, byTo_strict.nodup.filter _, fun x => ?_⟩
  · simp [withKey, mem_byFrom]
  · simp [withKey, mem_byTo]

/-- Two lists of references have one index exactly when they hold the same references. -/
theorem build_eq_iff (refs others : List Xref) :
    XrefIndex.build refs = XrefIndex.build others ↔ ∀ x, x ∈ refs ↔ x ∈ others := by
  constructor
  · intro same x
    rw [← mem_byFrom, same, mem_byFrom]
  · intro same
    have byFrom : (XrefIndex.build refs).byFrom = (XrefIndex.build others).byFrom :=
      byFrom_strict.ext _ byFrom_strict fun x => by rw [mem_byFrom, mem_byFrom, same]
    exact congrArg (fun sorted => (⟨sorted, sortByKey Xref.toKey sorted⟩ : XrefIndex)) byFrom

end E5r.XrefLookup
