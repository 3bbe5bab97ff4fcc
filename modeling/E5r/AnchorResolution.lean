import E5r.AnnotationLog

/-!
Anchors of one analyzed binary, searchable by bytes, by shape and by address
(`AnchorIndex.resolve`), and the log resolved against them (`Log.apply`).
-/
namespace E5r.AnchorResolution
open SortedRecords AnnotationLog

/-- The fields of an anchor as numbers, compared from left to right. -/
def rank (a : Anchor) : ℕ ×ₗ ℕ ×ₗ ℕ ×ₗ ℕ ×ₗ ℕ :=
  toLex (a.shape.toNat, toLex (a.bytes.toNat, toLex (a.insns.toNat, toLex (a.abs.toNat, a.offset.toNat))))

theorem rank_injective : Function.Injective rank := by
  rintro ⟨s, b, i, e, o⟩ ⟨s', b', i', e', o'⟩ same
  simp only [rank, EmbeddingLike.apply_eq_iff_eq, Prod.mk.injEq, UInt64.toNat_inj, UInt32.toNat_inj] at same
  obtain ⟨rfl, rfl, rfl, rfl, rfl⟩ := same
  rfl

/-- The address an anchor points at, entry plus offset. -/
def target (a : Anchor) : UInt64 := a.abs + a.offset.toUInt64

/-- How an anchor was matched when it was resolved. -/
inductive Resolution where
  | exact
  | shape
  | address
  | ambiguous
deriving DecidableEq

/-- A key with the anchor held under it, compared from left to right. -/
def place (p : UInt64 × Anchor) : ℕ ×ₗ (ℕ ×ₗ ℕ ×ₗ ℕ ×ₗ ℕ ×ₗ ℕ) := toLex (p.1.toNat, rank p.2)

structure AnchorIndex where
  byBytes : List (UInt64 × Anchor)
  byShape : List (UInt64 × Anchor)
  byAbs : List (UInt64 × Anchor)
deriving DecidableEq

/-- Built from every anchored location in a program. -/
def build (anchors : List Anchor) : AnchorIndex where
  byBytes := sortByKey place (anchors.map (fun a => (a.bytes, a)))
  byShape := sortByKey place (anchors.map (fun a => (a.shape, a)))
  byAbs := sortByKey place (anchors.map (fun a => (a.abs, a)))

/-- Every value with the given key in a sorted list. -/
def lookup (v : List (UInt64 × Anchor)) (key : UInt64) : List Anchor :=
  let lo := partitionPoint (fun p => decide (p.1.toNat < key.toNat)) v
  let hi := partitionPoint (fun p => decide (p.1.toNat ≤ key.toNat)) v
  ((v.take hi).drop lo).map Prod.snd

/-- Where an anchor points in this binary, and how sure that is. -/
def resolve (index : AnchorIndex) (want : Anchor) : Option (Anchor × Resolution) :=
  match lookup index.byBytes want.bytes with
  | a :: _ => some (a, .exact)
  | [] =>
    match lookup index.byShape want.shape with
    | [a] => some (a, .shape)
    | first :: others =>
      some ((((first :: others).find? (fun a => a.abs = want.abs)).getD first), .ambiguous)
    | [] => (lookup index.byAbs want.abs).head?.map (fun a => (a, .address))

/-- One folded assertion placed on a freshly analyzed binary. -/
structure Applied where
  addr : UInt64
  field : Field
  value : String
  resolution : Resolution
  who : String
deriving DecidableEq

def Applied.place (a : Applied) : ℕ ×ₗ ℕ := toLex (a.addr.toNat, a.field.tag.toNat)

/-- The folded state resolved against an index: one entry for each assertion that
    still points somewhere. -/
def apply (log : Log) (index : AnchorIndex) : List Applied :=
  sortByKey Applied.place (log.fold.toList.filterMap (fun (_, r) =>
    (resolve index r.target).map (fun (found, how) =>
      { addr := target found + r.target.offset.toUInt64
        field := r.field
        value := r.value.getD ""
        resolution := how
        who := r.who })))

/-- The anchors with one value of a fingerprint, in their order. -/
structure Listed (anchors : List Anchor) (print : Anchor → UInt64) (value : UInt64) (found : List Anchor) : Prop where
  member : ∀ a, a ∈ found ↔ a ∈ anchors ∧ print a = value
  ordered : found.Pairwise (fun a b => rank a ≤ rank b)

theorem lookup_listed (anchors : List Anchor) (print : Anchor → UInt64) (value : UInt64) :
    Listed anchors print value (lookup (sortByKey place (anchors.map (fun a => (print a, a)))) value) := by
  have sorted := sortByKey_sorted place (anchors.map (fun a => (print a, a)))
  have firsts : Sorted (fun p : UInt64 × Anchor => p.1.toNat) (sortByKey place (anchors.map (fun a => (print a, a)))) := by
    refine sorted.imp ?_
    intro p q less
    rcases Prod.Lex.toLex_le_toLex.mp less with first | ⟨first, -⟩
    · exact le_of_lt first
    · exact le_of_eq first
  simp only [lookup]
  rw [slice_eq_withKey _ firsts, withKey]
  constructor
  · intro a
    simp only [List.mem_map, List.mem_filter, mem_sortByKey, decide_eq_true_eq, UInt64.toNat_inj]
    constructor
    · rintro ⟨p, ⟨⟨b, member, rfl⟩, same⟩, rfl⟩
      exact ⟨member, same⟩
    · rintro ⟨member, same⟩
      exact ⟨(print a, a), ⟨⟨a, member, rfl⟩, same⟩, rfl⟩
  · rw [List.pairwise_map]
    -- with the same key, the order of places is the order of anchors
    refine List.Pairwise.imp_of_mem ?_ (sorted.filter _)
    intro p q inP inQ less
    have sameP : p.1.toNat = value.toNat := by simpa using (List.mem_filter.mp inP).2
    have sameQ : q.1.toNat = value.toNat := by simpa using (List.mem_filter.mp inQ).2
    rcases Prod.Lex.toLex_le_toLex.mp less with first | ⟨-, second⟩
    · have first : p.1.toNat < q.1.toNat := first
      omega
    · exact second

def IsFirst (anchors : List Anchor) (bytes : UInt64) (a : Anchor) : Prop :=
  (a ∈ anchors ∧ a.bytes = bytes) ∧ ∀ b ∈ anchors, b.bytes = bytes → rank a ≤ rank b

theorem resolve_exact {anchors : List Anchor} {want : Anchor} (indexed : ∃ a ∈ anchors, a.bytes = want.bytes) :
    ∃ found, IsFirst anchors want.bytes found ∧ resolve (build anchors) want = some (found, .exact) := by
  obtain ⟨a, member, same⟩ := indexed
  have listed : Listed anchors Anchor.bytes want.bytes (lookup (build anchors).byBytes want.bytes) :=
    lookup_listed anchors Anchor.bytes want.bytes
  rw [resolve]
  cases all : lookup (build anchors).byBytes want.bytes with
  | nil =>
    have inside := (listed.member a).mpr ⟨member, same⟩
    rw [all] at inside
    contradiction
  | cons found rest =>
    rw [all] at listed
    refine ⟨found, ⟨(listed.member found).mp List.mem_cons_self, ?_⟩, rfl⟩
    intro b inside bytes
    rcases List.mem_cons.mp ((listed.member b).mpr ⟨inside, bytes⟩) with rfl | later
    · exact le_refl _
    · exact (List.pairwise_cons.mp listed.ordered).1 b later

theorem isFirst_unique {anchors : List Anchor} {bytes : UInt64} {a b : Anchor} (firstA : IsFirst anchors bytes a)
    (firstB : IsFirst anchors bytes b) : a = b :=
  rank_injective (le_antisymm (firstA.2 b firstB.1.1 firstB.1.2) (firstB.2 a firstA.1.1 firstA.1.2))

theorem mem_apply {anchors : List Anchor} {log : Log} (indexed : ∀ (k : Key) (r : Assertion), log.fold[k]? = some r → r.target ∈ anchors)
    {addr : UInt64} {field : Field} {value : String} :
    (∃ e ∈ apply log (build anchors), e.addr = addr ∧ e.field = field ∧ e.value = value) ↔
      ∃ (k : Key) (r : Assertion) (found : Anchor), log.fold[k]? = some r ∧ IsFirst anchors r.target.bytes found ∧
        target found + r.target.offset.toUInt64 = addr ∧ r.field = field ∧ r.value.getD "" = value := by
  simp only [apply, mem_sortByKey, List.mem_filterMap, Option.map_eq_some_iff, Prod.exists]
  constructor
  · rintro ⟨e, ⟨k, r, member, found, how, answered, rfl⟩, rfl, rfl, rfl⟩
    have folded := Std.ExtTreeMap.mem_toList_iff_getElem?_eq_some.mp member
    obtain ⟨first, isFirst, answer⟩ := resolve_exact ⟨r.target, indexed k r folded, rfl⟩
    obtain ⟨rfl, -⟩ : first = found ∧ _ := by simpa [answer] using answered
    exact ⟨k, r, first, folded, isFirst, rfl, rfl, rfl⟩
  · rintro ⟨k, r, found, folded, isFirst, rfl, rfl, rfl⟩
    obtain ⟨first, isFirst', answer⟩ := resolve_exact ⟨r.target, indexed k r folded, rfl⟩
    obtain rfl := isFirst_unique isFirst isFirst'
    exact ⟨_, ⟨k, r, Std.ExtTreeMap.mem_toList_iff_getElem?_eq_some.mpr folded, found, .exact, answer, rfl⟩, rfl, rfl,
      rfl⟩

end E5r.AnchorResolution
