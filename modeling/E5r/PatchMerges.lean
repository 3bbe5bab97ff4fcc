import E5r.PatchApply
import E5r.PatchRoundTrip

/-!
Patch sets merged one into another. While no id stands for two edits, nothing shows in the
result but which edits came together: not the order or the side of the merges, nor repeats.
-/
namespace E5r.PatchMerges
open PatchModel PatchApply PatchRoundTrip SortedRecords

def Brought (ps : List Patch) (e : Edit) : Prop := ∃ p ∈ ps, e ∈ p.edits

variable {p q : Patch} {ps qs : List Patch} {e : Edit}

theorem once {l m : List Edit} (alike : ∀ a ∈ l, ∀ b ∈ l, a = b) (apart : m.IsChain (· ≠ ·)) (inside : ∀ a ∈ m, a ∈ l) :
    m.Nodup := by
  cases m with
  | nil => exact .nil
  | cons a m =>
    cases m with
    | nil => exact List.nodup_singleton a
    | cons b m => exact absurd (alike a (inside a (by simp)) b (inside b (by simp))) (List.isChain_cons_cons.mp apart).1

theorem Kept.ext (keptP : Kept p) (keptQ : Kept q) (agree : ∀ a b, a ∈ p.edits → b ∈ p.edits → a.id = b.id → a = b)
    (same : ∀ e, e ∈ p.edits ↔ e ∈ q.edits) : p.edits = q.edits := by
  refine sorted_ext idKey keptP.sorted keptQ.sorted fun k => ?_
  have members : ∀ e, e ∈ withKey idKey k p.edits ↔ e ∈ withKey idKey k q.edits := fun e => by simp [withKey, same]
  have alike : ∀ a ∈ withKey idKey k p.edits, ∀ b ∈ withKey idKey k p.edits, a = b := by
    intro a inA b inB
    simp only [withKey, List.mem_filter, decide_eq_true_eq] at inA inB
    exact agree a b inA.1 inB.1 (UInt64.toNat_inj.mp (inA.2.trans inB.2.symm))
  have perm := (List.perm_ext_iff_of_nodup (once alike (keptP.apart k) fun _ => id)
    (once alike (keptQ.apart k) fun a => (members a).mpr)).mpr members
  exact perm.eq_of_pairwise (fun a b inP inQ _ _ => alike a inP b ((members b).mpr inQ))
    (List.pairwise_of_forall (R := fun _ _ => True) fun _ _ => trivial) (List.pairwise_of_forall fun _ _ => trivial)

theorem mem_merges : e ∈ (ps.foldl Patch.merge p).edits ↔ Brought (p :: ps) e := by
  have merged : ∀ (es : List Edit) (p : Patch), e ∈ (es.foldl Patch.push p).edits ↔ e ∈ p.edits ∨ e ∈ es := by
    intro es
    induction es with
    | nil => simp
    | cons f rest ih => simp [ih, mem_push, or_left_comm, or_assoc]
  induction ps generalizing p with
  | nil => simp [Brought]
  | cons q rest ih =>
    refine ih.trans ?_
    simp [Brought, Patch.merge, merged, or_assoc]

theorem merges_kept (reached : ∀ r ∈ p :: ps, Reachable r) : Kept (ps.foldl Patch.merge p) :=
  reachable_kept (List.foldlRecOn ps Patch.merge (reached p (.head _)) fun _ held r inside =>
    .merge held (reached r (.tail _ inside)))

/-- Merging gives the same edits exactly when the same edits came together. -/
theorem patches_converge (reachedP : ∀ r ∈ p :: ps, Reachable r) (reachedQ : ∀ r ∈ q :: qs, Reachable r)
    (agree : ∀ a b, Brought (p :: ps) a → Brought (p :: ps) b → a.id = b.id → a = b) :
    (ps.foldl Patch.merge p).edits = (qs.foldl Patch.merge q).edits ↔
      ∀ e, Brought (p :: ps) e ↔ Brought (q :: qs) e := by
  simp only [← mem_merges] at agree ⊢
  exact ⟨fun same e => by rw [same], Kept.ext (merges_kept reachedP) (merges_kept reachedQ) agree⟩

theorem patches_converge_one : ([.new "b"].foldl Patch.merge ((Patch.new "a").push oneEdit)).edits =
    ([(Patch.new "a").push oneEdit].foldl Patch.merge (.new "b")).edits := by
  refine (patches_converge ?_ ?_ ?_).mpr ?_
  · simpa using ⟨.push _ (.new _), .new _⟩
  · simpa using ⟨.new _, .push _ (.new _)⟩
  · simp +contextual [Brought, mem_push, Patch.new]
  · simp [Brought, or_comm]

end E5r.PatchMerges
