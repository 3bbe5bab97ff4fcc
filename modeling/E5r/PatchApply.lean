import E5r.PatchModel
import E5r.Fallible

/-!
Applying a patch set and taking it back. The check for overlaps compares
neighbours by ends that saturate, so it misses what runs into an edit on the last
address of the address space: there two edits may write different bytes to one
place, and the set cannot be taken back.
-/
namespace E5r.PatchApply
open SortedRecords AnnotationLog AnchorResolution PatchModel
open Overwrites Write

section
variable (base : UInt64) (index : Option AnchorIndex) (e f : Edit)

/-- The address of an edit in an image. -/
def addrOf : ℕ := (place e index).1.toNat

/-- What an edit expects and what it writes, at its offset in the image. -/
def expected : Write UInt8 := ⟨addrOf index e - base.toNat, e.expect⟩
def written : Write UInt8 := ⟨addrOf index e - base.toNat, e.replace⟩

/-- The image holds what the edit was made against. -/
structure Matches (image : List UInt8) : Prop where
  above : base.toNat ≤ addrOf index e
  fits : (expected base index e).Fits image
  found : Write.found image (addrOf index e - base.toNat) e.expect.length = e.expect

/-- Two edits have an address in common. -/
def Share : Prop := ∃ x, (addrOf index e ≤ x ∧ x < addrOf index e + e.expect.length) ∧
  addrOf index f ≤ x ∧ x < addrOf index f + f.expect.length

/-- Two edits have an address in common, and neither is on the last address. -/
def Overlap : Prop := Share index e f ∧ addrOf index e < 2 ^ 64 - 1 ∧ addrOf index f < 2 ^ 64 - 1

def changeOf (en : Edit × ℕ) : Change :=
  ⟨en.2, (place en.1 index).1, en.1.expect, en.1.replace, (place en.1 index).2⟩
end

section
variable {base : UInt64} {index : Option AnchorIndex} {image : List UInt8}

theorem change_ok_iff {n : ℕ} {e : Edit} {c : Change} :
    Patch.change image base index n e = .ok c ↔ Matches base index e image ∧ c = changeOf index (e, n) := by
  have addr : (place e index).1.toNat = addrOf index e := rfl
  rw [Patch.change]
  dsimp only
  rw [distanceTo]
  by_cases above : base ≤ (place e index).1
  · rw [if_pos above]
    dsimp only
    rw [addr]
    by_cases fits : addrOf index e - base.toNat + e.expect.length ≤ image.length
    · rw [if_pos fits]
      by_cases found : Write.found image (addrOf index e - base.toNat) e.expect.length = e.expect
      · rw [if_neg (not_not.mpr found), found]
        constructor
        · intro same
          cases same
          exact ⟨⟨above, fits, found⟩, rfl⟩
        · rintro ⟨-, rfl⟩
          rfl
      · rw [if_pos found]
        constructor
        · rintro ⟨⟩
        · rintro ⟨matches', -⟩
          exact absurd matches'.found found
    · rw [if_neg fits]
      constructor
      · rintro ⟨⟩
      · rintro ⟨matches', -⟩
        exact absurd matches'.fits fits
  · rw [if_neg above]
    constructor
    · rintro ⟨⟩
    · rintro ⟨matches', -⟩
      exact absurd matches'.above above

/-- Two changes have an address in common, and neither is on the last address. -/
def Collide (a b : Change) : Prop :=
  (∃ x, (a.addr.toNat ≤ x ∧ x < a.addr.toNat + a.before.length) ∧
    b.addr.toNat ≤ x ∧ x < b.addr.toNat + b.before.length) ∧
  a.addr.toNat < 2 ^ 64 - 1 ∧ b.addr.toNat < 2 ^ 64 - 1

theorem Collide.symm {a b : Change} (collide : Collide a b) : Collide b a := by
  obtain ⟨⟨x, first, second⟩, lowA, lowB⟩ := collide
  exact ⟨⟨x, second, first⟩, lowB, lowA⟩

theorem overlapCheck_ok_iff {cs : List Change} (sorted : Sorted Change.key cs) (some : ∀ c ∈ cs, c.before ≠ []) :
    Patch.overlapCheck cs = .ok () ↔ cs.Pairwise fun a b => ¬Collide a b := by
  induction cs with
  | nil => exact ⟨fun _ => .nil, fun _ => rfl⟩
  | cons a cs ih =>
    have later := ih (List.pairwise_cons.mp sorted).2 fun c member => some c (List.mem_cons_of_mem a member)
    have order (b c : Change) (le : b.key ≤ c.key) : b.addr.toNat ≤ c.addr.toNat := by
      rcases Prod.Lex.toLex_le_toLex.mp le with less | ⟨same, -⟩
      · exact Nat.le_of_lt less
      · exact Nat.le_of_eq same
    cases cs with
    | nil => exact ⟨fun _ => List.pairwise_singleton _ a, fun _ => rfl⟩
    | cons b rest =>
      have bottom := order a b ((List.pairwise_cons.mp sorted).1 b (List.mem_cons_self ..))
      have length : 0 < b.before.length :=
        List.length_pos_of_ne_nil (some b (List.mem_cons_of_mem a (List.mem_cons_self ..)))
      rw [Patch.overlapCheck, List.pairwise_cons]
      by_cases hit : saturatingAdd a.addr a.before.length > b.addr.toNat
      · rw [if_pos hit]
        refine iff_of_false (by rintro ⟨⟩) ?_
        rintro ⟨first, -⟩
        rw [saturatingAdd] at hit
        exact first b (List.mem_cons_self ..) ⟨⟨b.addr.toNat, by omega, by omega⟩, by omega, by omega⟩
      · rw [if_neg hit, later]
        refine ⟨fun rest => ⟨?_, rest⟩, fun both => both.2⟩
        rw [saturatingAdd] at hit
        intro c member
        have above : b.addr.toNat ≤ c.addr.toNat := by
          rcases List.mem_cons.mp member with rfl | further
          · exact le_refl _
          · exact order b c ((List.pairwise_cons.mp (List.pairwise_cons.mp sorted).2).1 c further)
        rintro ⟨⟨x, first, second⟩, -, low⟩
        omega

variable {p : Patch}

/-- Every edit of the set matches the image, and no two overlap below the last
    address. -/
structure Accepted (p : Patch) (image : List UInt8) (base : UInt64) (index : Option AnchorIndex) : Prop where
  fits : ∀ e ∈ p.edits, Matches base index e image
  clear : p.edits.Pairwise fun e f => ¬Overlap index e f

/-- The edits of a set were made by `Edit.new`. -/
def Sound (p : Patch) : Prop := ∀ e ∈ p.edits, e.Sound

def changes (p : Patch) (index : Option AnchorIndex) : List Change := p.edits.zipIdx.map (changeOf index)

theorem mem_changes {c : Change} : c ∈ changes p index → ∃ e ∈ p.edits, ∃ n, c = changeOf index (e, n) := by
  intro member
  obtain ⟨⟨e, n⟩, inside, rfl⟩ := List.mem_map.mp member
  exact ⟨e, List.fst_mem_of_mem_zipIdx inside, n, rfl⟩

theorem changes_of_edit {e : Edit} (member : e ∈ p.edits) : ∃ n, changeOf index (e, n) ∈ changes p index := by
  obtain ⟨n, inside, rfl⟩ := List.mem_iff_getElem.mp member
  refine ⟨n, List.mem_map.mpr ⟨(p.edits[n], n), ?_, rfl⟩⟩
  exact List.mk_mem_zipIdx_iff_getElem?.mpr (List.getElem?_eq_getElem inside)

private theorem clear_iff :
    (changes p index).Pairwise (fun a b => ¬Collide a b) ↔ p.edits.Pairwise fun e f => ¬Overlap index e f := by
  conv_rhs => rw [← List.zipIdx_map_fst 0 p.edits, List.pairwise_map]
  rw [changes, List.pairwise_map]
  rfl

private theorem changes_some (sound : Sound p) : ∀ c ∈ sortByKey Change.key (changes p index), c.before ≠ [] := by
  intro c member
  obtain ⟨e, inside, n, rfl⟩ := mem_changes (mem_sortByKey Change.key |>.mp member)
  exact (sound e inside).some

private theorem mapM_changes (fits : ∀ e ∈ p.edits, Matches base index e image) :
    (p.edits.zipIdx.mapM fun (e, n) => Patch.change image base index n e) = .ok (changes p index) := by
  apply Fallible.mapM_ok_map
  rintro ⟨e, n⟩ member
  exact change_ok_iff.mpr ⟨fits e (List.fst_mem_of_mem_zipIdx member), rfl⟩

theorem preview_ok_iff (sound : Sound p) {cs : List Change} : p.preview image base index = .ok cs ↔
    Accepted p image base index ∧ cs = sortByKey Change.key (changes p index) := by
  have sorted := sortByKey_sorted Change.key (changes p index)
  have together : Patch.overlapCheck (sortByKey Change.key (changes p index)) = .ok () ↔
      p.edits.Pairwise fun e f => ¬Overlap index e f := by
    rw [overlapCheck_ok_iff sorted (changes_some sound), ← clear_iff]
    apply (List.mergeSort_perm _ _).pairwise_iff
    exact fun apart collide => apart collide.symm
  rw [Patch.preview, Fallible.bind_ok_iff]
  constructor
  · rintro ⟨each, ran, rest⟩
    have fits : ∀ e ∈ p.edits, Matches base index e image := by
      intro e member
      obtain ⟨n, inside, rfl⟩ := List.mem_iff_getElem.mp member
      have indexed : (p.edits[n], n) ∈ p.edits.zipIdx :=
        List.mk_mem_zipIdx_iff_getElem?.mpr (List.getElem?_eq_getElem inside)
      obtain ⟨c, changed⟩ := (Fallible.mapM_ok ran).1 _ indexed
      exact (change_ok_iff.mp changed).1
    rw [mapM_changes fits] at ran
    cases ran
    dsimp only at rest
    rw [Fallible.bind_ok_iff] at rest
    obtain ⟨_, passed, same⟩ := rest
    exact ⟨⟨fits, together.mp passed⟩, (Fallible.pure_ok_iff.mp same).symm⟩
  · rintro ⟨⟨fits, clear⟩, rfl⟩
    refine ⟨changes p index, mapM_changes fits, ?_⟩
    dsimp only
    rw [together.mpr clear]
    rfl

theorem apply_refused (sound : Sound p) (refused : ¬Accepted p image base index) :
    ∃ conflict, p.apply image base index = some (.error conflict, image) := by
  cases previewed : p.preview image base index with
  | error conflict => exact ⟨conflict, by rw [Patch.apply, previewed]⟩
  | ok cs => exact absurd ((preview_ok_iff sound).mp previewed).1 refused

theorem writeOf_change {e : Edit} {n : ℕ} (above : base.toNat ≤ addrOf index e) :
    Patch.writeOf base (changeOf index (e, n)) = written base index e := by
  have low : base ≤ (place e index).1 := above
  rw [Patch.writeOf, changeOf, distanceTo, if_pos low]
  rfl

theorem mem_writes (fits : ∀ e ∈ p.edits, Matches base index e image) {w : Write UInt8} :
    w ∈ (sortByKey Change.key (changes p index)).map (Patch.writeOf base) ↔
      ∃ e ∈ p.edits, w = written base index e := by
  constructor
  · intro member
    obtain ⟨c, inside, rfl⟩ := List.mem_map.mp member
    obtain ⟨e, among, n, rfl⟩ := mem_changes (mem_sortByKey Change.key |>.mp inside)
    exact ⟨e, among, writeOf_change (fits e among).above⟩
  · rintro ⟨e, among, rfl⟩
    obtain ⟨n, inside⟩ := changes_of_edit among
    exact List.mem_map.mpr ⟨_, mem_sortByKey Change.key |>.mpr inside, writeOf_change (fits e among).above⟩

private theorem copies {ws : List (Write UInt8)} (fits : ∀ w ∈ ws, w.Fits image) :
    ws.foldlM Patch.copy image = some (ws.foldl put image) := by
  induction ws generalizing image with
  | nil => rfl
  | cons w ws ih =>
    have first := fits w (List.mem_cons_self ..)
    have range : w.off + w.data.length ≤ image.length := first
    rw [List.foldlM_cons, Patch.copy, if_pos range]
    show ws.foldlM Patch.copy (put image w) = _
    rw [List.foldl_cons]
    apply ih
    intro v member
    rw [Fits, length_put first]
    exact fits v (List.mem_cons_of_mem w member)

theorem covers_written {e : Edit} (sound : e.Sound) {x : ℕ} :
    (written base index e).Covers x ↔ (expected base index e).Covers x := by
  rw [Covers, Covers, written, expected, sound.same]

private theorem written_fits (sound : Sound p) (fits : ∀ e ∈ p.edits, Matches base index e image) :
    ∀ w ∈ (sortByKey Change.key (changes p index)).map (Patch.writeOf base), w.Fits image := by
  intro w member
  obtain ⟨e, among, rfl⟩ := (mem_writes fits).mp member
  have range := (fits e among).fits
  rw [Fits, expected] at range
  rw [Fits, written, (sound e among).same]
  exact range

/-- The image after all writes of a set. -/
def result (p : Patch) (image : List UInt8) (base : UInt64) (index : Option AnchorIndex) : List UInt8 :=
  ((sortByKey Change.key (changes p index)).map (Patch.writeOf base)).foldl put image

theorem apply_accepted (sound : Sound p) (accepted : Accepted p image base index) :
    p.apply image base index = some (.ok ⟨sortByKey Change.key (changes p index),
      ((sortByKey Change.key (changes p index)).map fun c => c.after.length).sum⟩, result p image base index) := by
  rw [Patch.apply, (preview_ok_iff sound).mpr ⟨accepted, rfl⟩]
  dsimp only
  rw [copies (written_fits sound accepted.fits)]
  rfl

/-- Edits that write to one place write the same there. -/
def Agreeing (p : Patch) (base : UInt64) (index : Option AnchorIndex) : Prop :=
  ∀ e ∈ p.edits, ∀ f ∈ p.edits, (written base index e).Agree (written base index f)

theorem result_get (sound : Sound p) (accepted : Accepted p image base index) (agreeing : Agreeing p base index) :
    (result p image base index).length = image.length ∧
      (∀ e ∈ p.edits, ∀ x, (written base index e).Covers x →
        (result p image base index)[x]? = (written base index e).at_ x) ∧
      ∀ x, (∀ e ∈ p.edits, ¬(written base index e).Covers x) → (result p image base index)[x]? = image[x]? := by
  have fits := written_fits sound accepted.fits
  refine ⟨length_puts fits, ?_, ?_⟩
  · intro e member x covers
    refine puts_inside fits ?_ ((mem_writes accepted.fits).mpr ⟨e, member, rfl⟩) covers
    intro v inV w inW
    obtain ⟨f, among, rfl⟩ := (mem_writes accepted.fits).mp inV
    obtain ⟨g, among', rfl⟩ := (mem_writes accepted.fits).mp inW
    exact agreeing f among g among'
  · intro x outside
    apply puts_outside fits
    intro w member
    obtain ⟨e, among, rfl⟩ := (mem_writes accepted.fits).mp member
    exact outside e among

theorem mem_push {q : Patch} {e f : Edit} : f ∈ (q.push e).edits ↔ f = e ∨ f ∈ q.edits := by
  rw [Patch.push]
  split
  · next present =>
    constructor
    · exact .inr
    · rintro (rfl | member)
      · exact List.mem_of_getElem? present
      · exact member
  · exact List.mem_insertIdx (List.takeWhile_prefix _).length_le

theorem push_subperm (q : Patch) (e : Edit) : (q.push e).edits.Subperm (e :: q.edits) := by
  rw [Patch.push]
  split
  · exact (List.sublist_cons_self e q.edits).subperm
  · exact (List.perm_insertIdx e q.edits (List.takeWhile_prefix _).length_le).subperm

private theorem push_all (es : List Edit) : ∀ q : Patch,
    (∀ f, f ∈ (es.foldl (fun out e => out.push e.inverse) q).edits ↔ f ∈ es.map Edit.inverse ∨ f ∈ q.edits) ∧
      (es.foldl (fun out e => out.push e.inverse) q).edits.Subperm (es.map Edit.inverse ++ q.edits) := by
  induction es with
  | nil =>
    intro q
    exact ⟨fun f => by simp, List.Subperm.refl _⟩
  | cons e es ih =>
    intro q
    obtain ⟨members, subperm⟩ := ih (q.push e.inverse)
    rw [List.foldl_cons]
    constructor
    · intro f
      rw [members, mem_push, List.map_cons, List.mem_cons]
      tauto
    · apply subperm.trans
      rw [List.map_cons, List.cons_append]
      exact ((List.subperm_append_left _).mpr (push_subperm q e.inverse)).trans List.perm_middle.subperm

theorem mem_revert {e : Edit} : e ∈ p.revert.edits ↔ ∃ f ∈ p.edits, e = f.inverse := by
  rw [Patch.revert, (push_all p.edits _).1]
  simp [Patch.new, eq_comm]

theorem revert_subperm : p.revert.edits.Subperm (p.edits.map Edit.inverse) := by
  have whole := (push_all p.edits { Patch.new p.name with binary := p.binary }).2
  rwa [show ({ Patch.new p.name with binary := p.binary } : Patch).edits = [] from rfl, List.append_nil] at whole

theorem expected_get {e : Edit} (holds : Matches base index e image) {x : ℕ} (covers : (expected base index e).Covers x) :
    image[x]? = (expected base index e).at_ x := by
  have low : addrOf index e - base.toNat ≤ x := covers.1
  have high : x < addrOf index e - base.toNat + e.expect.length := covers.2
  have here := @found_get _ image _ _ _ low high
  rw [holds.found] at here
  exact here.symm

theorem revert_accepted (sound : Sound p) (accepted : Accepted p image base index) (agreeing : Agreeing p base index) :
    Accepted p.revert (result p image base index) base index := by
  obtain ⟨length, inside, -⟩ := result_get sound accepted agreeing
  constructor
  · intro e member
    obtain ⟨f, among, rfl⟩ := mem_revert.mp member
    have holds := accepted.fits f among
    have range : addrOf index f - base.toNat + f.expect.length ≤ image.length := holds.fits
    have same := (sound f among).same
    refine ⟨holds.above, ?_, ?_⟩
    · show addrOf index f - base.toNat + f.replace.length ≤ _
      rw [length, same]
      exact range
    · show Write.found _ (addrOf index f - base.toNat) f.replace.length = f.replace
      apply List.ext_getElem?
      intro i
      by_cases short : i < f.replace.length
      · have covers : (written base index f).Covers (addrOf index f - base.toNat + i) := by
          exact ⟨Nat.le_add_right .., Nat.add_lt_add_left short _⟩
        have here := inside f among _ covers
        have cut := @found_get _ (result p image base index) (addrOf index f - base.toNat) f.replace.length
          (addrOf index f - base.toNat + i) (by omega) (by omega)
        rw [Nat.add_sub_cancel_left] at cut
        rw [cut, here]
        show f.replace[addrOf index f - base.toNat + i - (addrOf index f - base.toNat)]? = _
        rw [Nat.add_sub_cancel_left]
      · have cut : (Write.found (result p image base index) (addrOf index f - base.toNat) f.replace.length).length ≤ i :=
          (List.length_take_le ..).trans (Nat.le_of_not_lt short)
        rw [List.getElem?_eq_none cut, List.getElem?_eq_none (Nat.le_of_not_lt short)]
  · obtain ⟨es, perm, sub⟩ := revert_subperm (p := p)
    have apart : (p.edits.map Edit.inverse).Pairwise fun e f => ¬Overlap index e f := by
      rw [List.pairwise_map]
      apply accepted.clear.imp_of_mem
      intro e f inE inF clear overlap
      refine clear ⟨?_, overlap.2⟩
      obtain ⟨x, first, second⟩ := overlap.1
      refine ⟨x, ?_, ?_⟩
      · have same := (sound e inE).same
        exact ⟨first.1, by rw [← same]; exact first.2⟩
      · have same := (sound f inF).same
        exact ⟨second.1, by rw [← same]; exact second.2⟩
    have symm : ∀ e f : Edit, ¬Overlap index e f → ¬Overlap index f e := by
      rintro e f clear ⟨⟨x, first, second⟩, lowF, lowE⟩
      exact clear ⟨⟨x, second, first⟩, lowE, lowF⟩
    exact (perm.pairwise_iff fun clear => symm _ _ clear).mp (apart.sublist sub)

theorem revert_result (sound : Sound p) (accepted : Accepted p image base index) (agreeing : Agreeing p base index) :
    result p.revert (result p image base index) base index = image := by
  obtain ⟨-, inside, outside⟩ := result_get sound accepted agreeing
  have undone := revert_accepted sound accepted agreeing
  have soundRevert : Sound p.revert := by
    intro e member
    obtain ⟨f, among, rfl⟩ := mem_revert.mp member
    exact (sound f among).inverse
  -- the inverse of an edit writes what the edit expected
  have restores {w : Write UInt8}
      (member : w ∈ (sortByKey Change.key (changes p.revert index)).map (Patch.writeOf base)) :
      ∃ e ∈ p.edits, w = expected base index e := by
    obtain ⟨e, among, rfl⟩ := (mem_writes undone.fits).mp member
    obtain ⟨f, original, rfl⟩ := mem_revert.mp among
    exact ⟨f, original, rfl⟩
  rw [result]
  apply puts_eq (written_fits soundRevert undone.fits)
  · intro v inV w inW x first second
    obtain ⟨e, among, rfl⟩ := restores inV
    obtain ⟨f, among', rfl⟩ := restores inW
    rw [← expected_get (accepted.fits e among) first, ← expected_get (accepted.fits f among') second]
  · intro w member x covers
    obtain ⟨e, among, rfl⟩ := restores member
    exact expected_get (accepted.fits e among) covers
  · intro x none
    have clear : ∀ e ∈ p.edits, ¬(written base index e).Covers x := by
      intro e among covers
      rw [covers_written (sound e among)] at covers
      have inverse : e.inverse ∈ p.revert.edits := mem_revert.mpr ⟨e, among, rfl⟩
      exact none _ ((mem_writes undone.fits).mpr ⟨e.inverse, inverse, rfl⟩) covers
    exact (outside x clear).symm

/-- The image after a set holds exactly the listed changes, one for each edit. -/
structure Written (p : Patch) (image : List UInt8) (base : UInt64) (index : Option AnchorIndex) (applied : PatchModel.Applied)
    (after : List UInt8) : Prop where
  listed : applied.changes.Perm (changes p index)
  bytes : applied.bytes = (applied.changes.map fun c => c.after.length).sum
  length : after.length = image.length
  inside : ∀ c ∈ applied.changes, ∀ x, (Patch.writeOf base c).Covers x → after[x]? = (Patch.writeOf base c).at_ x
  outside : ∀ x, (∀ c ∈ applied.changes, ¬(Patch.writeOf base c).Covers x) → after[x]? = image[x]?

/-- Applying a set is a conflict that leaves the image, or writes the listed
    changes, and then the inverse set restores the image. -/
def Undoable (p : Patch) (image : List UInt8) (base : UInt64) (index : Option AnchorIndex) : Prop :=
  (∃ conflict, p.apply image base index = some (.error conflict, image)) ∨
    ∃ applied after, p.apply image base index = some (.ok applied, after) ∧ Written p image base index applied after ∧
      ∃ again, p.revert.apply after base index = some (.ok again, image)

/-- A set that is accepted although two of its edits write different bytes to
    one place: of any two that overlap one is on the last address. -/
def Clash (p : Patch) (image : List UInt8) (base : UInt64) (index : Option AnchorIndex) : Prop :=
  Accepted p image base index ∧ ∃ e ∈ p.edits, ∃ f ∈ p.edits, ∃ x, (written base index e).Covers x ∧
    (written base index f).Covers x ∧ (written base index e).at_ x ≠ (written base index f).at_ x

theorem not_undoable (sound : Sound p) (clash : Clash p image base index) : ¬Undoable p image base index := by
  obtain ⟨accepted, e, inE, f, inF, x, first, second, differ⟩ := clash
  have applied := apply_accepted sound accepted
  rintro (⟨conflict, refused⟩ | ⟨done, after, applied', whole, -⟩)
  · rw [applied] at refused
    cases refused
  · rw [applied] at applied'
    cases applied'
    obtain ⟨m, changeE⟩ := changes_of_edit inE
    obtain ⟨n, changeF⟩ := changes_of_edit inF
    have one := whole.inside _ (mem_sortByKey Change.key |>.mpr changeE) x
    have two := whole.inside _ (mem_sortByKey Change.key |>.mpr changeF) x
    rw [writeOf_change (accepted.fits e inE).above] at one
    rw [writeOf_change (accepted.fits f inF).above] at two
    exact differ ((one first).symm.trans (two second))

theorem undoable_of_agreeing (sound : Sound p) (accepted : Accepted p image base index)
    (agreeing : Agreeing p base index) : Undoable p image base index := by
  obtain ⟨length, inside, outside⟩ := result_get sound accepted agreeing
  have soundRevert : Sound p.revert := by
    intro e member
    obtain ⟨f, among, rfl⟩ := mem_revert.mp member
    exact (sound f among).inverse
  have again := apply_accepted soundRevert (revert_accepted sound accepted agreeing)
  rw [revert_result sound accepted agreeing] at again
  refine .inr ⟨_, _, apply_accepted sound accepted, ⟨List.mergeSort_perm .., rfl, length, ?_, ?_⟩, _, again⟩
  · intro c member x covers
    obtain ⟨e, among, n, rfl⟩ := mem_changes (mem_sortByKey Change.key |>.mp member)
    rw [writeOf_change (accepted.fits e among).above] at covers ⊢
    exact inside e among x covers
  · intro x none
    apply outside x
    intro e among covers
    obtain ⟨n, member⟩ := changes_of_edit among
    refine none _ (mem_sortByKey Change.key |>.mpr member) ?_
    rw [writeOf_change (accepted.fits e among).above]
    exact covers

/-- A set is applied and taken back unless its edits clash on the last address. -/
theorem undoable_iff (sound : Sound p) (image : List UInt8) (base : UInt64) (index : Option AnchorIndex) :
    Undoable p image base index ↔ ¬Clash p image base index := by
  constructor
  · exact fun undoable clash => not_undoable sound clash undoable
  · intro noClash
    by_cases accepted : Accepted p image base index
    · apply undoable_of_agreeing sound accepted
      intro e inE f inF x first second
      by_contra differ
      exact noClash ⟨accepted, e, inE, f, inF, x, first, second, differ⟩
    · exact .inl (apply_refused sound accepted)
end

def lastAddr : UInt64 := 18446744073709551615

theorem toNat_lastAddr : lastAddr.toNat = 18446744073709551615 := by decide

def lastEdit (replace : UInt8) : Edit := ⟨⟨0, 0, 0, lastAddr, 0⟩, [0], [replace], "", ""⟩

theorem lastEdit_made (replace : UInt8) : Edit.at_ lastAddr [0] [replace] = .ok (lastEdit replace) := rfl

private theorem addrOf_lastEdit (replace : UInt8) : addrOf none (lastEdit replace) = 18446744073709551615 := by
  have place_eq : place (lastEdit replace) none = ((lastEdit replace).addr, .address) := rfl
  have addr_eq : (lastEdit replace).addr = lastAddr := UInt64.add_zero lastAddr
  rw [addrOf, place_eq, addr_eq, toNat_lastAddr]

private theorem offset_lastEdit (replace : UInt8) :
    addrOf none (lastEdit replace) - lastAddr.toNat = 0 := by
  rw [addrOf_lastEdit, toNat_lastAddr]

private theorem lastEdit_matches (replace : UInt8) : Matches lastAddr none (lastEdit replace) [0] := by
  refine ⟨?_, ?_, ?_⟩
  · rw [addrOf_lastEdit, toNat_lastAddr]
  · rw [Fits, expected, offset_lastEdit]
    exact le_refl _
  · rw [offset_lastEdit]
    rfl

private theorem written_lastEdit (replace : UInt8) :
    Covers (written lastAddr none (lastEdit replace)) 0 ∧
      (written lastAddr none (lastEdit replace)).at_ 0 = some replace := by
  rw [written, offset_lastEdit]
  exact ⟨⟨le_refl 0, Nat.one_pos⟩, rfl⟩

private theorem lastEdit_sound (replace : UInt8) : (lastEdit replace).Sound := Edit.new_sound (lastEdit_made replace)

theorem undoable_iff_last : Undoable ⟨[lastEdit 1], "p", none⟩ [0] lastAddr none := by
  have sound : Sound ⟨[lastEdit 1], "p", none⟩ := by
    intro e member
    rw [List.mem_singleton.mp member]
    exact lastEdit_sound 1
  apply (undoable_iff sound [0] lastAddr none).mpr
  rintro ⟨-, e, inE, f, inF, x, -, -, differ⟩
  rw [List.mem_singleton.mp inE, List.mem_singleton.mp inF] at differ
  exact differ rfl

/-- Two edits of the last byte are both applied, and the set cannot be undone. -/
theorem last_byte_clashes : ¬∀ (p : Patch), Sound p → ∀ (image : List UInt8) (base : UInt64) (index : Option AnchorIndex),
    Undoable p image base index := by
  intro every
  have sound : Sound ⟨[lastEdit 1, lastEdit 2], "p", none⟩ := by
    intro e member
    rcases List.mem_cons.mp member with rfl | later
    · exact lastEdit_sound 1
    · rw [List.mem_singleton.mp later]
      exact lastEdit_sound 2
  refine not_undoable sound ?_ (every _ sound [0] lastAddr none)
  obtain ⟨covers, one⟩ := written_lastEdit 1
  obtain ⟨covers', two⟩ := written_lastEdit 2
  refine ⟨⟨?_, ?_⟩, lastEdit 1, by simp, lastEdit 2, by simp, 0, covers, covers', by rw [one, two]; decide⟩
  · intro e member
    rcases List.mem_cons.mp member with rfl | later
    · exact lastEdit_matches 1
    · rw [List.mem_singleton.mp later]
      exact lastEdit_matches 2
  · rw [List.pairwise_pair]
    rintro ⟨-, low, -⟩
    rw [addrOf_lastEdit] at low
    omega

end E5r.PatchApply
