import E5r.AnchorResolution

/-!
Where the assertions of a log land when it is resolved against an index of the
anchors they were made for. The last value of every anchor and field reaches the
address of its anchor, and nothing else lands anywhere, for all logs exactly when
every byte digest belongs to one entry (`placed_iff`).
-/
namespace E5r.AnnotationPlacement
open SortedRecords AnnotationLog AnchorResolution

/-- What is handed to the log for one assertion. -/
structure Request where
  target : Anchor
  field : Field
  value : Option String
  who : String
deriving DecidableEq

def Request.key (w : Request) : Key := keyOf w.target w.field

/-- The log of a sequence of assertions. -/
def written (requests : List Request) : Log :=
  requests.foldl (fun log w => (log.assert w.target w.field w.value w.who).1) Log.new

/-- What an assertion was made from. -/
def request (r : Assertion) : Request := ⟨r.target, r.field, r.value, r.who⟩

def lastAssertion (requests : List Request) (a : Anchor) (field : Field) : Option Request :=
  (requests.filter (fun w => decide (w.target = a ∧ w.field = field))).getLast?

private theorem foldl_foldStep_congr {k : Key} (l : List Assertion) {out out' : State} (same : out[k]? = out'[k]?) :
    (l.foldl foldStep out)[k]? = (l.foldl foldStep out')[k]? := by
  induction l generalizing out out' with
  | nil => exact same
  | cons r rest ih =>
    refine ih ?_
    rw [foldStep_get, foldStep_get, same]

private theorem foldl_foldStep_put {k : Key} {a : Assertion} (other : a.key ≠ k) (l : List Assertion) (out : State) :
    ((put Assertion.place a l).foldl foldStep out)[k]? = (l.foldl foldStep out)[k]? := by
  have skip (out : State) : (foldStep out a)[k]? = out[k]? := by
    rw [foldStep_get, if_neg (fun both => other both.1)]
  induction l generalizing out with
  | nil => exact skip out
  | cons b rest ih =>
    rw [put_cons]
    split
    · exact ih (foldStep out b)
    · exact foldl_foldStep_congr (b :: rest) (skip out)

private theorem written_concat (requests : List Request) (w : Request) :
    written (requests ++ [w]) = ((written requests).assert w.target w.field w.value w.who).1 := by
  simp [written]

private theorem written_clock (requests : List Request) (short : requests.length < 2 ^ 64) :
    (written requests).nextSeq.toNat = requests.length ∧
      ∀ r ∈ (written requests).records, r.seq.toNat < requests.length := by
  induction requests using List.reverseRecOn with
  | nil => simp [written, Log.new]
  | append_singleton requests w ih =>
    rw [List.length_append, List.length_singleton] at short ⊢
    obtain ⟨clock, earlier⟩ := ih (by omega)
    rw [written_concat]
    constructor
    · show ((written requests).nextSeq + 1).toNat = _
      rw [UInt64.toNat_add, clock]
      exact Nat.mod_eq_of_lt short
    · intro r member
      rcases (mem_put _).mp member with rfl | old
      · show (written requests).nextSeq.toNat < _
        omega
      · exact Nat.lt_succ_of_lt (earlier r old)

variable {requests : List Request}

theorem written_fold (short : requests.length ≤ 2 ^ 64) (k : Key) :
    ((written requests).records.foldl foldStep ∅)[k]?.map request =
      (requests.filter (fun w => decide (w.key = k))).getLast? := by
  induction requests using List.reverseRecOn with
  | nil => simp [written, Log.new]
  | append_singleton requests w ih =>
    rw [List.length_append, List.length_singleton] at short
    obtain ⟨clock, earlier⟩ := written_clock requests (by omega)
    rw [written_concat, List.filter_append]
    obtain ⟨a, made⟩ : ∃ a, ((written requests).assert w.target w.field w.value w.who).2 = a := ⟨_, rfl⟩
    have parts : a.seq = (written requests).nextSeq ∧ a.key = w.key ∧ request a = w := by
      subst made
      exact ⟨rfl, rfl, rfl⟩
    have records : ((written requests).assert w.target w.field w.value w.who).1.records =
        put Assertion.place a (written requests).records := by
      subst made
      rfl
    rw [records]
    by_cases same : w.key = k
    · subst same
      have won : ((put Assertion.place a (written requests).records).foldl foldStep ∅)[a.key]? = some a := by
        refine foldl_foldStep_newest _ ∅ (.inr ⟨(mem_put _).mpr (.inl rfl), by simp⟩) (fun r member _ => ?_)
        rcases (mem_put _).mp member with first | old
        · exact .inl first
        · refine .inr (Assertion.clock_lt_of_seq (UInt64.lt_iff_toNat_lt.mpr ?_))
          rw [parts.1, clock]
          exact earlier r old
      rw [← parts.2.1, won]
      simp [parts]
    · rw [foldl_foldStep_put (by rwa [parts.2.1]), ih (by omega)]
      simp [same]

variable {anchors : List Anchor}

theorem mem_apply_written (short : requests.length ≤ 2 ^ 64) (indexed : ∀ w ∈ requests, w.target ∈ anchors)
    {addr : UInt64} {field : Field} {value : String} :
    (∃ e ∈ apply (written requests) (build anchors), e.addr = addr ∧ e.field = field ∧ e.value = value) ↔
      ∃ w found, (requests.filter (fun v => decide (v.key = w.key))).getLast? = some w ∧ w.value = some value ∧
        w.field = field ∧ IsFirst anchors w.target.bytes found ∧ target found + w.target.offset.toUInt64 = addr := by
  have folded (k : Key) (r : Assertion) : (written requests).fold[k]? = some r ↔
      ((written requests).records.foldl foldStep ∅)[k]? = some r ∧ r.value.isSome = true := by
    rw [Log.fold, Std.ExtTreeMap.getElem?_filter]
    simp
  have last {k : Key} {r : Assertion} (held : ((written requests).records.foldl foldStep ∅)[k]? = some r) :
      (requests.filter (fun v => decide (v.key = k))).getLast? = some (request r) := by
    rw [← written_fold short k, held]
    rfl
  have requested {k : Key} {w : Request}
      (held : (requests.filter (fun v => decide (v.key = k))).getLast? = some w) : w ∈ requests ∧ w.key = k := by
    simpa using List.mem_filter.mp (List.mem_of_getLast? held)
  rw [mem_apply]
  · constructor
    · rintro ⟨k, r, found, held, first, rfl, rfl, rfl⟩
      obtain ⟨won, kept⟩ := (folded k r).mp held
      obtain ⟨v, value⟩ := Option.isSome_iff_exists.mp kept
      have key : (request r).key = k := (requested (last won)).2
      refine ⟨request r, found, by rw [key]; exact last won, ?_, rfl, first, rfl⟩
      simp [request, value]
    · rintro ⟨w, found, held, same, rfl, first, rfl⟩
      rw [← written_fold short] at held
      obtain ⟨r, won, rfl⟩ := Option.map_eq_some_iff.mp held
      have kept : r.value = some value := same
      exact ⟨_, r, found, (folded _ r).mpr ⟨won, by simp [kept]⟩, first, rfl, rfl, by simp [kept]⟩
  · intro k r held
    exact indexed _ (requested (last ((folded k r).mp held).1)).1

/-- The last value of every anchor and field stands at the address of its anchor,
    and no value stands anywhere else. -/
def Placed (anchors : List Anchor) (requests : List Request) : Prop :=
  ∀ addr field value,
    (∃ e ∈ apply (written requests) (build anchors), e.addr = addr ∧ e.field = field ∧ e.value = value) ↔
      ∃ a ∈ anchors, target a = addr ∧ ∃ w, lastAssertion requests a field = some w ∧ w.value = some value

/-- No two anchors are at the same entry and offset. -/
def DistinctAddresses (anchors : List Anchor) : Prop :=
  ∀ a ∈ anchors, ∀ b ∈ anchors, a.abs = b.abs → a.offset = b.offset → a = b

/-- The anchors with one byte digest share their entry, and the first of them is
    at its start. -/
def OneEntryPerBody (anchors : List Anchor) : Prop :=
  (∀ a ∈ anchors, ∀ b ∈ anchors, a.bytes = b.bytes → a.abs = b.abs) ∧
    ∀ a ∈ anchors, IsFirst anchors a.bytes a → a.offset = 0

private theorem target_of_zero {a : Anchor} (zero : a.offset = 0) : target a = a.abs := by
  simp [target, zero]

theorem key_injective (distinct : DistinctAddresses anchors) (one : OneEntryPerBody anchors) {v w : Request}
    (inV : v.target ∈ anchors) (inW : w.target ∈ anchors) :
    v.key = w.key ↔ v.target = w.target ∧ v.field = w.field := by
  constructor
  · intro same
    simp only [Request.key, keyOf, Anchor.identity, Key.mk.injEq] at same
    obtain ⟨-, bytes, -, offset, field⟩ := same
    exact ⟨distinct _ inV _ inW (one.1 _ inV _ inW bytes) offset, field⟩
  · rintro ⟨target, field⟩
    rw [Request.key, Request.key, target, field]

theorem placed_of_oneEntryPerBody (distinct : DistinctAddresses anchors) (one : OneEntryPerBody anchors)
    (short : requests.length ≤ 2 ^ 64) (indexed : ∀ w ∈ requests, w.target ∈ anchors) : Placed anchors requests := by
  have filters {w : Request} (inside : w.target ∈ anchors) :
      requests.filter (fun v => decide (v.key = w.key)) =
        requests.filter (fun v => decide (v.target = w.target ∧ v.field = w.field)) := by
    apply List.filter_congr
    intro v member
    exact decide_eq_decide.mpr (key_injective distinct one (indexed v member) inside)
  have lands {a found : Anchor} (member : a ∈ anchors) (first : IsFirst anchors a.bytes found) :
      target found + a.offset.toUInt64 = target a := by
    have start := target_of_zero (one.2 found first.1.1 (by rw [first.1.2]; exact first))
    rw [start, one.1 found first.1.1 a member first.1.2]
    rfl
  intro addr field value
  rw [mem_apply_written short indexed]
  constructor
  · rintro ⟨w, found, held, value, rfl, first, rfl⟩
    have inside := indexed w (List.mem_filter.mp (List.mem_of_getLast? held)).1
    exact ⟨w.target, inside, (lands inside first).symm, w, by rwa [lastAssertion, ← filters inside], value⟩
  · rintro ⟨a, member, rfl, w, held, value⟩
    obtain ⟨rfl, rfl⟩ : w.target = a ∧ w.field = field := by
      simpa using (List.mem_filter.mp (List.mem_of_getLast? held)).2
    obtain ⟨found, first, -⟩ := resolve_exact ⟨w.target, member, rfl⟩
    exact ⟨w, found, by rwa [filters member], value, rfl, first, lands member first⟩

private theorem target_first
    (placed : ∀ requests : List Request, requests.length ≤ 2 ^ 64 → (∀ w ∈ requests, w.target ∈ anchors) →
      Placed anchors requests) {a found : Anchor} (member : a ∈ anchors) (first : IsFirst anchors a.bytes found) :
    target found = a.abs := by
  have short : [(⟨a, .name, some "x", ""⟩ : Request)].length ≤ 2 ^ 64 := by simp
  have indexed : ∀ w ∈ [(⟨a, .name, some "x", ""⟩ : Request)], w.target ∈ anchors := by simpa using member
  have lands := (placed _ short indexed (target found + a.offset.toUInt64) .name "x").mp
    ((mem_apply_written short indexed).mpr
      ⟨⟨a, .name, some "x", ""⟩, found, by simp, rfl, rfl, first, rfl⟩)
  obtain ⟨b, -, there, w, held, -⟩ := lands
  have same : a = b := by
    by_contra other
    simp [lastAssertion, other] at held
  subst same
  exact ((UInt64.add_left_inj a.offset.toUInt64).mp there).symm

/-- All logs put every last value at the address of its anchor, and nothing
    elsewhere, exactly when each body has one entry. -/
theorem placed_iff {anchors : List Anchor} (distinct : DistinctAddresses anchors) :
    (∀ requests : List Request, requests.length ≤ 2 ^ 64 → (∀ w ∈ requests, w.target ∈ anchors) →
      Placed anchors requests) ↔ OneEntryPerBody anchors := by
  constructor
  · intro placed
    constructor
    · intro a inA b inB same
      obtain ⟨found, first, -⟩ := resolve_exact ⟨a, inA, rfl⟩
      rw [← target_first placed inA first, ← target_first placed inB (same ▸ first)]
    · intro a member first
      have start : a.abs + a.offset.toUInt64 = a.abs + 0 := by
        rw [UInt64.add_zero]
        exact target_first placed member first
      have zero := UInt64.toNat_inj.mpr ((UInt64.add_right_inj a.abs).mp start)
      exact UInt32.toNat_inj.mp (by simpa using zero)
  · intro one requests short indexed
    exact placed_of_oneEntryPerBody distinct one short indexed

/-- Two functions with different bytes keep their names apart. -/
theorem different_bodies_placed :
    Placed [⟨1, 2, 4, 0x1000, 0⟩, ⟨1, 3, 4, 0x2000, 0⟩]
      [⟨⟨1, 2, 4, 0x1000, 0⟩, .name, some "first", "ann"⟩, ⟨⟨1, 3, 4, 0x2000, 0⟩, .name, some "second", "ann"⟩] := by
  refine (placed_iff ?_).mpr ⟨by decide, ?_⟩ _ (by simp) (by decide)
  · unfold DistinctAddresses
    decide
  · intro a member _
    have zero : ∀ a ∈ [(⟨1, 2, 4, 0x1000, 0⟩ : Anchor), ⟨1, 3, 4, 0x2000, 0⟩], a.offset = 0 := by decide
    exact zero a member

/-- Two functions with the same bytes. -/
def twins : List Anchor := [⟨1, 2, 4, 0x1000, 0⟩, ⟨1, 2, 4, 0x2000, 0⟩]

/-- A name for each of them. -/
def twinNames : List Request :=
  [⟨⟨1, 2, 4, 0x1000, 0⟩, .name, some "first", "ann"⟩, ⟨⟨1, 2, 4, 0x2000, 0⟩, .name, some "second", "ann"⟩]

/-- The name of the second function lands on the first one, whose own name is
    lost. -/
theorem twins_lose_a_name :
    DistinctAddresses twins ∧ (∀ w ∈ twinNames, w.target ∈ twins) ∧
      (∃ e ∈ apply (written twinNames) (build twins), e.addr = 0x1000 ∧ e.field = .name ∧ e.value = "second") ∧
      ¬Placed twins twinNames := by
  have indexed : ∀ w ∈ twinNames, w.target ∈ twins := by decide
  have short : twinNames.length ≤ 2 ^ 64 := by simp [twinNames]
  refine ⟨?_, indexed, (mem_apply_written short indexed).mpr ?_, ?_⟩
  · unfold DistinctAddresses
    decide
  · refine ⟨⟨⟨1, 2, 4, 0x2000, 0⟩, .name, some "second", "ann"⟩, ⟨1, 2, 4, 0x1000, 0⟩, by decide, rfl, rfl, ?_, by decide⟩
    unfold IsFirst
    decide
  · intro placed
    have lands := (placed 0x1000 .name "first").mpr ⟨⟨1, 2, 4, 0x1000, 0⟩, by decide, by decide, _, rfl, rfl⟩
    obtain ⟨w, -, last, value, -⟩ := (mem_apply_written short indexed).mp lands
    have second : ∀ w ∈ twinNames,
        (twinNames.filter (fun v => decide (v.key = w.key))).getLast? = some w → w.value ≠ some "first" := by decide
    exact second w (List.mem_filter.mp (List.mem_of_getLast? last)).1 last value

end E5r.AnnotationPlacement
