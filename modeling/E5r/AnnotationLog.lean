import Mathlib.Data.Prod.Lex
import Mathlib.Data.UInt
import Std.Data.ExtTreeMap
import E5r.RustText
import E5r.SortedRecords

/-!
The annotation log: assertions about locations of a binary, kept sorted by
content id and sequence number, with the last writer winning (`Log.fold`). Two
copies are brought together by `Log.merge`, which recognizes a record it already
holds by its id and sequence number alone. Sequence numbers are 64-bit and their
additions wrap, as the release profile compiles them.
-/
namespace E5r.AnnotationLog
open SortedRecords

/-- A stable identity for one location. -/
structure Anchor where
  shape : UInt64
  bytes : UInt64
  insns : UInt32
  abs : UInt64
  offset : UInt32
deriving DecidableEq

def Anchor.identity (a : Anchor) : UInt64 × UInt64 × UInt32 × UInt32 := (a.shape, a.bytes, a.insns, a.offset)

/-- The 64-bit hash of anchors and content ids. -/
structure Fnv where
  digest : UInt64

namespace Fnv
def OFFSET : UInt64 := 0xcbf29ce484222325
def PRIME : UInt64 := 0x100000001b3
def new : Fnv := ⟨OFFSET⟩
def byte (h : Fnv) (b : UInt8) : Fnv := ⟨(h.digest ^^^ b.toUInt64) * PRIME⟩
def slice (h : Fnv) (s : List UInt8) : Fnv := s.foldl byte h
/-- Folds a 64-bit value in, lowest byte first. -/
def u64 (h : Fnv) (v : UInt64) : Fnv :=
  h.slice ((List.range 8).map (fun i => UInt8.ofNat (v.toNat >>> (8 * i))))
end Fnv

/-- `str::as_bytes`. -/
def asBytes (s : String) : List UInt8 := s.toList.flatMap String.utf8EncodeChar

inductive Field where
  | name
  | type
  | comment
deriving DecidableEq

def Field.tag : Field → UInt8
  | .name => 0
  | .type => 1
  | .comment => 2

def Field.parse (s : List Char) : Option Field :=
  if s = "name".toList then some .name
  else if s = "type".toList then some .type
  else if s = "comment".toList then some .comment
  else none

/-- What a fold groups assertions by. -/
structure Key where
  shape : UInt64
  bytes : UInt64
  insns : UInt32
  offset : UInt32
  field : Field
deriving DecidableEq

/-- The components of a key as numbers, compared from left to right. -/
def Key.rank (k : Key) : ℕ ×ₗ ℕ ×ₗ ℕ ×ₗ ℕ ×ₗ ℕ :=
  toLex (k.shape.toNat, toLex (k.bytes.toNat, toLex (k.insns.toNat, toLex (k.offset.toNat, k.field.tag.toNat))))

theorem Key.rank_injective : Function.Injective Key.rank := by
  have tags : ∀ f g : Field, f.tag.toNat = g.tag.toNat → f = g := by
    intro f g
    cases f <;> cases g <;> decide
  rintro ⟨s, b, i, o, f⟩ ⟨s', b', i', o', f'⟩ same
  simp only [Key.rank, EmbeddingLike.apply_eq_iff_eq, Prod.mk.injEq, UInt64.toNat_inj,
    UInt32.toNat_inj] at same
  obtain ⟨rfl, rfl, rfl, rfl, sameTag⟩ := same
  rw [tags f f' sameTag]

/-- The identity of a location together with a field. -/
def keyOf (target : Anchor) (field : Field) : Key :=
  let (shape, bytes, insns, offset) := target.identity
  ⟨shape, bytes, insns, offset, field⟩

instance : LinearOrder Key := LinearOrder.lift' Key.rank Key.rank_injective
instance : Std.LawfulEqOrd Key := ⟨compare_eq_iff_eq.mp⟩
instance : Std.TransOrd Key := inferInstance

/-- One edit to one field of one location. The value `none` clears the field. -/
structure Assertion where
  target : Anchor
  field : Field
  value : Option String
  seq : UInt64
  id : UInt64
  who : String
deriving DecidableEq

namespace Assertion

def contentId (target : Anchor) (field : Field) (value : Option String) (seq : UInt64) (who : String) : UInt64 :=
  let (shape, bytes, insns, offset) := target.identity
  let h := ((((Fnv.new.u64 shape).u64 bytes).u64 insns.toUInt64).u64 offset.toUInt64).u64 target.abs
  let h := (((h.byte 0xff).byte field.tag).u64 seq).byte 0xfe
  let h := (h.slice (asBytes who)).byte 0xfd
  match value with
  | some v => ((h.byte 1).slice (asBytes v)).digest
  | none => (h.byte 0).digest

def key (a : Assertion) : Key := keyOf a.target a.field

/-- The order on disk: content id first, then sequence number. -/
def place (a : Assertion) : ℕ ×ₗ ℕ := toLex (a.id.toNat, a.seq.toNat)

/-- The order of writing: sequence number first, then content id. -/
def clock (a : Assertion) : ℕ ×ₗ ℕ := toLex (a.seq.toNat, a.id.toNat)

theorem clock_lt_of_seq {a b : Assertion} (less : a.seq < b.seq) : a.clock < b.clock :=
  Prod.Lex.toLex_lt_toLex.mpr (.inl (UInt64.lt_iff_toNat_lt.mp less))

end Assertion

/-- Everything written about one binary. The undone assertions stand newest
    last. -/
structure Log where
  records : List Assertion
  nextSeq : UInt64
  redoStack : List Assertion
  binary : Option String
deriving DecidableEq

abbrev State := Std.ExtTreeMap Key Assertion

/-- The largest successor of a sequence number, or zero for no records. -/
def ceiling (records : List Assertion) : UInt64 :=
  (records.map (fun r => r.seq + 1)).foldl max 0

/-- The index of the last record among those with the greatest clock. -/
def newestIndex (records : List Assertion) : Option ℕ :=
  (records.zipIdx.foldl (fun best (r, i) =>
    match best with
    | some (b, j) => if b.clock ≤ r.clock then some (r, i) else some (b, j)
    | none => some (r, i)) none).map (fun (_, i) => i)

/-- One record meets the winners so far: it takes its place unless the winner
    of its key has the same clock or a later one. -/
def foldStep (out : State) (r : Assertion) : State :=
  match out[r.key]? with
  | some prev => if prev.clock ≥ r.clock then out else out.insert r.key r
  | none => out.insert r.key r

namespace Log

def new : Log := ⟨[], 0, [], none⟩

/-- Records an assertion, which ends what can be redone. -/
def assert (log : Log) (target : Anchor) (field : Field) (value : Option String) (who : String) :
    Log × Assertion :=
  let seq := log.nextSeq
  let id := Assertion.contentId target field value seq who
  let a : Assertion := ⟨target, field, value, seq, id, who⟩
  ({ log with records := put Assertion.place a log.records, nextSeq := seq + 1, redoStack := [] }, a)

/-- Takes back the newest assertion. -/
def undo (log : Log) : Log × Option Assertion :=
  match newestIndex log.records with
  | none => (log, none)
  | some i =>
    match log.records[i]? with
    | none => (log, none)
    | some a => ({ log with records := log.records.eraseIdx i, redoStack := log.redoStack ++ [a] }, some a)

/-- Puts back the assertion undone last. -/
def redo (log : Log) : Log × Option Assertion :=
  match log.redoStack.getLast? with
  | none => (log, none)
  | some a =>
    ({ log with records := put Assertion.place a log.records, redoStack := log.redoStack.dropLast }, some a)

/-- The winning assertion of every location and field that is not cleared. -/
def fold (log : Log) : State :=
  (log.records.foldl foldStep ∅).filter (fun _ r => r.value.isSome)

/-- Takes over the records of another log that are not held yet. -/
def merge (log other : Log) : Log :=
  let records := absorb Assertion.place log.records other.records
  { log with records, nextSeq := max (ceiling records) log.nextSeq }

end Log

private theorem foldl_max_le (ns : List UInt64) (start : UInt64) :
    start.toNat ≤ (ns.foldl max start).toNat ∧ ∀ n ∈ ns, n.toNat ≤ (ns.foldl max start).toNat := by
  induction ns generalizing start with
  | nil => simp
  | cons n rest ih =>
    obtain ⟨first, later⟩ := ih (max start n)
    rw [UInt64.toNat_max] at first
    refine ⟨by simp only [List.foldl_cons]; omega, fun m member => ?_⟩
    rcases List.mem_cons.mp member with rfl | inside
    · simp only [List.foldl_cons]
      omega
    · exact later m inside

theorem le_ceiling {r : Assertion} {records : List Assertion} (member : r ∈ records) :
    (r.seq + 1).toNat ≤ (ceiling records).toNat :=
  (foldl_max_le _ 0).2 _ (List.mem_map.mpr ⟨r, member, rfl⟩)

private theorem foldl_max_mem (ns : List UInt64) (start : UInt64) :
    ns.foldl max start = start ∨ ns.foldl max start ∈ ns := by
  induction ns generalizing start with
  | nil => exact .inl rfl
  | cons n rest ih =>
    rcases ih (max start n) with first | later
    · have either : max start n = start ∨ max start n = n := by
        rcases Nat.le_total start.toNat n.toNat with below | above
        · exact .inr (UInt64.toNat_inj.mp (by rw [UInt64.toNat_max]; omega))
        · exact .inl (UInt64.toNat_inj.mp (by rw [UInt64.toNat_max]; omega))
      rw [List.foldl_cons, first]
      rcases either with same | same
      · exact .inl same
      · exact .inr (by rw [same]; exact List.mem_cons_self)
    · exact .inr (List.mem_cons_of_mem _ later)

theorem ceiling_cases (records : List Assertion) :
    ceiling records = 0 ∨ ∃ r ∈ records, ceiling records = r.seq + 1 := by
  rcases foldl_max_mem (records.map (fun r => r.seq + 1)) 0 with zero | found
  · exact .inl zero
  · obtain ⟨r, member, equal⟩ := List.mem_map.mp found
    exact .inr ⟨r, member, equal.symm⟩

theorem ceiling_mono {small large : List Assertion} (subset : ∀ r ∈ small, r ∈ large) :
    (ceiling small).toNat ≤ (ceiling large).toNat := by
  rcases ceiling_cases small with zero | ⟨r, member, equal⟩
  · rw [zero]
    exact Nat.zero_le _
  · rw [equal]
    exact le_ceiling (subset r member)

theorem undo_cases (log : Log) : log.undo.1 = log ∨ ∃ i a, log.records[i]? = some a ∧
    log.undo.1 = { log with records := log.records.eraseIdx i, redoStack := log.redoStack ++ [a] } := by
  rw [Log.undo]
  split
  · exact .inl rfl
  next i found =>
    split
    · exact .inl rfl
    next a held => exact .inr ⟨i, a, held, rfl⟩

theorem redo_cases (log : Log) : (log.redoStack = [] ∧ log.redo.1 = log) ∨
    ∃ a, log.redoStack.getLast? = some a ∧ log.redo.1 =
      { log with records := put Assertion.place a log.records, redoStack := log.redoStack.dropLast } := by
  rw [Log.redo]
  split
  next none => exact .inl ⟨List.getLast?_eq_none_iff.mp none, rfl⟩
  next a top => exact .inr ⟨a, top, rfl⟩

theorem foldStep_get (out : State) (r : Assertion) (k : Key) :
    (foldStep out r)[k]? = if r.key = k ∧ (∀ prev, out[k]? = some prev → prev.clock < r.clock) then some r
      else out[k]? := by
  rw [foldStep]
  by_cases same : r.key = k
  · subst same
    cases held : out[r.key]? with
    | none => simp
    | some prev =>
      by_cases later : prev.clock ≥ r.clock
      · simp [later, held, not_lt.mpr later]
      · simp [later, not_le.mp later]
  · cases held : out[r.key]? with
    | none => simp [Std.ExtTreeMap.getElem?_insert, same]
    | some prev =>
      by_cases later : prev.clock ≥ r.clock
      · simp [later, same]
      · simp [later, Std.ExtTreeMap.getElem?_insert, same]

/-- A record that is later than every other record of its key wins. -/
theorem foldl_foldStep_newest {a : Assertion} (records : List Assertion) (out : State)
    (before : out[a.key]? = some a ∨
      a ∈ records ∧ ∀ prev, out[a.key]? = some prev → prev.clock < a.clock)
    (newest : ∀ r ∈ records, r.key = a.key → r = a ∨ r.clock < a.clock) :
    (records.foldl foldStep out)[a.key]? = some a := by
  induction records generalizing out with
  | nil =>
    rcases before with held | ⟨inside, -⟩
    · exact held
    · simp at inside
  | cons r rest ih =>
    refine ih (foldStep out r) ?_ (fun x member => newest x (List.mem_cons_of_mem _ member))
    rw [foldStep_get]
    rcases before with held | ⟨inside, smaller⟩
    · by_cases same : r.key = a.key
      · rcases newest r List.mem_cons_self same with rfl | less
        · simp [held]
        · simp [held, same, not_lt.mpr (le_of_lt less)]
      · simp [same, held]
    · by_cases first : r = a
      · subst first
        exact .inl (if_pos ⟨rfl, smaller⟩)
      · refine .inr ⟨List.mem_of_ne_of_mem (Ne.symm first) inside, fun prev held => ?_⟩
        split at held
        next taken =>
          obtain rfl : r = prev := by simpa using held
          exact (newest r List.mem_cons_self taken.1).resolve_left first
        next => exact smaller prev held

end E5r.AnnotationLog
