import Mathlib.Data.List.TakeWhile
import E5r.CfgModel
import E5r.MemoryModel
import E5r.ProbeTable

/-!
The table of the distinct basic blocks of a program. Blocks are interned: an index by
open addressing leads from a block to its id, and an id leads through sealed chunks, or
the entries that are still open, back to the block. Whatever the order in which
functions are installed and published, an id names one block for good.
-/
namespace E5r.BlockInterner
open SortedRecords MemoryModel ProbeTable
open CfgModel (Terminator)

/-- One straight-line run of instructions. -/
structure Block where
  range : AddrRange
  successors : List ℕ
  insns : ℕ
  unresolved : Bool
  terminator : Terminator
deriving DecidableEq

/-- A block and the address it starts at. -/
structure Entry where
  at_ : ℕ
  block : Block
deriving DecidableEq

/-! ### Chunked tables -/

/-- The entry of an id: the chunk is the last that starts at the id or before it. -/
def chunkEntry (chunks : List (List Entry)) (starts : List ℕ) (id : ℕ) : Option Entry :=
  match partitionPoint (fun s => decide (s ≤ id)) starts with
  | 0 => none
  | c + 1 => (chunks[c]?).bind fun chunk => chunk[id - starts.getD c 0]?

/-- Every distinct basic block of one program, held once. -/
structure BlockTable where
  chunks : List (List Entry)
  starts : List ℕ
deriving DecidableEq

def BlockTable.empty : BlockTable := ⟨[], []⟩
def BlockTable.entry (t : BlockTable) (id : ℕ) : Option Entry := chunkEntry t.chunks t.starts id

/-- The blocks of one function: ids into a table, in address order. -/
structure Blocks where
  table : BlockTable
  ids : List ℕ
deriving DecidableEq

def Blocks.get (b : Blocks) (at_ : ℕ) : Option Block := do
  let pos := partitionPoint (fun id => (b.table.entry id).any fun e => decide (e.at_ < at_)) b.ids
  let id ← b.ids[pos]?
  let e ← b.table.entry id
  if e.at_ = at_ then some e.block else none

/-- Blocks with their start addresses. An id without an entry is skipped. -/
def Blocks.iter (b : Blocks) : List Entry := b.ids.filterMap b.table.entry

/-! ### The interner -/

/-- The vacant slot of the index. -/
def noId : ℕ := 2 ^ 32 - 1

def terminatorCode : Terminator → ℕ
  | .flow => 0
  | .ret => 1
  | .tailCall => 2
  | .noReturnCall => 3
  | .trap => 4
  | .unresolved => 5

def mix (h : BitVec 64) (v : ℕ) : BitVec 64 := (h ^^^ BitVec.ofNat 64 v) * 0x100000001b3

def hashBlock (e : Entry) : BitVec 64 :=
  let h := mix 0xcbf29ce484222325 e.at_
  let h := mix h e.block.range.stop
  let h := mix h e.block.insns
  let h := mix h (e.block.unresolved.toNat ||| terminatorCode e.block.terminator <<< 1)
  e.block.successors.foldl mix h

/-- Builds a table, collapsing blocks that are identical. Entries are open until they are
    sealed into a chunk; `sealed` is the first id of the open ones. -/
structure Interner where
  chunks : List (List Entry)
  starts : List ℕ
  open_ : List Entry
  sealed : ℕ
  slots : List ℕ
  filled : ℕ
deriving DecidableEq

namespace Interner

def default : Interner := ⟨[], [], [], 0, List.replicate 1024 noId, 0⟩

def entry (s : Interner) (id : ℕ) : Option Entry :=
  if s.sealed ≤ id then s.open_[id - s.sealed]? else chunkEntry s.chunks s.starts id

def hashId (s : Interner) (id : ℕ) : ℕ := ((s.entry id).map fun e => (hashBlock e).toNat).getD 0

/-- Enter every id anew into twice the slots. -/
def grow (s : Interner) : Option Interner :=
  (enterAll noId s.hashId (List.replicate (s.slots.length * 2) noId)
    (s.slots.filter fun id => decide (id ≠ noId) && (s.entry id).isSome)).map fun slots => { s with slots }

/-- Give an entry the id that a walk found, or the next one in the slot where it stopped. -/
def settle (s : Interner) (e : Entry) : Probe → ℕ × Interner
  | .found id => (id, s)
  | .vacant i =>
    let id := (s.sealed + s.open_.length % 2 ^ 32) % 2 ^ 32
    (id, { s with open_ := s.open_ ++ [e], slots := s.slots.set i id, filled := s.filled + 1 })

/-- The id of an entry. None if a walk through the index does not end. -/
def intern (s : Interner) (e : Entry) : Option (ℕ × Interner) := do
  let s ← (if s.slots.length * 3 ≤ (s.filled + 1) * 4 then s.grow else some s)
  let p ← walk noId s.slots (fun id => decide (s.entry id = some e)) (s.slots.length + 1)
    ((hashBlock e).toNat &&& (s.slots.length - 1))
  some (s.settle e p)

def internAll (s : Interner) : List Entry → Option (List ℕ × Interner)
  | [] => some ([], s)
  | e :: rest => do
    let (id, s) ← s.intern e
    let (ids, s) ← s.internAll rest
    some (id :: ids, s)

/-- Intern one walked function's blocks. The table it names is not published yet. -/
def install (s : Interner) (blocks : List Entry) : Option (Blocks × Interner) := do
  let (ids, s) ← s.internAll blocks
  some (⟨.empty, ids⟩, s)

/-- Close what has been interned into a chunk. -/
def seal_ (s : Interner) : BlockTable × Interner :=
  let s :=
    if s.open_.isEmpty then s
    else
      { s with
        chunks := s.chunks ++ [s.open_], starts := s.starts ++ [s.sealed], open_ := [],
        sealed := (s.sealed + s.open_.length % 2 ^ 32) % 2 ^ 32 }
  (⟨s.chunks, s.starts⟩, s)

/-- Every entry, in the order of the ids. -/
def entries (s : Interner) : List Entry := s.chunks.flatten ++ s.open_

end Interner

/-! ### Sequences of calls -/

/-- A call: a function's blocks are installed, or some of the functions that were, by
    their order of installation, are given the table. -/
inductive Call where
  | install (blocks : List Entry)
  | publish (which : List ℕ)
deriving DecidableEq

/-- The interner, and the functions that were installed. -/
structure World where
  interner : Interner
  functions : List Blocks
deriving DecidableEq

def World.step (w : World) : Call → Option World
  | .install blocks => do
    let (b, interner) ← w.interner.install blocks
    some ⟨interner, w.functions ++ [b]⟩
  | .publish which =>
    let (table, interner) := w.interner.seal_
    some ⟨interner, w.functions.mapIdx fun k b => if k ∈ which then { b with table } else b⟩

def run (calls : List Call) : Option World := calls.foldlM World.step ⟨.default, []⟩

def installs (calls : List Call) : List (List Entry) :=
  calls.filterMap fun c => match c with
    | .install blocks => some blocks
    | .publish _ => none

/-- Some call published the function with this place in the order of installation. -/
def Published (calls : List Call) (k : ℕ) : Prop :=
  ∃ before which after, calls = before ++ .publish which :: after ∧ k ∈ which ∧ k < (installs before).length

/-! ### Ids through chunks -/

/-- Where chunks start that follow each other from an id on. -/
def startsFrom : ℕ → List (List Entry) → List ℕ
  | _, [] => []
  | n, chunk :: rest => n :: startsFrom (n + chunk.length) rest

theorem startsFrom_append (n : ℕ) (chunks : List (List Entry)) (chunk : List Entry) :
    startsFrom n (chunks ++ [chunk]) = startsFrom n chunks ++ [n + chunks.flatten.length] := by
  induction chunks generalizing n with
  | nil => rfl
  | cons first rest ih =>
    rw [List.cons_append, startsFrom, ih, startsFrom, List.flatten_cons, List.length_append, List.cons_append, Nat.add_assoc]

theorem chunkEntry_eq (chunks : List (List Entry)) (id : ℕ) :
    chunkEntry chunks (startsFrom 0 chunks) id = chunks.flatten[id]? := by
  have found : ∀ n, n ≤ id → chunks ≠ [] → ∃ c, partitionPoint (fun s => decide (s ≤ id)) (startsFrom n chunks) = c + 1 ∧
      (chunks[c]?).bind (fun chunk => chunk[id - (startsFrom n chunks).getD c 0]?) = chunks.flatten[id - n]? := by
    induction chunks with
    | nil => exact fun n _ nonempty => absurd rfl nonempty
    | cons first rest ih =>
      intro n low _
      by_cases beyond : rest ≠ [] ∧ n + first.length ≤ id
      · obtain ⟨c, point, value⟩ := ih (n + first.length) beyond.2 beyond.1
        refine ⟨c + 1, ?_, ?_⟩
        · rw [startsFrom, partitionPoint, List.takeWhile_cons_of_pos (by simpa using low), List.length_cons]
          exact congrArg Nat.succ point
        · rw [List.getElem?_cons_succ, startsFrom, List.getD_cons_succ, value, List.flatten_cons,
            List.getElem?_append_right (by omega)]
          congr 1
          omega
      · have stops : partitionPoint (fun s => decide (s ≤ id)) (startsFrom (n + first.length) rest) = 0 := by
          rw [partitionPoint]
          cases rest with
          | nil => rfl
          | cons second rest =>
            have before : ¬n + first.length ≤ id := fun behind => beyond ⟨List.cons_ne_nil _ _, behind⟩
            rw [startsFrom, List.takeWhile_cons_of_neg (by simpa using before)]
            rfl
        refine ⟨0, ?_, ?_⟩
        · rw [startsFrom, partitionPoint, List.takeWhile_cons_of_pos (by simpa using low), List.length_cons]
          exact congrArg Nat.succ stops
        · show first[id - n]? = _
          rw [List.flatten_cons]
          by_cases inside : id - n < first.length
          · rw [List.getElem?_append_left inside]
          · have last : rest = [] := by
              by_contra more
              exact beyond ⟨more, by omega⟩
            rw [last, List.flatten_nil, List.append_nil]
  rw [chunkEntry]
  cases chunks with
  | nil => rfl
  | cons first rest =>
    obtain ⟨c, point, value⟩ := found 0 (Nat.zero_le _) (List.cons_ne_nil _ _)
    rw [point]
    exact value

/-! ### What an interner keeps true -/

def hashOf (entries : List Entry) (id : ℕ) : ℕ := ((entries[id]?).map fun e => (hashBlock e).toNat).getD 0

/-- The entries are distinct, fewer than the ids, and all of them are in the index. -/
structure Sound (s : Interner) : Prop where
  starts : s.starts = startsFrom 0 s.chunks
  sealed : s.sealed = s.chunks.flatten.length
  small : s.entries.length < 2 ^ 32
  distinct : s.entries.Nodup
  size : ∃ k, s.slots.length = 2 ^ k
  indexed : Indexed noId (hashOf s.entries) s.slots (List.range s.entries.length)
  filled : s.filled = s.entries.length
  load : s.filled * 4 < s.slots.length * 3

theorem sound_default : Sound .default := by
  have slots : Interner.default.slots.length = 1024 := List.length_replicate
  refine ⟨rfl, rfl, by decide, .nil, ⟨10, slots.trans (by decide)⟩, indexed_vacant 1024, rfl, ?_⟩
  rw [slots]
  decide

variable {s : Interner}

theorem Sound.entry_eq (sound : Sound s) (id : ℕ) : s.entry id = s.entries[id]? := by
  rw [Interner.entry, Interner.entries]
  by_cases closed : s.sealed ≤ id
  · rw [if_pos closed, sound.sealed, List.getElem?_append_right (by rw [← sound.sealed]; exact closed)]
  · rw [if_neg closed, sound.starts, chunkEntry_eq, List.getElem?_append_left (by rw [← sound.sealed]; omega)]

theorem Sound.hashId_eq (sound : Sound s) : s.hashId = hashOf s.entries := by
  funext id
  rw [Interner.hashId, sound.entry_eq, hashOf]

theorem noId_fresh {n : ℕ} (small : n < 2 ^ 32) : noId ∉ List.range n := by
  rw [List.mem_range, noId]
  omega

theorem Sound.grow (sound : Sound s) :
    ∃ slots, s.grow = some { s with slots } ∧ slots.length = s.slots.length * 2 ∧
      Sound { s with slots } := by
  have held := sound.indexed.held
  have all : (s.slots.filter fun id => decide (id ≠ noId) && (s.entry id).isSome) =
      s.slots.filter fun id => decide (id ≠ noId) := by
    refine List.filter_congr fun id member => ?_
    by_cases vacant : id = noId
    · simp [vacant]
    · have inside := held.mem_iff.mp (List.mem_filter.mpr ⟨member, decide_eq_true vacant⟩)
      rw [sound.entry_eq, List.getElem?_eq_getElem (List.mem_range.mp inside)]
      simp
  obtain ⟨k, size⟩ := sound.size
  have length : (List.replicate (s.slots.length * 2) noId).length = 2 ^ (k + 1) := by
    rw [List.length_replicate, size, Nat.pow_succ]
  have few := held.length_eq
  have room := List.length_filter_le (fun id => decide (id ≠ noId)) s.slots
  have vacant : Indexed noId s.hashId (List.replicate (s.slots.length * 2) noId) [] := indexed_vacant _
  have fits : ([] : List ℕ).length + (s.slots.filter fun id => decide (id ≠ noId)).length ≤
      (List.replicate (s.slots.length * 2) noId).length := by
    rw [List.length_replicate, List.length_nil]
    omega
  obtain ⟨slots, ends, length', indexed⟩ := enterAll_indexed length vacant fits List.not_mem_nil
    (fun member => noId_fresh sound.small (held.mem_iff.mp member))
  rw [List.length_replicate] at length'
  refine ⟨slots, ?_, length', ?_⟩
  · rw [Interner.grow, all, ends]
    rfl
  · have load := sound.load
    refine ⟨sound.starts, sound.sealed, sound.small, sound.distinct, ⟨k + 1, ?_⟩, ?_, sound.filled, ?_⟩
    · show slots.length = _
      rw [length', size, Nat.pow_succ]
    · rw [sound.hashId_eq, List.append_nil] at indexed
      exact indexed.perm ((List.reverse_perm _).trans held)
    · show s.filled * 4 < slots.length * 3
      omega

theorem hashOf_append {entries : List Entry} {id : ℕ} (inside : id < entries.length) (more : List Entry) :
    hashOf (entries ++ more) id = hashOf entries id := by
  rw [hashOf, hashOf, List.getElem?_append_left inside]

/-- A new entry at the end of the open ones, in the slot where the walk for it stopped. -/
theorem Sound.enter (sound : Sound s) {e : Entry} (new : e ∉ s.entries) (room : s.entries.length + 1 < 2 ^ 32)
    (load : (s.filled + 1) * 4 < s.slots.length * 3) {same : ℕ → Bool} {d : ℕ}
    (stops : Stops noId s.slots same (hashBlock e).toNat d (.vacant (((hashBlock e).toNat + d) % s.slots.length))) :
    Sound { s with
      open_ := s.open_ ++ [e], slots := s.slots.set (((hashBlock e).toNat + d) % s.slots.length) s.entries.length,
      filled := s.filled + 1 } := by
  have entries : Interner.entries { s with
      open_ := s.open_ ++ [e], slots := s.slots.set (((hashBlock e).toNat + d) % s.slots.length) s.entries.length,
      filled := s.filled + 1 } = s.entries ++ [e] := (List.append_assoc _ _ _).symm
  have length : (s.entries ++ [e]).length = s.entries.length + 1 := List.length_append
  obtain ⟨k, size⟩ := sound.size
  have hashed : hashOf (s.entries ++ [e]) s.entries.length = (hashBlock e).toNat := by
    rw [hashOf, List.getElem?_append_right le_rfl, Nat.sub_self]
    rfl
  have before : Indexed noId (hashOf (s.entries ++ [e])) s.slots (List.range s.entries.length) :=
    sound.indexed.congr fun id member => (hashOf_append (List.mem_range.mp member) [e]).symm
  rw [← hashed] at stops
  have indexed := before.enter stops (by rw [noId]; omega) (noId_fresh sound.small) (by omega)
  rw [hashed] at indexed
  refine ⟨sound.starts, sound.sealed, ?_, ?_, ⟨k, ?_⟩, ?_, ?_, ?_⟩
  · rw [entries, length]
    exact room
  · rw [entries]
    exact List.nodup_append.mpr ⟨sound.distinct, List.nodup_singleton e, fun a member b last equal =>
      new (by rwa [← List.mem_singleton.mp last, ← equal])⟩
  · show (s.slots.set _ _).length = _
    rw [List.length_set, size]
  · rw [entries, length, List.range_succ]
    exact indexed.perm (List.perm_append_singleton _ _).symm
  · rw [entries, length, ← sound.filled]
  · show (s.filled + 1) * 4 < (s.slots.set _ _).length * 3
    rw [List.length_set]
    exact load

theorem Sound.intern (sound : Sound s) (e : Entry) (room : e ∈ s.entries ∨ s.entries.length + 1 < 2 ^ 32) :
    ∃ id s', s.intern e = some (id, s') ∧ Sound s' ∧ s'.entries[id]? = some e ∧ s'.chunks = s.chunks ∧
      s'.entries = if e ∈ s.entries then s.entries else s.entries ++ [e] := by
  -- After growing, if the index has to, another id fits.
  obtain ⟨t, grown, soundT, entriesT, chunksT, loadT⟩ : ∃ t : Interner,
      (if s.slots.length * 3 ≤ (s.filled + 1) * 4 then s.grow else some s) = some t ∧ Sound t ∧
        t.entries = s.entries ∧ t.chunks = s.chunks ∧ (t.filled + 1) * 4 < t.slots.length * 3 := by
    have load := sound.load
    by_cases full : s.slots.length * 3 ≤ (s.filled + 1) * 4
    · obtain ⟨slots, grows, length, sound'⟩ := sound.grow
      refine ⟨{ s with slots }, by rw [if_pos full, grows], sound', rfl, rfl, ?_⟩
      show (s.filled + 1) * 4 < slots.length * 3
      rcases Nat.lt_or_ge s.slots.length 2 with few | many
      · have none_ : s.filled = 0 := by omega
        omega
      · omega
    · exact ⟨s, if_neg full, sound, rfl, rfl, Nat.not_le.mp full⟩
  obtain ⟨k, size⟩ := soundT.size
  have filled := soundT.filled
  have vacant := exists_vacant soundT.indexed.held (by rw [List.length_range]; omega)
  obtain ⟨d, p, stops, facts⟩ := walk_stops size vacant (fun id => decide (t.entry id = some e)) (hashBlock e).toNat
  have intern_eq : s.intern e = some (t.settle e p) := by
    rw [Interner.intern, grown]
    simp only [Option.bind_eq_bind, Option.bind_some, stops]
  by_cases old : e ∈ s.entries
  · obtain ⟨place, inside, equal⟩ := List.mem_iff_getElem.mp old
    rw [← entriesT] at old
    have hashed : hashOf t.entries place = (hashBlock e).toNat := by
      rw [hashOf, entriesT, List.getElem?_eq_getElem inside, equal]
      rfl
    obtain ⟨id, member, rfl, same⟩ := facts.found soundT.indexed (List.mem_range.mpr (by rw [entriesT]; exact inside))
      (noId_fresh soundT.small) hashed
      (decide_eq_true (by rw [soundT.entry_eq, entriesT, List.getElem?_eq_getElem inside, equal]))
    have named := of_decide_eq_true same
    rw [soundT.entry_eq] at named
    rw [entriesT] at old
    exact ⟨id, t, intern_eq, soundT, named, chunksT, by rw [if_pos old, entriesT]⟩
  · rcases facts.here with ⟨rfl, -⟩ | ⟨-, -, same⟩
    · have more := room.resolve_left old
      have length : t.entries.length = t.sealed + t.open_.length := by
        rw [Interner.entries, List.length_append, soundT.sealed]
      have id_eq : (t.sealed + t.open_.length % 2 ^ 32) % 2 ^ 32 = t.entries.length := by
        have small := soundT.small
        rw [Nat.mod_eq_of_lt (show t.open_.length < 2 ^ 32 by omega), ← length, Nat.mod_eq_of_lt small]
      have sound' := soundT.enter (by rw [entriesT]; exact old) (by rw [entriesT]; exact more) loadT facts
      simp only [Interner.settle, id_eq] at intern_eq
      refine ⟨_, _, intern_eq, sound', ?_, chunksT, ?_⟩
      · show (t.chunks.flatten ++ (t.open_ ++ [e]))[t.entries.length]? = some e
        rw [← List.append_assoc]
        show (t.entries ++ [e])[t.entries.length]? = some e
        rw [List.getElem?_append_right le_rfl, Nat.sub_self]
        rfl
      · rw [if_neg old, ← entriesT]
        exact (List.append_assoc _ _ _).symm
    · have named := of_decide_eq_true same
      rw [soundT.entry_eq, entriesT] at named
      exact absurd (List.mem_of_getElem? named) old

/-! ### Runs -/

/-- Ids name entries, one by one. -/
def Names (entries : List Entry) (ids : List ℕ) (blocks : List Entry) : Prop :=
  List.Forall₂ (fun id e => entries[id]? = some e) ids blocks

theorem getElem?_front {entries more : List Entry} (front : entries <+: more) {id : ℕ} {e : Entry}
    (named : entries[id]? = some e) : more[id]? = some e := by
  obtain ⟨rest, rfl⟩ := front
  obtain ⟨inside, equal⟩ := List.getElem?_eq_some_iff.mp named
  rw [List.getElem?_append_left inside, List.getElem?_eq_getElem inside, equal]

theorem Names.mono {entries more : List Entry} (front : entries <+: more) {ids : List ℕ} {blocks : List Entry}
    (names : Names entries ids blocks) : Names more ids blocks :=
  List.Forall₂.imp (fun _ _ named => getElem?_front front named) names

theorem room_of_within {entries : List Entry} (distinct : entries.Nodup) {all : Finset Entry}
    (within : ∀ e ∈ entries, e ∈ all) (few : all.card < 2 ^ 32) {e : Entry} (member : e ∈ all) :
    e ∈ entries ∨ entries.length + 1 < 2 ^ 32 := by
  by_cases old : e ∈ entries
  · exact .inl old
  · have larger : (e :: entries).length ≤ all.card := by
      rw [← List.toFinset_card_of_nodup (List.nodup_cons.mpr ⟨old, distinct⟩)]
      refine Finset.card_le_card fun x inside => ?_
      rcases List.mem_cons.mp (List.mem_toFinset.mp inside) with rfl | old
      · exact member
      · exact within x old
    rw [List.length_cons] at larger
    exact .inr (by omega)

theorem Sound.internAll {all : Finset Entry} (few : all.card < 2 ^ 32) (blocks : List Entry) (sound : Sound s)
    (within : ∀ e ∈ s.entries, e ∈ all) (inside : ∀ e ∈ blocks, e ∈ all) :
    ∃ ids s', s.internAll blocks = some (ids, s') ∧ Sound s' ∧ s.entries <+: s'.entries ∧
      (∀ e ∈ s'.entries, e ∈ all) ∧ Names s'.entries ids blocks := by
  induction blocks generalizing s with
  | nil => exact ⟨[], s, rfl, sound, List.prefix_rfl, within, .nil⟩
  | cons e rest ih =>
    have member := inside e List.mem_cons_self
    obtain ⟨id, t, first, soundT, named, -, entries⟩ := sound.intern e (room_of_within sound.distinct within few member)
    have front : s.entries <+: t.entries := by
      rw [entries]
      split
      · exact List.prefix_rfl
      · exact List.prefix_append _ _
    have withinT : ∀ x ∈ t.entries, x ∈ all := by
      intro x inT
      rw [entries] at inT
      split at inT
      · exact within x inT
      · rcases List.mem_append.mp inT with old | new
        · exact within x old
        · rwa [List.mem_singleton.mp new]
    obtain ⟨ids, s', later, sound', front', within', names⟩ := ih soundT withinT
      (fun x inRest => inside x (List.mem_cons_of_mem _ inRest))
    refine ⟨id :: ids, s', ?_, sound', front.trans front', within', .cons (getElem?_front front' named) names⟩
    rw [Interner.internAll, first]
    simp only [Option.bind_eq_bind, Option.bind_some, later]

theorem Sound.seal_ (sound : Sound s) :
    Sound s.seal_.2 ∧ s.seal_.2.entries = s.entries ∧ s.seal_.1.starts = startsFrom 0 s.seal_.1.chunks ∧
      s.seal_.1.chunks.flatten = s.entries := by
  rw [Interner.seal_]
  by_cases none_ : s.open_ = []
  · have whole : s.entries = s.chunks.flatten := by rw [Interner.entries, none_, List.append_nil]
    rw [none_, List.isEmpty_nil, if_pos rfl]
    exact ⟨sound, rfl, sound.starts, whole.symm⟩
  · have some_ : s.open_.isEmpty = false := by simpa using none_
    have flat : (s.chunks ++ [s.open_]).flatten = s.entries := by
      rw [List.flatten_append, List.flatten_singleton, Interner.entries]
    have starts : s.starts ++ [s.sealed] = startsFrom 0 (s.chunks ++ [s.open_]) := by
      rw [startsFrom_append, ← sound.starts, ← sound.sealed, Nat.zero_add]
    have small := sound.small
    have length : s.entries.length = s.sealed + s.open_.length := by
      rw [Interner.entries, List.length_append, sound.sealed]
    have same : Interner.entries { s with
        chunks := s.chunks ++ [s.open_], starts := s.starts ++ [s.sealed], open_ := [],
        sealed := (s.sealed + s.open_.length % 2 ^ 32) % 2 ^ 32 } = s.entries := by
      rw [Interner.entries, List.append_nil]
      exact flat
    simp only [some_, Bool.false_eq_true, if_false]
    refine ⟨⟨starts, ?_, ?_, ?_, sound.size, ?_, ?_, sound.load⟩, same, starts, flat⟩
    · show (s.sealed + s.open_.length % 2 ^ 32) % 2 ^ 32 = (s.chunks ++ [s.open_]).flatten.length
      rw [flat, Nat.mod_eq_of_lt (show s.open_.length < 2 ^ 32 by omega), ← length, Nat.mod_eq_of_lt small]
    · rw [same]
      exact small
    · rw [same]
      exact sound.distinct
    · rw [same]
      exact sound.indexed
    · rw [same]
      exact sound.filled

/-- What holds of one installed function: its ids name its blocks, its table is a front of
    the entries, and once it is published the table has them. -/
structure Held (entries : List Entry) (published : Prop) (b : Blocks) (blocks : List Entry) : Prop where
  names : Names entries b.ids blocks
  starts : b.table.starts = startsFrom 0 b.table.chunks
  front : b.table.chunks.flatten <+: entries
  readable : published → Names b.table.chunks.flatten b.ids blocks

theorem Held.mono {entries more : List Entry} {published : Prop} {b : Blocks} {blocks : List Entry}
    (held : Held entries published b blocks) (front : entries <+: more) : Held more published b blocks :=
  ⟨held.names.mono front, held.starts, held.front.trans front, held.readable⟩

structure Consistent (calls : List Call) (all : Finset Entry) (w : World) : Prop where
  sound : Sound w.interner
  within : ∀ e ∈ w.interner.entries, e ∈ all
  count : w.functions.length = (installs calls).length
  held : ∀ (k : ℕ) (b : Blocks) (blocks : List Entry), w.functions[k]? = some b → (installs calls)[k]? = some blocks →
    Held w.interner.entries (Published calls k) b blocks

/-- What a later world keeps of an earlier one. -/
structure Extends (v w : World) : Prop where
  front : v.interner.entries <+: w.interner.entries
  ids : ∀ (k : ℕ) (b : Blocks), v.functions[k]? = some b → ∃ b' : Blocks, w.functions[k]? = some b' ∧ b'.ids = b.ids

theorem Extends.refl (w : World) : Extends w w := ⟨List.prefix_rfl, fun _ b here => ⟨b, here, rfl⟩⟩

theorem Extends.trans {u v w : World} (first : Extends u v) (second : Extends v w) : Extends u w := by
  refine ⟨first.front.trans second.front, fun k b here => ?_⟩
  obtain ⟨b', there, same⟩ := first.ids k b here
  obtain ⟨b'', last, same'⟩ := second.ids k b' there
  exact ⟨b'', last, same'.trans same⟩

theorem installs_append (calls : List Call) (c : Call) :
    installs (calls ++ [c]) = installs calls ++ installs [c] := List.filterMap_append

theorem published_append {calls : List Call} {c : Call} {k : ℕ} :
    Published (calls ++ [c]) k ↔
      Published calls k ∨ ∃ which, c = .publish which ∧ k ∈ which ∧ k < (installs calls).length := by
  constructor
  · rintro ⟨before, which, after, whole, member, below⟩
    rcases List.eq_nil_or_concat after with rfl | ⟨front, last, rfl⟩
    · obtain ⟨rfl, equal⟩ := List.append_inj' whole rfl
      exact .inr ⟨which, by simpa using equal, member, below⟩
    · rw [List.concat_eq_append, ← List.cons_append, ← List.append_assoc] at whole
      obtain ⟨rfl, -⟩ := List.append_inj' whole rfl
      exact .inl ⟨before, which, front, rfl, member, below⟩
  · rintro (⟨before, which, after, rfl, member, below⟩ | ⟨which, rfl, member, below⟩)
    · exact ⟨before, which, after ++ [c], by simp, member, below⟩
    · exact ⟨calls, which, [], rfl, member, below⟩

/-- One call keeps the invariant and what was there. -/
theorem Consistent.step {calls : List Call} {all : Finset Entry} {w : World} (good : Consistent calls all w)
    (few : all.card < 2 ^ 32) (c : Call) (inside : ∀ blocks ∈ installs [c], ∀ e ∈ blocks, e ∈ all) :
    ∃ w', w.step c = some w' ∧ Consistent (calls ++ [c]) all w' ∧ Extends w w' := by
  cases c with
  | install blocks =>
    obtain ⟨ids, s', interned, sound, front, within, names⟩ :=
      good.sound.internAll few blocks good.within (inside blocks (List.mem_singleton_self _))
    refine ⟨⟨s', w.functions ++ [⟨.empty, ids⟩]⟩, ?_, ⟨sound, within, ?_, ?_⟩, ⟨front, fun k b here => ?_⟩⟩
    · rw [World.step, Interner.install, interned]
      rfl
    · rw [installs_append, List.length_append, List.length_append, good.count]
      rfl
    · intro k b raw here installed
      rw [installs_append] at installed
      by_cases old : k < w.functions.length
      · rw [List.getElem?_append_left old] at here
        rw [List.getElem?_append_left (by rw [← good.count]; exact old)] at installed
        have held := (good.held k b raw here installed).mono front
        refine ⟨held.names, held.starts, held.front, fun published => held.readable ?_⟩
        rcases published_append.mp published with before | ⟨which, impossible, -⟩
        · exact before
        · cases impossible
      · rw [List.getElem?_append_right (Nat.not_lt.mp old)] at here
        rw [List.getElem?_append_right (by rw [← good.count]; exact Nat.not_lt.mp old), ← good.count] at installed
        obtain ⟨single, equal⟩ := List.getElem?_eq_some_iff.mp here
        have first : k - w.functions.length = 0 := by
          rw [List.length_singleton] at single
          omega
        rw [first] at here installed
        obtain rfl : ⟨.empty, ids⟩ = b := Option.some.inj here
        obtain rfl : blocks = raw := Option.some.inj installed
        refine ⟨names, rfl, List.nil_prefix, fun published => ?_⟩
        rcases published_append.mp published with ⟨before, which, after, rfl, -, below⟩ | ⟨which, impossible, -⟩
        · -- A function cannot be published before it is installed.
          exfalso
          rw [good.count] at old
          rw [installs, List.filterMap_append, List.length_append] at old
          rw [installs] at below
          omega
        · cases impossible
    · obtain ⟨below, -⟩ := List.getElem?_eq_some_iff.mp here
      exact ⟨b, by rw [List.getElem?_append_left below, here], rfl⟩
  | publish which =>
    obtain ⟨sound, entries, starts, flat⟩ := good.sound.seal_
    refine ⟨⟨w.interner.seal_.2, w.functions.mapIdx fun k b => if k ∈ which then { b with table := w.interner.seal_.1 } else b⟩,
      rfl, ⟨sound, ?_, ?_, ?_⟩, ⟨by rw [entries], fun k b here => ?_⟩⟩
    · rw [entries]
      exact good.within
    · rw [installs_append, List.length_append, List.length_mapIdx, good.count]
      rfl
    · intro k b raw here installed
      rw [installs_append] at installed
      have installed : (installs calls)[k]? = some raw := by simpa [installs] using installed
      rw [List.getElem?_mapIdx] at here
      obtain ⟨old, there, rfl⟩ := Option.map_eq_some_iff.mp here
      have held := good.held k old raw there installed
      rw [entries]
      by_cases chosen : k ∈ which
      · rw [if_pos chosen]
        refine ⟨held.names, starts, by rw [flat], fun _ => ?_⟩
        rw [flat]
        exact held.names
      · rw [if_neg chosen]
        refine ⟨held.names, held.starts, held.front, fun published => held.readable ?_⟩
        rcases published_append.mp published with before | ⟨which', same, member, -⟩
        · exact before
        · cases same
          exact absurd member chosen
    · refine ⟨if k ∈ which then { b with table := w.interner.seal_.1 } else b, ?_, ?_⟩
      · rw [List.getElem?_mapIdx, here]
        rfl
      · split
        · rfl
        · rfl

theorem run_append (calls : List Call) (c : Call) : run (calls ++ [c]) = (run calls).bind fun w => w.step c := by
  rw [run, List.foldlM_append]
  cases run_eq : List.foldlM World.step ⟨.default, []⟩ calls with
  | none => simp [run, run_eq]
  | some w =>
    rw [run, run_eq]
    simp

theorem run_consistent {all : Finset Entry} (few : all.card < 2 ^ 32) (calls : List Call)
    (inside : ∀ blocks ∈ installs calls, ∀ e ∈ blocks, e ∈ all) :
    ∃ w, run calls = some w ∧ Consistent calls all w ∧
      ∀ before after, calls = before ++ after → ∃ v, run before = some v ∧ Extends v w := by
  induction calls using List.reverseRecOn with
  | nil =>
    refine ⟨⟨.default, []⟩, rfl, ⟨sound_default, fun e member => absurd member List.not_mem_nil, rfl, ?_⟩, ?_⟩
    · intro k b blocks here
      cases here
    · intro before after whole
      obtain ⟨rfl, -⟩ := List.append_eq_nil_iff.mp whole.symm
      exact ⟨⟨.default, []⟩, rfl, Extends.refl _⟩
  | append_singleton calls c ih =>
    rw [installs_append] at inside
    obtain ⟨w, ends, good, onTheWay⟩ := ih fun blocks member => inside blocks (List.mem_append_left _ member)
    obtain ⟨w', steps, good', extends_⟩ := good.step few c fun blocks member =>
      inside blocks (List.mem_append_right _ member)
    have whole : run (calls ++ [c]) = some w' := by rw [run_append, ends, Option.bind_some, steps]
    refine ⟨w', whole, good', fun before after parts => ?_⟩
    rcases List.eq_nil_or_concat after with rfl | ⟨front, last, rfl⟩
    · rw [List.append_nil] at parts
      exact ⟨w', by rw [← parts, whole], Extends.refl _⟩
    · rw [List.concat_eq_append, ← List.append_assoc] at parts
      obtain ⟨rfl, -⟩ := List.append_inj' parts rfl
      obtain ⟨v, first, earlier⟩ := onTheWay before front rfl
      exact ⟨v, first, earlier.trans extends_⟩

/-! ### What published functions read -/

theorem BlockTable.entry_eq {t : BlockTable} (starts : t.starts = startsFrom 0 t.chunks) (id : ℕ) :
    t.entry id = t.chunks.flatten[id]? := by
  rw [BlockTable.entry, starts, chunkEntry_eq]

theorem iter_eq {b : Blocks} {blocks : List Entry} (starts : b.table.starts = startsFrom 0 b.table.chunks)
    (names : Names b.table.chunks.flatten b.ids blocks) : b.iter = blocks := by
  have all : ∀ ids blocks, Names b.table.chunks.flatten ids blocks → ids.filterMap b.table.entry = blocks := by
    intro ids blocks names
    induction names with
    | nil => rfl
    | cons named _ ih =>
      rw [← BlockTable.entry_eq starts] at named
      rw [List.filterMap_cons_some named, ih]
  exact all _ _ names

/-- A binary search over the ids of blocks in address order finds the block that starts at
    an address. -/
theorem get_eq {b : Blocks} {blocks : List Entry} (starts : b.table.starts = startsFrom 0 b.table.chunks)
    (names : Names b.table.chunks.flatten b.ids blocks) (ordered : blocks.Pairwise fun x y => x.at_ < y.at_) (at_ : ℕ) :
    b.get at_ = (blocks.find? fun e => decide (e.at_ = at_)).map Entry.block := by
  rw [Blocks.get]
  generalize b.ids = ids at names
  induction names with
  | nil => rfl
  | @cons id e ids blocks named rest ih =>
    rw [← BlockTable.entry_eq starts] at named
    obtain ⟨above, tail⟩ := List.pairwise_cons.mp ordered
    by_cases before : e.at_ < at_
    · have next : partitionPoint (fun id => (b.table.entry id).any fun e => decide (e.at_ < at_)) (id :: ids) =
          partitionPoint (fun id => (b.table.entry id).any fun e => decide (e.at_ < at_)) ids + 1 := by
        simp [partitionPoint, named, before]
      have other : e.at_ ≠ at_ := Nat.ne_of_lt before
      simp only [next, List.getElem?_cons_succ]
      rw [ih tail, List.find?_cons_of_neg (by simpa using other)]
    · have here : partitionPoint (fun id => (b.table.entry id).any fun e => decide (e.at_ < at_)) (id :: ids) = 0 := by
        simp [partitionPoint, named, before]
      simp only [here, List.getElem?_cons_zero, Option.bind_eq_bind, Option.bind_some, named]
      by_cases equal : e.at_ = at_
      · rw [if_pos equal, List.find?_cons_of_pos (by simpa using equal)]
        rfl
      · have none_ : blocks.find? (fun e => decide (e.at_ = at_)) = none := by
          refine List.find?_eq_none.mpr fun x member => ?_
          have later := above x member
          simp only [decide_eq_true_eq]
          omega
        rw [if_neg equal, List.find?_cons_of_neg (by simpa using equal), none_]
        rfl

/-- Two ids into distinct entries are equal exactly when the entries are. -/
theorem id_eq_iff {entries : List Entry} (distinct : entries.Nodup) {id id' : ℕ} {e e' : Entry}
    (named : entries[id]? = some e) (named' : entries[id']? = some e') : id = id' ↔ e = e' := by
  constructor
  · rintro rfl
    exact Option.some.inj (named.symm.trans named')
  · rintro rfl
    obtain ⟨inside, equal⟩ := List.getElem?_eq_some_iff.mp named
    obtain ⟨inside', equal'⟩ := List.getElem?_eq_some_iff.mp named'
    exact (List.Nodup.getElem_inj_iff distinct).mp (equal.trans equal'.symm)

theorem Names.get {entries : List Entry} {ids : List ℕ} {blocks : List Entry} (names : Names entries ids blocks)
    {j id : ℕ} {e : Entry} (first : ids[j]? = some id) (second : blocks[j]? = some e) : entries[id]? = some e := by
  induction names generalizing j with
  | nil => cases first
  | cons named _ ih =>
    cases j with
    | zero =>
      obtain rfl := Option.some.inj first
      obtain rfl := Option.some.inj second
      exact named
    | succ j => exact ih first second

theorem Names.mem {entries : List Entry} {ids : List ℕ} {blocks : List Entry} (names : Names entries ids blocks)
    {id : ℕ} (member : id ∈ ids) : ∃ e, entries[id]? = some e := by
  induction names with
  | nil => cases member
  | cons named _ ih =>
    rcases List.mem_cons.mp member with rfl | later
    · exact ⟨_, named⟩
    · exact ih later

/-- Whatever the order of the calls, a published function reads back the blocks that were
    installed, ids are equal exactly when what they name is, and an id that was handed
    out keeps naming the same block. -/
theorem interner_correct (calls : List Call) (few : (installs calls).flatten.toFinset.card < 2 ^ 32)
    (ordered : ∀ blocks ∈ installs calls, blocks.Pairwise fun x y => x.at_ < y.at_) :
    ∃ w, run calls = some w ∧ w.functions.length = (installs calls).length ∧
      (∀ (k : ℕ) (b : Blocks) (blocks : List Entry), w.functions[k]? = some b → (installs calls)[k]? = some blocks →
        Published calls k →
        b.iter = blocks ∧ ∀ at_, b.get at_ = (blocks.find? fun e => decide (e.at_ = at_)).map Entry.block) ∧
      (∀ (k : ℕ) (b : Blocks) (blocks : List Entry) (k' : ℕ) (b' : Blocks) (blocks' : List Entry),
        w.functions[k]? = some b → (installs calls)[k]? = some blocks → w.functions[k']? = some b' → (installs calls)[k']? = some blocks' →
        b.ids.length = blocks.length ∧
        ∀ (j id : ℕ) (e : Entry) (j' id' : ℕ) (e' : Entry), b.ids[j]? = some id → blocks[j]? = some e → b'.ids[j']? = some id' →
          blocks'[j']? = some e' → (id = id' ↔ e = e')) ∧
      (∀ before after, calls = before ++ after → ∃ v, run before = some v ∧ ∀ (k : ℕ) (b : Blocks),
        v.functions[k]? = some b → ∃ b' : Blocks, w.functions[k]? = some b' ∧ b'.ids = b.ids ∧
          ∀ id ∈ b.ids, ∃ e, v.interner.entry id = some e ∧ w.interner.entry id = some e) := by
  have inside : ∀ blocks ∈ installs calls, ∀ e ∈ blocks, e ∈ (installs calls).flatten.toFinset :=
    fun blocks member e inBlocks => List.mem_toFinset.mpr (List.mem_flatten.mpr ⟨blocks, member, inBlocks⟩)
  obtain ⟨w, ends, good, onTheWay⟩ := run_consistent few calls inside
  refine ⟨w, ends, good.count, ?_, ?_, ?_⟩
  · intro k b blocks here installed published
    have held := good.held k b blocks here installed
    have order := ordered blocks (List.mem_of_getElem? installed)
    exact ⟨iter_eq held.starts (held.readable published), get_eq held.starts (held.readable published) order⟩
  · intro k b blocks k' b' blocks' here installed here' installed'
    have names := (good.held k b blocks here installed).names
    have names' := (good.held k' b' blocks' here' installed').names
    refine ⟨names.length_eq, fun j id e j' id' e' atJ blockJ atJ' blockJ' => ?_⟩
    exact id_eq_iff good.sound.distinct (names.get atJ blockJ) (names'.get atJ' blockJ')
  · intro before after parts
    obtain ⟨v, first, later⟩ := onTheWay before after parts
    refine ⟨v, first, fun k b here => ?_⟩
    have insideBefore : ∀ blocks ∈ installs before, ∀ e ∈ blocks, e ∈ (installs calls).flatten.toFinset := by
      intro blocks member
      refine inside blocks ?_
      rw [parts, installs, List.filterMap_append]
      exact List.mem_append_left _ member
    obtain ⟨v', first', good', -⟩ := run_consistent few before insideBefore
    obtain rfl : v = v' := Option.some.inj (first.symm.trans first')
    obtain ⟨b', there, same⟩ := later.ids k b here
    refine ⟨b', there, same, fun id member => ?_⟩
    obtain ⟨below, -⟩ := List.getElem?_eq_some_iff.mp here
    have installed := List.getElem?_eq_getElem (show k < (installs before).length by rw [← good'.count]; exact below)
    obtain ⟨e, named⟩ := (good'.held k b _ here installed).names.mem member
    exact ⟨e, by rw [good'.sound.entry_eq, named],
      by rw [good.sound.entry_eq, getElem?_front later.front named]⟩

/-- One function of one block, installed and published. -/
theorem interner_correct_one :
    let e : Entry := ⟨4096, ⟨⟨4096, 4100, by decide, by decide⟩, [], 1, false, .ret⟩⟩
    ∃ w, run [.install [e], .publish [0]] = some w ∧ ∀ b, w.functions[0]? = some b → b.iter = [e] := by
  intro e
  obtain ⟨w, ends, -, published, -⟩ := interner_correct [.install [e], .publish [0]] (by decide) (by
    intro blocks member
    obtain rfl : blocks = [e] := by simpa [installs] using member
    exact List.pairwise_singleton _ _)
  exact ⟨w, ends, fun b here => (published 0 b [e] here rfl ⟨[.install [e]], [0], [], rfl, by decide, by decide⟩).1⟩

end E5r.BlockInterner
