import E5r.CfgWalk

/-!
The graph a complete walk leaves. Its blocks are apart from each other, every
executable successor starts a block, and a block whose end does not part an
instruction in two is tiled by the instructions it counts, the last of which leads
where its successors say (`build_tiled`).
-/
namespace E5r.CfgBlocks
open SortedRecords Tilings CfgModel CfgWalk

/-- The end of a block parts an instruction in two that is decoded from its start. -/
def Parted (s : Setting) (b : Block) : Prop := Splits s.insnAt Insn.next b.start b.stop

/-- A block is tiled by the instructions it counts. Only the last of them may branch,
    return or trap, or call what never returns; it leads to the successors of the
    block, and where it does neither, to the start of the next block. -/
def Tiled (s : Setting) (cfg : Cfg) (b : Block) : Prop :=
  ∃ front last, Straight s cfg.tables b.start b.stop b.successors b.terminator front last ∧
    b.insns = (front ++ [last]).length % 2 ^ 32 ∧
    (Passes s last.flow → ∃ c ∈ cfg.blocks, c.start = b.stop)

theorem cutAt_none {starts : Finset ℕ} {start stop : ℕ} (whole : cutAt starts start stop = none) :
    ∀ c ∈ starts, ¬ (start < c ∧ c < stop) := by
  intro c member inside
  unfold cutAt at whole
  rw [dif_pos ⟨c, Finset.mem_filter.mpr ⟨member, inside⟩⟩] at whole
  simp at whole

theorem cutAt_some {starts : Finset ℕ} {start stop c : ℕ} (cut : cutAt starts start stop = some c) :
    c ∈ starts ∧ (start < c ∧ c < stop) ∧ ∀ d ∈ starts, start < d → c ≤ d := by
  unfold cutAt at cut
  dsimp only at cut
  split at cut
  next found =>
    obtain rfl := Option.some.inj cut
    have least := Finset.mem_filter.mp (Finset.min'_mem _ found)
    refine ⟨least.1, least.2, fun d member above => ?_⟩
    by_contra below
    have inside : d ∈ starts.filter (fun c => start < c ∧ c < stop) :=
      Finset.mem_filter.mpr ⟨member, above, (not_le.mp below).trans least.2.2⟩
    exact below (Finset.min'_le _ d inside)
  · simp at cut

/-- The block of a run is the run itself or the run up to the first start inside it. -/
structure Closed (starts : Finset ℕ) (start : ℕ) (run : Run) (b : Block) : Prop where
  starts_at : b.start = start
  room : start < b.stop
  within : b.stop ≤ run.stop
  alone : ∀ c ∈ starts, ¬ (start < c ∧ c < b.stop)
  kept : b.stop = run.stop ∧ b.successors = run.successors ∧ b.terminator = run.terminator ∨
    b.stop ∈ starts ∧ b.stop < run.stop ∧ b.successors = [b.stop] ∧ b.terminator = .flow

theorem closeBlock_closed (s : Setting) (starts : Finset ℕ) {start : ℕ} {run : Run} (room : start < run.stop) :
    ∃ b, closeBlock s starts (start, run) = some b ∧ Closed starts start run b := by
  simp only [closeBlock, if_pos room]
  cases cut : cutAt starts start run.stop with
  | none =>
    rw [if_neg (not_le.mpr room)]
    exact ⟨_, rfl, rfl, room, le_refl _, cutAt_none cut, .inl ⟨rfl, rfl, rfl⟩⟩
  | some c =>
    obtain ⟨member, ⟨above, below⟩, least⟩ := cutAt_some cut
    rw [if_neg (not_le.mpr above)]
    exact ⟨_, rfl, rfl, above, below.le, fun d held inside => absurd (least d held inside.1) (not_le.mpr inside.2),
      .inr ⟨member, below, rfl, rfl⟩⟩

theorem closeBlock_insns {s : Setting} (fits : Fits s) {starts : Finset ℕ} {start : ℕ} {run : Run} {b : Block}
    (closed : closeBlock s starts (start, run) = some b) (whole : Tiles s.insnAt Insn.next start run.body run.stop)
    {items : List Insn} (tiled : Tiles s.insnAt Insn.next start items b.stop) :
    b.insns = items.length % 2 ^ 32 := by
  have counted : ∀ {stop : ℕ}, Tiles s.insnAt Insn.next start items stop →
      countInsns s start stop = items.length % 2 ^ 32 := by
    intro stop tiled
    rw [countInsns, insnsBetween, readFrom_tiles (advances fits) tiled (le_refl _)]
  cases cut : (if start < run.stop then cutAt starts start run.stop else none) with
  | some c =>
    simp only [closeBlock, cut] at closed
    split at closed
    · simp at closed
    · obtain rfl := Option.some.inj closed
      exact counted tiled
  | none =>
    simp only [closeBlock, cut] at closed
    split at closed
    · simp at closed
    · obtain rfl := Option.some.inj closed
      obtain rfl := tiles_unique (advances fits) tiled whole
      dsimp only
      split
      · exact counted tiled
      · rfl

section
variable {s : Setting} (complete : (build s).halt = .complete) (resolved : (build s).hasIndirect = false)
include complete resolved

theorem build_settled :
    (∀ a ∈ (drain s s.begin).starts, ∃ run, (a, run) ∈ (drain s s.begin).ends) ∧
      s.entry ∈ (drain s s.begin).starts ∧
      (∀ e ∈ (drain s s.begin).ends, RunOk s (drain s s.begin).tables (drain s s.begin).starts e.1 e.2) ∧
      ∀ e ∈ (drain s s.begin).ends, ∀ t ∈ e.2.successors, s.memory.isExecutable t = true →
        t ∈ (drain s s.begin).starts := by
  have walked := drain_walked s
  obtain ⟨seenStarts, entry, runs, closed⟩ := walked.settled complete resolved
  have empty := drain_work s s.begin
  refine ⟨fun a => (walked.starts a).mp, ?_, runs, fun e member t leads executable => ?_⟩
  · rcases entry with seen | waiting
    · exact seenStarts seen
    · rw [empty] at waiting
      simp at waiting
  · rcases closed e member t leads executable with seen | waiting
    · exact seenStarts seen
    · rw [empty] at waiting
      simp at waiting

variable (fits : Fits s)
include fits

theorem runOk_room {start : ℕ} {run : Run} (member : (start, run) ∈ (drain s s.begin).ends) : start < run.stop := by
  obtain ⟨front, last, -, -, straight, -⟩ := (build_settled complete resolved).2.2.1 _ member
  exact tiles_lt (advances fits) straight.tiled (by simp)

theorem build_block {b : Block} (member : b ∈ (build s).blocks) :
    ∃ start run, (start, run) ∈ (drain s s.begin).ends ∧ closeBlock s (drain s s.begin).starts (start, run) = some b ∧
      Closed (drain s s.begin).starts start run b := by
  obtain ⟨⟨start, run⟩, recorded, closed⟩ := List.mem_filterMap.mp member
  obtain ⟨b', closed', ok⟩ := closeBlock_closed s (drain s s.begin).starts (runOk_room complete resolved fits recorded)
  obtain rfl := Option.some.inj (closed'.symm.trans closed)
  exact ⟨start, run, recorded, closed, ok⟩

theorem starts_block {a : ℕ} (member : a ∈ (drain s s.begin).starts) : ∃ b ∈ (build s).blocks, b.start = a := by
  obtain ⟨run, recorded⟩ := (build_settled complete resolved).1 a member
  obtain ⟨b, closed, ok⟩ := closeBlock_closed s (drain s s.begin).starts (runOk_room complete resolved fits recorded)
  exact ⟨b, List.mem_filterMap.mpr ⟨_, recorded, closed⟩, ok.starts_at⟩

theorem blocks_apart : (build s).blocks.Pairwise (fun a b => a.stop ≤ b.start) := by
  have walked := drain_walked s
  refine List.pairwise_filterMap.mpr (List.Pairwise.imp_of_mem ?_ walked.sorted)
  rintro ⟨a, r⟩ ⟨a', r'⟩ recorded recorded' less b closed b' closed'
  obtain ⟨c, found, ok⟩ := closeBlock_closed s (drain s s.begin).starts (runOk_room complete resolved fits recorded)
  obtain ⟨c', found', ok'⟩ := closeBlock_closed s (drain s s.begin).starts (runOk_room complete resolved fits recorded')
  obtain rfl := Option.some.inj (found.symm.trans closed)
  obtain rfl := Option.some.inj (found'.symm.trans closed')
  have laterStart : a' ∈ (drain s s.begin).starts := (walked.starts a').mpr ⟨r', recorded'⟩
  rw [ok'.starts_at]
  by_contra overlap
  exact ok.alone a' laterStart ⟨less, not_le.mp overlap⟩

theorem successors_start {b : Block} (member : b ∈ (build s).blocks) {t : ℕ} (leads : t ∈ b.successors)
    (executable : s.memory.isExecutable t = true) : ∃ c ∈ (build s).blocks, c.start = t := by
  obtain ⟨start, run, recorded, -, ok⟩ := build_block complete resolved fits member
  rcases ok.kept with ⟨-, same, -⟩ | ⟨cut, -, only, -⟩
  · rw [same] at leads
    exact starts_block complete resolved fits ((build_settled complete resolved).2.2.2 _ recorded t leads executable)
  · rw [only, List.mem_singleton] at leads
    rw [leads]
    exact starts_block complete resolved fits cut

theorem block_tiled {b : Block} (member : b ∈ (build s).blocks) (whole : ¬ Parted s b) :
    Tiled s (build s) b := by
  obtain ⟨start, run, recorded, closed, ok⟩ := build_block complete resolved fits member
  obtain ⟨front, last, decoded, -, straight, joins⟩ := (build_settled complete resolved).2.2.1 _ recorded
  have tables : ∀ t ∈ (drain s s.begin).tables, t ∈ (build s).tables :=
    fun t held => (List.mergeSort_perm _ _).mem_iff.mpr held
  have runTiled : Tiles s.insnAt Insn.next start run.body run.stop := by
    rw [decoded]
    exact straight.tiled
  rw [Parted, ok.starts_at] at whole
  rcases ok.kept with ⟨stop, successors, terminator⟩ | ⟨cut, before_end, successors, terminator⟩
  · refine ⟨front, last, ?_, closeBlock_insns fits closed runTiled (stop ▸ straight.tiled), fun passes => ?_⟩
    · rw [ok.starts_at, stop, successors, terminator]
      exact straight.mono tables
    · rw [stop]
      exact starts_block complete resolved fits (joins passes)
  · -- The cut parts the items of the run; the front part ends in an instruction that passes.
    rcases tiles_split straight.tiled ok.room.le ok.within with ⟨left, right, parts, tiled, rest⟩ | parted
    · rcases List.eq_nil_or_concat left with rfl | ⟨before, final, rfl⟩
      · exact absurd tiled ok.room.ne
      rw [List.concat_eq_append] at parts tiled
      rcases List.eq_nil_or_concat right with rfl | ⟨middle, last', rfl⟩
      · -- Nothing is left behind the cut, which would be the end of the run.
        exact absurd (show b.stop = run.stop from rest) before_end.ne
      · have front_eq : front = before ++ [final] ++ middle := by
          rw [List.concat_eq_append, ← List.append_assoc] at parts
          exact (List.append_inj' parts rfl).1
        have passes : ∀ i ∈ before ++ [final], Passes s i.flow := fun i inside =>
          straight.passes i (by rw [front_eq]; exact List.mem_append_left _ inside)
        have finalPasses : Passes s final.flow := passes final (by simp)
        refine ⟨before, final, ?_, closeBlock_insns fits closed runTiled tiled, fun _ => starts_block complete resolved fits cut⟩
        rw [ok.starts_at, successors, terminator]
        refine ⟨tiled, fun i inside => passes i (List.mem_append_left _ inside), [], (exitOf_passes finalPasses).symm, ?_⟩
        intro indirect
        rw [indirect] at finalPasses
        exact finalPasses.elim
    · exact absurd parted whole

end

/-- The graph of a walk that completes with no unresolved branch: the blocks hold
    something, are sorted and apart, and are closed under executable successors, and
    exactly those whose end parts no instruction in two are tiled. -/
theorem build_tiled {s : Setting} (fits : Fits s) (complete : (build s).halt = .complete)
    (resolved : (build s).hasIndirect = false) :
    (∀ b ∈ (build s).blocks, b.start < b.stop) ∧
      (build s).blocks.Pairwise (fun a b => a.stop ≤ b.start) ∧
      (∀ b ∈ (build s).blocks, ∀ t ∈ b.successors, s.memory.isExecutable t = true →
        ∃ c ∈ (build s).blocks, c.start = t) ∧
      ∀ b ∈ (build s).blocks, Tiled s (build s) b ↔ ¬ Parted s b := by
  refine ⟨fun b member => ?_, blocks_apart complete resolved fits, fun b member t leads executable => ?_,
    fun b member => ⟨?_, block_tiled complete resolved fits member⟩⟩
  · obtain ⟨start, run, -, -, ok⟩ := build_block complete resolved fits member
    rw [ok.starts_at]
    exact ok.room
  · exact successors_start complete resolved fits member leads executable
  · rintro ⟨front, last, straight, -⟩
    exact not_splits_of_tiles (advances fits) straight.tiled

theorem build_of_turns (s : Setting) (fuel : ℕ) (done : (turns s fuel s.begin).work = []) :
    build s = finish s (turns s fuel s.begin) := by
  rw [build, drain_of_turns s fuel s.begin done]

/-- The target of a branch of two bytes with an 8-bit displacement. -/
def shortTarget (addr : ℕ) (byte : UInt8) : ℕ :=
  (addr + 2 + if byte.toNat < 128 then byte.toNat else byte.toNat + (2 ^ 64 - 256)) % 2 ^ 64

/-- A decoder for a few one-byte opcodes: jumps, a call, a return, a trap, and an
    instruction of two bytes that goes on. -/
def shortDecoder : Decoder
  | 0x90 :: _, _ => some (⟨1, by decide⟩, .next)
  | 0xff :: _ :: _, _ => some (⟨2, by decide⟩, .next)
  | 0xc3 :: _, _ => some (⟨1, by decide⟩, .ret)
  | 0xc2 :: _ :: _ :: _, _ => some (⟨3, by decide⟩, .ret)
  | 0xcc :: _, _ => some (⟨1, by decide⟩, .trap)
  | 0xeb :: d :: _, addr => some (⟨2, by decide⟩, .branch (shortTarget addr d))
  | 0x74 :: d :: _, addr => some (⟨2, by decide⟩, .condBranch (shortTarget addr d))
  | 0xe8 :: d :: _ :: _ :: _ :: _, addr => some (⟨5, by decide⟩, .call (addr + 5 + d.toNat))
  | _, _ => none

/-- A program of at most 64 bytes at address 0. -/
def lowMemory (bytes : List UInt8) (short : bytes.length ≤ 64) : MemoryMap where
  segments := [⟨0, 64, true, bytes, by decide, by decide, short⟩]
  sorted := List.pairwise_singleton _ _

/-- The walk of such a program from one of its addresses. -/
def lowSetting (bytes : List UInt8) (short : bytes.length ≤ 64) (entry : ℕ) (stopAt noreturn : Finset ℕ) : Setting :=
  { memory := lowMemory bytes short, decoder := shortDecoder, maxInsnLen := 15, entry, stopAt, noreturn,
    caps := ⟨2 ^ 20, 2 ^ 18⟩, isData := fun _ => false, recover := fun _ => none }

theorem lowSetting_fits (bytes : List UInt8) (short : bytes.length ≤ 64) (entry : ℕ) (stopAt noreturn : Finset ℕ) :
    Fits (lowSetting bytes short entry stopAt noreturn) := by
  apply fits_of_low
  intro seg member
  obtain rfl := List.mem_singleton.mp member
  show 64 + 15 ≤ 2 ^ 64
  decide

/-- A conditional jump over a no-op to a return: the jump, the no-op and the return are
    a block each. -/
theorem build_tiled_low :
    let s := lowSetting [0x74, 0x01, 0x90, 0xc3] (by decide) 0 ∅ ∅
    (∀ b ∈ (build s).blocks, b.start < b.stop) ∧
      (build s).blocks.Pairwise (fun a b => a.stop ≤ b.start) ∧
      (∀ b ∈ (build s).blocks, ∀ t ∈ b.successors, s.memory.isExecutable t = true →
        ∃ c ∈ (build s).blocks, c.start = t) ∧
      ∀ b ∈ (build s).blocks, Tiled s (build s) b ↔ ¬ Parted s b := by
  have done : (turns (lowSetting [0x74, 0x01, 0x90, 0xc3] (by decide) 0 ∅ ∅) 8
      (lowSetting [0x74, 0x01, 0x90, 0xc3] (by decide) 0 ∅ ∅).begin).work = [] := by decide
  refine build_tiled (lowSetting_fits _ _ _ _ _) ?_ ?_
  · rw [build_of_turns _ 8 done]
    decide
  · rw [build_of_turns _ 8 done]
    decide

theorem top_fits : 2 ^ 64 - 1 < 2 ^ 64 := by decide

/-- Two segments at the two ends of the address space, and a decoder that reads 15
    bytes where there is one. -/
def wrapping : Setting :=
  { memory := { segments := [⟨0, 2, true, [0xeb, 0xfe], by decide, by decide, by decide⟩,
                  ⟨2 ^ 64 - 2, 2 ^ 64 - 1, true, [0xc3], by decide, top_fits, by decide⟩]
                sorted := by simp [Sorted] }
    decoder := fun _ addr =>
      if addr = 0 then some (⟨2, by decide⟩, .branch (2 ^ 64 - 2)) else some (⟨15, by decide⟩, .ret)
    maxInsnLen := 15, entry := 0, stopAt := ∅, noreturn := ∅, caps := ⟨2 ^ 20, 2 ^ 18⟩, isData := fun _ => false
    recover := fun _ => none }

/-- A jump of two bytes into its own second byte. -/
def intoItself : Setting := lowSetting [0xeb, 0xff, 0xc0, 0xc3] (by decide) 0 ∅ ∅

def tailJump : Setting := lowSetting [0xeb, 0x00, 0xc3] (by decide) 0 {2} ∅

def lastCall : Setting := lowSetting [0xe8, 0x01, 0x00, 0x00, 0x00, 0xc3, 0xcc] (by decide) 0 ∅ {6}

/-- Complete walks with every branch resolved whose blocks are not what the decoder
    reads: the jump into itself is cut in two, the tail call and the call that never
    comes back have no successors, and the return that ends past the top of the
    address space leaves no block where a jump leads. -/
theorem build_not_tiled :
    ((build intoItself).isComplete = true ∧ intoItself.insnAt 0 = some ⟨0, 2, .branch 1⟩ ∧
        (build intoItself).blocks = [⟨0, 1, [1], 1, false, .flow⟩, ⟨1, 4, [], 2, false, .ret⟩]) ∧
      ((build tailJump).isComplete = true ∧ tailJump.insnAt 0 = some ⟨0, 2, .branch 2⟩ ∧
        (build tailJump).blocks = [⟨0, 2, [], 1, false, .tailCall⟩]) ∧
      ((build lastCall).isComplete = true ∧ lastCall.insnAt 0 = some ⟨0, 5, .call 6⟩ ∧
        (build lastCall).blocks = [⟨0, 5, [], 1, false, .noReturnCall⟩]) ∧
      ((build wrapping).isComplete = true ∧ wrapping.memory.isExecutable (2 ^ 64 - 2) = true ∧
        (build wrapping).blocks = [⟨0, 2, [2 ^ 64 - 2], 1, false, .flow⟩]) := by
  rw [build_of_turns intoItself 8 (by decide), build_of_turns tailJump 8 (by decide),
    build_of_turns lastCall 8 (by decide), build_of_turns wrapping 8 (by decide)]
  refine ⟨?_, ?_, ?_, ?_⟩
  · decide
  · decide
  · decide
  · decide

end E5r.CfgBlocks
