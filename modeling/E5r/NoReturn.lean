import Mathlib.Order.FixedPoints
import E5r.CfgBlocks

/-!
Which functions never come back. Some names are known never to return; a function
joins them when every block that ends it ends in a trap, in a call to a function
that never returns, or in a tail call (`compute`). Against it stands what may come
back: the functions from whose entry a path of blocks, every call on which may come
back, leads to a return or to a tail call that may come back (`MayReturn`). The
additions are sound exactly where every tail call that such a path reaches goes to
a function that never comes back and no return is parted by a cut (`runs_sound_iff`).
-/
namespace E5r.NoReturn
open SortedRecords Tilings CfgModel CfgWalk CfgBlocks

/-- Names that never return, across the platforms. -/
def known : List String :=
  ["abort", "exit", "_exit", "_Exit", "quick_exit", "__assert_fail", "__assert_fail_base",
   "__stack_chk_fail", "__fortify_fail", "__chk_fail", "__libc_fatal", "longjmp", "siglongjmp",
   "__longjmp_chk", "pthread_exit", "_Unwind_Resume", "__cxa_throw", "__cxa_rethrow", "__cxa_bad_cast",
   "__cxa_bad_typeid", "__cxa_pure_virtual", "_ZSt9terminatev", "_ZSt10unexpectedv",
   "_ZSt20__throw_length_errorPKc", "_ZSt20__throw_out_of_rangePKc", "_ZSt17__throw_bad_allocv",
   "_ZSt19__throw_logic_errorPKc", "_ZSt24__throw_out_of_range_fmtPKcz", "rust_begin_unwind", "rust_panic",
   "_ZN4core9panicking5panic17h", "ExitProcess", "TerminateProcess", "RaiseException",
   "_invalid_parameter_noinfo_noreturn"]

/-- A PLT thunk stands in for the function it reaches. -/
def stripPlt (name : List Char) : List Char :=
  if "@plt".toList.isSuffixOf name then name.take (name.length - 4) else name

/-- The name is one that never returns. A known name that ends in a hash matches as a
    prefix, every other one exactly. -/
def nameNeverReturns (name : String) : Bool :=
  let name := stripPlt name.toList
  known.any (fun k =>
    if "17h".toList.isSuffixOf k.toList then k.toList.isPrefixOf name else decide (name = k.toList)) ||
    "_ZN4core9panicking".toList.isPrefixOf name || "_ZN3std9panicking".toList.isPrefixOf name

/-- A block without successors ends the function for good. A tail call is judged by
    the calls of the whole function. -/
def endsForGood (cfg : Cfg) (set : Finset ℕ) (b : Block) : Bool :=
  match b.terminator with
  | .trap | .noReturnCall => true
  | .tailCall => decide (∃ c ∈ cfg.calls, c ∈ set)
  | _ => false

/-- No path through `cfg` reaches a return, as far as its blocks without successors
    tell. -/
def neverReturns (cfg : Cfg) (set : Finset ℕ) : Bool :=
  if cfg.blocks = [] ∨ cfg.hasIndirect = true ∨ cfg.isComplete = false then false
  else
    let terminal := cfg.blocks.filter (fun b => decide (b.successors = []))
    terminal.all (endsForGood cfg set) && decide (0 < terminal.length)

/-- One round over the graph, and whether it added a function. -/
def round (graph : List (ℕ × Cfg)) (set : Finset ℕ) : Finset ℕ × Bool :=
  graph.foldl (fun (set, added) (addr, cfg) =>
    if addr ∈ set then (set, added)
    else if neverReturns cfg set then (insert addr set, true)
    else (set, added)) (set, false)

/-- At most so many rounds, until one adds nothing. -/
def rounds (graph : List (ℕ × Cfg)) : ℕ → Finset ℕ → Finset ℕ
  | 0, set => set
  | left + 1, set =>
    match round graph set with
    | (set, true) => rounds graph left set
    | (set, false) => set

/-- The functions whose names say that they never return. -/
def namedSet (named : List (ℕ × Option String)) : Finset ℕ :=
  ((named.filter (fun f => f.2.any nameNeverReturns)).map Prod.fst).toFinset

/-- Work out which of the functions never return. -/
def compute (named : List (ℕ × Option String)) (graph : List (ℕ × Cfg)) : Finset ℕ :=
  rounds graph 8 (namedSet named)

/-- The functions of a program with the walk that each one's graph is built by. No
    instruction of theirs ends past the top of the address space. -/
structure Program where
  named : List (ℕ × Option String)
  functions : List Setting
  sorted : StrictlySorted Setting.entry functions
  fits : ∀ s ∈ functions, Fits s

def Program.graph (p : Program) : List (ℕ × Cfg) := p.functions.map (fun s => (s.entry, build s))

/-- Functions taken not to return: by their name, or because a walk was told so. -/
def Trusted (p : Program) (f : ℕ) : Prop := f ∈ namedSet p.named ∨ ∃ s ∈ p.functions, f ∈ s.noreturn

def blockInsns (s : Setting) (b : Block) : List Insn := insnsBetween s b.start b.stop

def LastFlow (s : Setting) (b : Block) (flow : Flow) : Prop := ((blockInsns s b).getLast?).map Insn.flow = some flow

instance (s : Setting) (b : Block) (flow : Flow) : Decidable (LastFlow s b flow) :=
  inferInstanceAs (Decidable (_ = _))

def TailCalls (s : Setting) (b : Block) (t : ℕ) : Prop :=
  s.leaves t = true ∧ (LastFlow s b (.branch t) ∨ LastFlow s b (.condBranch t))

/-- Every direct call in a block is to a function that may come back. -/
def Passable (s : Setting) (returns : Set ℕ) (b : Block) : Prop :=
  ∀ i ∈ blockInsns s b, ∀ t, i.flow = .call t → t ∈ returns

/-- A path from the entry leads to the block, through blocks whose calls come back. -/
inductive Reaches (s : Setting) (returns : Set ℕ) : Block → Prop
  | entry {b : Block} : b ∈ (build s).blocks → b.start = s.entry → Reaches s returns b
  | step {b c : Block} : Reaches s returns b → Passable s returns b → c.start ∈ b.successors →
      c ∈ (build s).blocks → Reaches s returns c

/-- A function comes back if the functions in `returns` do: nothing is known of it, or
    a path leads to a return or to a tail call that comes back. -/
inductive Returns (p : Program) (returns : Set ℕ) (f : ℕ) : Prop
  | unknown : ¬ Trusted p f → (∀ s ∈ p.functions, s.entry ≠ f) → Returns p returns f
  | unfinished {s : Setting} : ¬ Trusted p f → s ∈ p.functions → s.entry = f → (build s).isComplete = false →
      Returns p returns f
  | ret {s : Setting} {b : Block} : ¬ Trusted p f → s ∈ p.functions → s.entry = f → Reaches s returns b →
      Passable s returns b → LastFlow s b .ret → Returns p returns f
  | tailCall {s : Setting} {b : Block} {t : ℕ} : ¬ Trusted p f → s ∈ p.functions → s.entry = f →
      Reaches s returns b → Passable s returns b → TailCalls s b t → t ∈ returns → Returns p returns f

variable {s : Setting} {more : Set ℕ} {b : Block}

theorem Passable.mono {returns : Set ℕ} (sub : returns ≤ more) (passable : Passable s returns b) : Passable s more b :=
  fun i member t call => sub (passable i member t call)

theorem Reaches.mono {returns : Set ℕ} (sub : returns ≤ more) (reached : Reaches s returns b) : Reaches s more b := by
  induction reached with
  | entry member start => exact .entry member start
  | step _ passable leads member ih => exact .step ih (passable.mono sub) leads member

theorem Reaches.block {s : Setting} {returns : Set ℕ} {b : Block} (reached : Reaches s returns b) :
    b ∈ (build s).blocks := by
  cases reached with
  | entry member _ => exact member
  | step _ _ _ member => exact member

variable {p : Program} {f : ℕ}

theorem Returns.mono {returns : Set ℕ} (sub : returns ≤ more) (comes : Returns p returns f) : Returns p more f := by
  cases comes with
  | unknown free none => exact .unknown free none
  | unfinished free member entry incomplete => exact .unfinished free member entry incomplete
  | ret free member entry reached passable last =>
    exact .ret free member entry (reached.mono sub) (passable.mono sub) last
  | tailCall free member entry reached passable calls inside =>
    exact .tailCall free member entry (reached.mono sub) (passable.mono sub) calls (sub inside)

/-- The functions that may come back: the least set closed under `Returns`. -/
def MayReturn (p : Program) : Set ℕ :=
  OrderHom.lfp ⟨fun returns => {f | Returns p returns f}, fun _ _ sub _ comes => comes.mono sub⟩

theorem mayReturn_iff : f ∈ MayReturn p ↔ Returns p (MayReturn p) f := by
  have unfolded := OrderHom.map_lfp
    (⟨fun returns => {f | Returns p returns f}, fun _ _ sub _ comes => comes.mono sub⟩ : Set ℕ →o Set ℕ)
  constructor
  · intro may
    rw [MayReturn, ← unfolded] at may
    exact may
  · intro comes
    rw [MayReturn, ← unfolded]
    exact comes

theorem mayReturn_not_trusted (may : f ∈ MayReturn p) : ¬ Trusted p f := by
  cases mayReturn_iff.mp may with
  | unknown free _ => exact free
  | unfinished free _ _ _ => exact free
  | ret free _ _ _ _ _ => exact free
  | tailCall free _ _ _ _ _ _ => exact free

def Adds (p : Program) (set : Finset ℕ) (s : Setting) : Prop :=
  s ∈ p.functions ∧ s.entry ∉ set ∧ neverReturns (build s) set = true

/-- The sets that additions lead to, in any order, from the named functions. -/
inductive Run (p : Program) : Finset ℕ → Prop
  | named : Run p (namedSet p.named)
  | add {set : Finset ℕ} {s : Setting} : Run p set → Adds p set s → Run p (insert s.entry set)

/-- No function of the set may come back. -/
def Sound (p : Program) (set : Finset ℕ) : Prop := ∀ f ∈ set, f ∉ MayReturn p

/-- On every path through the function, each tail call, conditional or not, goes to a
    function of the set or to one that never comes back anyway, and no cut parts a
    return. A function that the walks were told about needs none of this. -/
def Settled (p : Program) (set : Finset ℕ) (s : Setting) : Prop :=
  ¬ Trusted p s.entry → ∀ b, Reaches s (MayReturn p) b → Passable s (MayReturn p) b →
    (∀ t, TailCalls s b t → t ∈ set ∨ t ∉ MayReturn p) ∧ ¬ (LastFlow s b .ret ∧ Parted s b)

theorem round_run {set : Finset ℕ} (run : Run p set) : Run p (round p.graph set).1 := by
  have folded : ∀ (functions : List Setting), (∀ s ∈ functions, s ∈ p.functions) → ∀ (acc : Finset ℕ × Bool),
      Run p acc.1 → Run p ((functions.map (fun s => (s.entry, build s))).foldl (fun (set, added) (addr, cfg) =>
        if addr ∈ set then (set, added)
        else if neverReturns cfg set then (insert addr set, true)
        else (set, added)) acc).1 := by
    intro functions inside
    induction functions with
    | nil => intro acc run; exact run
    | cons s rest ih =>
      intro acc run
      refine ih (fun t member => inside t (List.mem_cons_of_mem _ member)) _ ?_
      dsimp only
      split
      · exact run
      · split
        next fresh judged => exact .add run ⟨inside s List.mem_cons_self, fresh, judged⟩
        · exact run
  exact folded p.functions (fun _ member => member) (set, false) run

theorem rounds_run (left : ℕ) {set : Finset ℕ} (run : Run p set) : Run p (rounds p.graph left set) := by
  induction left generalizing set with
  | zero => exact run
  | succ left ih =>
    have next := round_run run
    unfold rounds
    split
    next more same => rw [same] at next; exact ih next
    next more same => rw [same] at next; exact next

theorem compute_run (p : Program) : Run p (compute p.named p.graph) := rounds_run 8 .named

theorem neverReturns_complete {cfg : Cfg} {set : Finset ℕ} (judged : neverReturns cfg set = true) :
    cfg.halt = .complete ∧ cfg.hasIndirect = false := by
  unfold neverReturns at judged
  split at judged
  · simp at judged
  next judge =>
    simp only [not_or, Bool.not_eq_false] at judge
    have complete : cfg.isComplete = true := judge.2.2
    simp only [Cfg.isComplete, Bool.and_eq_true, decide_eq_true_eq, Bool.not_eq_true'] at complete
    exact complete

theorem neverReturns_ends {cfg : Cfg} {set : Finset ℕ} (judged : neverReturns cfg set = true)
    (member : b ∈ cfg.blocks) (last : b.successors = []) : endsForGood cfg set b = true := by
  unfold neverReturns at judged
  split at judged
  · simp at judged
  · rw [Bool.and_eq_true, List.all_eq_true] at judged
    exact judged.1 b (List.mem_filter.mpr ⟨member, decide_eq_true last⟩)

theorem ret_parted (fits : Fits s) {set : Finset ℕ} (judged : neverReturns (build s) set = true)
    (member : b ∈ (build s).blocks) (returns : LastFlow s b .ret) : Parted s b := by
  by_contra whole
  obtain ⟨complete, resolved⟩ := neverReturns_complete judged
  obtain ⟨front, last, straight, -, -⟩ := block_tiled complete resolved fits member whole
  have insns : blockInsns s b = front ++ [last] := readFrom_tiles (advances fits) straight.tiled (le_refl _)
  have flow : last.flow = .ret := by
    simpa [LastFlow, insns] using returns
  obtain ⟨targets, leads, -⟩ := straight.leads
  rw [flow] at leads
  obtain ⟨successors, terminator⟩ := Prod.mk.inj leads
  have good := neverReturns_ends judged member successors
  simp [endsForGood, terminator] at good

theorem add_sound {set : Finset ℕ} (sound : Sound p set) (adds : Adds p set s) (settled : Settled p set s) :
    Sound p (insert s.entry set) := by
  intro f member
  rcases Finset.mem_insert.mp member with rfl | old
  · obtain ⟨inside, -, judged⟩ := adds
    have only : ∀ {s'}, s' ∈ p.functions → s'.entry = s.entry → s' = s :=
      fun inside' same => p.sorted.key_unique Setting.entry inside' inside same
    intro may
    cases mayReturn_iff.mp may with
    | unknown _ none => exact none s inside rfl
    | unfinished _ inside' same incomplete =>
      obtain rfl := only inside' same
      obtain ⟨complete, resolved⟩ := neverReturns_complete judged
      simp [Cfg.isComplete, complete, resolved] at incomplete
    | ret free inside' same reached passable last =>
      obtain rfl := only inside' same
      exact (settled free _ reached passable).2 ⟨last, ret_parted (p.fits _ inside) judged reached.block last⟩
    | tailCall free inside' same reached passable calls comes =>
      obtain rfl := only inside' same
      rcases (settled free _ reached passable).1 _ calls with already | never
      · exact sound _ already comes
      · exact never comes
  · exact sound f old

theorem add_settled {set : Finset ℕ} (adds : Adds p set s) (sound : Sound p (insert s.entry set)) :
    Settled p set s := by
  intro free b reached passable
  have never : s.entry ∉ MayReturn p := sound _ (Finset.mem_insert_self _ _)
  constructor
  · intro t calls
    right
    intro may
    exact never (mayReturn_iff.mpr (.tailCall free adds.1 rfl reached passable calls may))
  · rintro ⟨last, -⟩
    exact never (mayReturn_iff.mpr (.ret free adds.1 rfl reached passable last))

theorem graph_of_turns (p : Program) (done : ∀ s ∈ p.functions, (turns s 8 s.begin).work = []) :
    p.graph = p.functions.map (fun s => (s.entry, finish s (turns s 8 s.begin))) :=
  List.map_congr_left (fun s member => by rw [build_of_turns s 8 (done s member)])

/-- A program of functions of a few bytes each, in memory from address 0. -/
def lowProgram (bytes : List UInt8) (short : bytes.length ≤ 64) (named : List (ℕ × Option String))
    (entries : List ℕ) (sorted : entries.Pairwise (· < ·)) : Program where
  named := named
  functions := entries.map (fun entry => lowSetting bytes short entry entries.toFinset ∅)
  sorted := List.pairwise_map.mpr (sorted.imp id)
  fits := by
    intro s member
    obtain ⟨entry, -, rfl⟩ := List.mem_map.mp member
    exact lowSetting_fits _ _ _ _ _

/-- A function jumps to a return if a condition holds, and to `abort` otherwise. -/
def conditionalBytes : List UInt8 :=
  [0x74, 0x06, 0xeb, 0x0c, 0x90, 0x90, 0x90, 0x90, 0xc3, 0x90, 0x90, 0x90, 0x90, 0x90, 0x90, 0x90, 0xcc]

/-- A function jumps to a jump to a return if a condition holds, and to `abort`
    otherwise. -/
def twoTailBytes : List UInt8 :=
  [0x74, 0x02, 0xeb, 0x0c, 0xeb, 0x02, 0x90, 0x90, 0xc3, 0x90, 0x90, 0x90, 0x90, 0x90, 0x90, 0x90, 0xcc]

/-- A function jumps into the operand of a return if a condition holds, where it traps,
    and returns otherwise. -/
def partedBytes : List UInt8 := [0x74, 0x01, 0xc2, 0xcc, 0x00]

def conditional : Program :=
  lowProgram conditionalBytes (by decide) [(0, none), (8, none), (16, some "abort")] [0, 8, 16] (by decide)

def twoTailCalls : Program :=
  lowProgram twoTailBytes (by decide) [(0, none), (8, none), (16, some "abort")] [0, 8, 16] (by decide)

def partedReturn : Program := lowProgram partedBytes (by decide) [(0, none)] [0] (by decide)

theorem lowProgram_free {bytes : List UInt8} {short : bytes.length ≤ 64} {named : List (ℕ × Option String)}
    {entries : List ℕ} {sorted : entries.Pairwise (· < ·)} (unnamed : f ∉ namedSet named) :
    ¬ Trusted (lowProgram bytes short named entries sorted) f := by
  rintro (byName | ⟨s, member, told⟩)
  · exact unnamed byName
  · obtain ⟨entry, -, rfl⟩ := List.mem_map.mp member
    simp [lowSetting] at told

theorem passable_of_plain {returns : Set ℕ}
    (plain : (blockInsns s b).all (fun i => match i.flow with | .call _ => false | _ => true) = true) :
    Passable s returns b := by
  intro i member t call
  have here := List.all_eq_true.mp plain i member
  simp [call] at here

theorem block_of_turns (done : (turns s 8 s.begin).work = []) (held : b ∈ (finish s (turns s 8 s.begin)).blocks) :
    b ∈ (build s).blocks := by
  rw [build_of_turns s 8 done]
  exact held

end E5r.NoReturn
