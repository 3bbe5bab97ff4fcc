import E5r.CacheCodec
import E5r.RustText
import E5r.SsaModel

/-!
The calls of a program, all of them and those to one name. The shortcut goes from the name to
the functions that bear it, to the references to their entries and to the one function found
at each reference, and it loses exactly the calls of the functions it does not come to.
-/
namespace E5r.CallSites
open CacheCodec SortedRecords SsaModel
open BlockInterner (Entry)

inductive Strength where
  | heuristic | inferred | proven | asserted
deriving DecidableEq

def Evidence.strength : Evidence → Strength
  | .objcMetadata | .swiftMetadata | .rustPanic | .codeSymbol | .importThunk | .callTarget | .branchTarget
  | .jumpTable => .inferred
  | .prologuePattern | .linearSweep | .dataPointer => .heuristic
  | Evidence.annotation => .asserted
  | _ => .proven

abbrev Fn := Function (List Entry)

structure Symbol where
  name : String
  addr : ℕ
  size : ℕ

/-- The recovered functions by entry, the references between them and the symbols of the file. -/
structure Program where
  functions : List Fn
  xrefs : XrefIndex
  symbols : List Symbol
  byEntry : StrictlySorted Function.entry functions
  byTarget : Sorted Xref.toKey xrefs.byTo
  byAddr : Sorted Symbol.addr symbols

/-- What the other analyses supply: the demangled form of a name, the SSA form of a function,
    the count of arguments its code takes, and what is known of the arguments of the call at
    a place of a block when its callee declares a count of them. -/
structure Analyses (Argument : Type) where
  pretty : String → String
  build : Fn → Option SsaFunction
  recovered : SsaFunction → ℕ
  facts : SsaFunction → ℕ → ℕ → ℕ → List Argument

structure CallSite (Argument : Type) where
  at_ : ℕ
  caller : ℕ
  callerName : String
  target : Option ℕ
  targetName : Option String
  indirect : Bool
  targetStrength : Strength
  arguments : List Argument

def stripped (suffix name : String) : String :=
  ((RustText.stripSuffix suffix.toList name.toList).map String.ofList).getD name

/-- A name with the import thunk's decoration taken off. -/
def plain (name : String) : String := stripped "@got" (stripped "@plt" name)

def named (name n : String) : Bool := n = name || plain n = name

variable {A : Type} (a : Analyses A) (p : Program) (name : String)

def CallSite.calls (c : CallSite A) : Bool := c.targetName.any (named name)

/-- References pointing at an address. -/
def xrefsTo (addr : ℕ) : List Xref :=
  (p.xrefs.byTo.take (partitionPoint (fun x => decide (x.target ≤ addr)) p.xrefs.byTo)).drop
    (partitionPoint (fun x => decide (x.target < addr)) p.xrefs.byTo)

def function (addr : ℕ) : Option Fn := p.functions.find? fun f => f.entry = addr

def functionAt (addr : ℕ) : Option Fn :=
  (p.functions.filter fun f => f.range.contains addr).find? fun f =>
    f.cfg.blocks.any fun b => b.block.range.contains addr

def displayName (f : Fn) : String :=
  match f.name with
  | some n => a.pretty n
  | none => "sub_" ++ String.ofList (Nat.toDigits 16 f.entry)

/-- Symbol covering an address, preferring the closest start at or below it. -/
def symbolAt (addr : ℕ) : Option Symbol :=
  (p.symbols.take (partitionPoint (fun s => decide (s.addr ≤ addr)) p.symbols)).reverse.find? fun s =>
    s.addr ≤ addr ∧ (s.size = 0 ∨ addr - s.addr < s.size)

/-- Name for an address: an exact function, else a symbol, else nothing. -/
def nameOf (addr : ℕ) : Option String :=
  match function p addr with
  | some f => some (displayName a f)
  | none => ((symbolAt p addr).filter fun s => s.name.toList.head?.any (· ≠ '$')).map fun s =>
      if s.addr = addr then a.pretty s.name
      else a.pretty s.name ++ "+0x" ++ String.ofList (Nat.toDigits 16 (addr - s.addr))

/-- The functions found at the calls of the functions of this name, in the order they are found. -/
def foundFor : List Fn :=
  (p.functions.filter fun t => named name (displayName a t)).flatMap fun t =>
    ((xrefsTo p t.entry).filter fun x => x.kind = .call).filterMap fun x => functionAt p x.source

/-- The functions that contain a direct call to a function of this name. -/
def callersOfName : List Fn := (foundFor a p name).foldl (fun out f => insertKey Function.entry f out) []

/-- How sure we are about who is being called. -/
def targetStrength (target : Option ℕ) (indirect : Bool) : Strength :=
  if indirect then .proven
  else match target.bind (function p) with
    | some f => Evidence.strength f.provenance.best
    | none => .inferred

/-- How many integer arguments a callee's own code says it takes. -/
def recoveredArity (target : ℕ) : ℕ := ((function p target).bind a.build).elim 0 a.recovered

def declaredArity (arity : List (ℕ × ℕ)) (target : ℕ) : ℕ × List (ℕ × ℕ) :=
  match arity.lookup target with
  | some known => (known, arity)
  | none => (recoveredArity a p target, (target, recoveredArity a p target) :: arity)

def arityOf (arity : List (ℕ × ℕ)) : Option ℕ → ℕ × List (ℕ × ℕ)
  | some target => declaredArity a p arity target
  | none => (0, arity)

/-- Whether an operation calls, and if so, whether the machine computes the target. -/
def callKind (op : SsaOp) : Option Bool :=
  match op.kind with
  | .op (.basic .call) => some false
  | .op (.basic .callInd) => some true
  | _ => none

def directTarget (op : SsaOp) (indirect : Bool) : Option ℕ :=
  (op.inputs.head?.bind Operand.asConst).filter fun _ => !indirect

def site (f : Fn) (op : SsaOp) (indirect : Bool) (arguments : List A) : CallSite A where
  at_ := op.addr
  caller := f.entry
  callerName := displayName a f
  target := directTarget op indirect
  targetName := (directTarget op indirect).bind (nameOf a p)
  indirect := indirect
  targetStrength := targetStrength p (directTarget op indirect) indirect
  arguments := arguments

def callsFrom (only : Option String) (f : Fn) (ssa : SsaFunction) :
    List (ℕ × SsaOp × ℕ) → List (ℕ × ℕ) → List (CallSite A) × List (ℕ × ℕ)
  | [], arity => ([], arity)
  | (block, op, index) :: rest, arity =>
    match callKind op with
    | none => callsFrom only f ssa rest arity
    | some indirect =>
      if only.all fun o => ((directTarget op indirect).bind (nameOf a p)).any (named o) then
        let (declared, arity) := arityOf a p arity (directTarget op indirect)
        let (later, arity) := callsFrom only f ssa rest arity
        (site a p f op indirect (a.facts ssa block index declared) :: later, arity)
      else callsFrom only f ssa rest arity

def places (ssa : SsaFunction) : List (ℕ × SsaOp × ℕ) :=
  ssa.blocks.flatMap fun b => b.2.ops.zipIdx.map fun o => (b.1, o)

/-- Every call in one function. -/
def sitesOf (only : Option String) (f : Fn) (arity : List (ℕ × ℕ)) : List (CallSite A) × List (ℕ × ℕ) :=
  match a.build f with
  | none => ([], arity)
  | some ssa => callsFrom a p only f ssa (places ssa) arity

def sitesFrom (only : Option String) : List Fn → List (ℕ × ℕ) → List (CallSite A)
  | [], _ => []
  | f :: rest, arity => (sitesOf a p only f arity).1 ++ sitesFrom only rest (sitesOf a p only f arity).2

/-- Every call in the program, with what is known about its arguments. -/
def callSites : List (CallSite A) := sitesFrom a p none p.functions []

/-- Every call to one named callee, anywhere in the program. -/
def callSitesTo : List (CallSite A) := sitesFrom a p (some name) (callersOfName a p name) []

/-- The shortcut gives the calls to the name, in the order of the whole. -/
def Lossless : Prop := callSitesTo a p name = (callSites a p).filter (CallSite.calls name)

/-- Every direct call of a function has a reference to its target. -/
def Indexed : Prop :=
  ∀ f ∈ p.functions, ∀ ssa, a.build f = some ssa → ∀ op ∈ opsOf ssa.blocks, callKind op = some false →
    ∀ target, directTarget op false = some target →
      ∃ x ∈ xrefsTo p target, x.source = op.addr ∧ x.kind = .call

def CallsNamed (f : Fn) : Prop :=
  ∃ ssa, a.build f = some ssa ∧ ∃ op ∈ opsOf ssa.blocks, callKind op = some false ∧
    ∃ target, directTarget op false = some target ∧ ∃ n, nameOf a p target = some n ∧ named name n

/-- The function is the one found at a call of some recovered function of this name. -/
def Reached (f : Fn) : Prop :=
  ∃ t ∈ p.functions, named name (displayName a t) ∧
    ∃ x ∈ xrefsTo p t.entry, x.kind = .call ∧ functionAt p x.source = some f

/-- What the memo of arities holds was recovered from the code. -/
def Sound (arity : List (ℕ × ℕ)) : Prop := ∀ t n, arity.lookup t = some n → n = recoveredArity a p t

def described (f : Fn) (ssa : SsaFunction) (place : ℕ × SsaOp × ℕ) : Option (CallSite A) :=
  (callKind place.2.1).map fun indirect => site a p f place.2.1 indirect
    (a.facts ssa place.1 place.2.2 ((directTarget place.2.1 indirect).elim 0 (recoveredArity a p)))

def allSites (f : Fn) : List (CallSite A) := (a.build f).elim [] fun ssa => (places ssa).filterMap (described a p f ssa)

/-- Whether a call is to the only callee worth describing. -/
def asked (only : Option String) (c : CallSite A) : Bool := only.all fun o => c.calls o

variable {a p name}

theorem arityOf_sound {arity : List (ℕ × ℕ)} (sound : Sound a p arity) (target : Option ℕ) :
    (arityOf a p arity target).1 = target.elim 0 (recoveredArity a p) ∧ Sound a p (arityOf a p arity target).2 := by
  cases target with
  | none => exact ⟨rfl, sound⟩
  | some t =>
    rw [arityOf, declaredArity]
    split
    · next known found => exact ⟨sound t known found, sound⟩
    · refine ⟨rfl, fun u n found => ?_⟩
      rw [List.lookup_cons] at found
      split at found
      · next same => rw [← Option.some.inj found, eq_of_beq same]
      · exact sound u n found

theorem callsFrom_eq (only : Option String) (f : Fn) (ssa : SsaFunction) (ops : List (ℕ × SsaOp × ℕ))
    {arity : List (ℕ × ℕ)} (sound : Sound a p arity) :
    (callsFrom a p only f ssa ops arity).1 =
      (ops.filterMap (described a p f ssa)).filter (asked only) ∧
    Sound a p (callsFrom a p only f ssa ops arity).2 := by
  induction ops generalizing arity with
  | nil => exact ⟨rfl, sound⟩
  | cons place rest ih =>
    obtain ⟨block, op, index⟩ := place
    cases kind : callKind op with
    | none => simpa only [callsFrom, List.filterMap_cons, described, kind, Option.map_none] using ih sound
    | some indirect =>
      obtain ⟨declared, kept⟩ := arityOf_sound sound (directTarget op indirect)
      simp only [callsFrom, List.filterMap_cons, described, kind, Option.map_some]
      have judged : ∀ given, asked only (site a p f op indirect given) =
          only.all fun o => ((directTarget op indirect).bind (nameOf a p)).any (named o) := fun _ => rfl
      by_cases hit : only.all fun o => ((directTarget op indirect).bind (nameOf a p)).any (named o)
      · obtain ⟨later, ends⟩ := ih kept
        rw [if_pos hit, List.filter_cons_of_pos (p := asked only) ((judged _).trans hit), declared, ← later]
        exact ⟨rfl, ends⟩
      · rw [if_neg hit, List.filter_cons_of_neg (p := asked only) (judged _ ▸ hit)]
        exact ih sound

theorem sitesFrom_eq (only : Option String) (fs : List Fn) {arity : List (ℕ × ℕ)} (sound : Sound a p arity) :
    sitesFrom a p only fs arity = fs.flatMap fun f => (allSites a p f).filter (asked only) := by
  induction fs generalizing arity with
  | nil => rfl
  | cons f rest ih =>
    have one : (sitesOf a p only f arity).1 = (allSites a p f).filter (asked only) ∧
        Sound a p (sitesOf a p only f arity).2 := by
      rw [sitesOf, allSites]
      cases a.build f with
      | none => exact ⟨rfl, sound⟩
      | some ssa => exact callsFrom_eq only f ssa _ sound
    rw [sitesFrom, List.flatMap_cons, one.1, ih one.2]

theorem insertKey_filter {α : Type} {key : α → ℕ} {x : α} {l : List α} (strict : StrictlySorted key l)
    (member : x ∈ l) (keep : α → Bool) :
    insertKey key x (l.filter keep) = l.filter fun y => keep y || key y = key x := by
  induction l with
  | nil => exact absurd member List.not_mem_nil
  | cons c rest ih =>
    obtain ⟨above, tail⟩ := List.pairwise_cons.mp strict
    rcases List.mem_cons.mp member with rfl | later
    · have others : rest.filter (fun y => keep y || key y = key x) = rest.filter keep :=
        List.filter_congr fun y inside => by simp [(above y inside).ne']
      have whole : (x :: rest).filter (fun y => keep y || key y = key x) = x :: rest.filter keep := by
        rw [List.filter_cons_of_pos (by simp), others]
      rw [whole]
      by_cases kept : keep x
      · rw [List.filter_cons_of_pos kept, insertKey, if_neg (lt_irrefl _), if_pos rfl]
      · rw [List.filter_cons_of_neg kept]
        cases shape : rest.filter keep with
        | nil => rfl
        | cons y ys =>
          have inside : y ∈ rest := (List.mem_filter.mp (shape ▸ List.mem_cons_self)).1
          rw [insertKey, if_pos (above y inside)]
    · have below := above x later
      by_cases kept : keep c
      · rw [List.filter_cons_of_pos kept, insertKey, if_neg (by omega), if_neg (by omega), ih tail later,
          List.filter_cons_of_pos (by simp [kept])]
      · rw [List.filter_cons_of_neg kept, ih tail later, List.filter_cons_of_neg (by simp [kept, below.ne])]

theorem foldl_insertKey_filter {α : Type} {key : α → ℕ} {l : List α} (strict : StrictlySorted key l) (xs : List α)
    (members : ∀ x ∈ xs, x ∈ l) (keep : α → Bool) :
    xs.foldl (fun out x => insertKey key x out) (l.filter keep) =
      l.filter fun y => keep y || xs.any fun x => key y = key x := by
  induction xs generalizing keep with
  | nil => simp
  | cons x xs ih =>
    rw [List.foldl_cons, insertKey_filter strict (members x List.mem_cons_self),
      ih fun y inside => members y (List.mem_cons_of_mem _ inside)]
    simp [Bool.or_assoc]

theorem mem_foundFor {f : Fn} : f ∈ foundFor a p name ↔ Reached a p name f := by
  simp only [foundFor, List.mem_flatMap, List.mem_filter, List.mem_filterMap, Reached, decide_eq_true_eq, and_assoc]

theorem callers_eq : callersOfName a p name = p.functions.filter fun f => (foundFor a p name).contains f := by
  have members : ∀ x ∈ foundFor a p name, x ∈ p.functions := by
    intro x found
    obtain ⟨_, _, _, _, _, _, here⟩ := mem_foundFor.mp found
    exact (List.mem_filter.mp (List.mem_of_find?_eq_some here)).1
  have none : (p.functions.filter fun _ => false) = [] := List.filter_false _
  rw [callersOfName, ← none, foldl_insertKey_filter p.byEntry _ members]
  refine List.filter_congr fun f inside => ?_
  rw [Bool.false_or, Bool.eq_iff_iff, List.any_eq_true, List.contains_iff_mem]
  constructor
  · rintro ⟨x, found, same⟩
    rwa [p.byEntry.key_unique _ inside (members x found) (of_decide_eq_true same)]
  · exact fun found => ⟨f, found, decide_eq_true rfl⟩

/-- What part of a list gives is all that the list gives exactly when the rest gives nothing. -/
theorem flatMap_filter_iff {α β : Type} (l : List α) (keep : α → Bool) (g : α → List β) :
    (l.filter keep).flatMap g = l.flatMap g ↔ ∀ x ∈ l, g x ≠ [] → keep x = true := by
  induction l with
  | nil => simp
  | cons x rest ih =>
    rw [List.flatMap_cons, List.forall_mem_cons, ← ih]
    by_cases kept : keep x
    · rw [List.filter_cons_of_pos kept, List.flatMap_cons, List.append_cancel_left_eq]
      simp [kept]
    · rw [List.filter_cons_of_neg kept]
      constructor
      · intro same
        have shorter : ((rest.filter keep).flatMap g).length ≤ (rest.flatMap g).length :=
          (List.filter_sublist.flatMap g).length_le
        have sizes := congrArg List.length same
        rw [List.length_append] at sizes
        have nothing : g x = [] := List.length_eq_zero_iff.mp (by omega)
        rw [nothing, List.nil_append] at same
        exact ⟨fun some => absurd nothing some, same⟩
      · rintro ⟨nothing, same⟩
        rw [by_contra fun some => kept (nothing some), List.nil_append, same]

theorem map_places (ssa : SsaFunction) : (places ssa).map (fun place => place.2.1) = opsOf ssa.blocks := by
  simp [places, opsOf, List.map_flatMap, Function.comp_def]

theorem calls_site {f : Fn} {op : SsaOp} {indirect : Bool} {given : List A} :
    (site a p f op indirect given).calls name = true ↔
      indirect = false ∧ ∃ target, directTarget op false = some target ∧
        ∃ n, nameOf a p target = some n ∧ named name n := by
  cases indirect with
  | false =>
    simp only [CallSite.calls, site, Option.any_eq_true, Option.bind_eq_some_iff, true_and]
    exact ⟨fun ⟨n, ⟨t, direct, called⟩, same⟩ => ⟨t, direct, n, called, same⟩,
      fun ⟨t, direct, n, called, same⟩ => ⟨n, ⟨t, direct, called⟩, same⟩⟩
  | true => simp [CallSite.calls, site, directTarget]

theorem calls_ne_nil {f : Fn} : (allSites a p f).filter (CallSite.calls name) ≠ [] ↔ CallsNamed a p name f := by
  rw [ne_eq, List.filter_eq_nil_iff, allSites, CallsNamed]
  cases a.build f with
  | none => simp
  | some ssa =>
    rw [not_forall₂]
    constructor
    · rintro ⟨c, member, called⟩
      obtain ⟨place, inside, here⟩ := List.mem_filterMap.mp member
      obtain ⟨indirect, kind, rfl⟩ := Option.map_eq_some_iff.mp here
      obtain ⟨rfl, direct⟩ := calls_site.mp (not_not.mp called)
      exact ⟨ssa, rfl, place.2.1, map_places ssa ▸ List.mem_map_of_mem inside, kind, direct⟩
    · rintro ⟨_, built, op, inside, kind, direct⟩
      obtain rfl := Option.some.inj built
      obtain ⟨place, member, rfl⟩ := List.mem_map.mp (map_places ssa ▸ inside)
      exact ⟨_, List.mem_filterMap.mpr ⟨place, member, Option.map_eq_some_iff.mpr ⟨false, kind, rfl⟩⟩,
        not_not.mpr (calls_site.mpr ⟨rfl, direct⟩)⟩

/-- The shortcut loses nothing exactly when every function that calls an address of the name
    is the one found at some call of a recovered function of the name. -/
theorem lossless_iff (a : Analyses A) (p : Program) (name : String) :
    Lossless a p name ↔ ∀ f ∈ p.functions, CallsNamed a p name f → Reached a p name f := by
  have empty : Sound a p [] := fun _ _ found => nomatch found
  have all : (allSites a p · |>.filter (asked none)) = allSites a p := funext fun f => List.filter_true _
  rw [Lossless, callSitesTo, callSites, sitesFrom_eq _ _ empty, sitesFrom_eq _ _ empty, all, callers_eq,
    List.filter_flatMap, show asked (A := A) (some name) = CallSite.calls name from rfl, flatMap_filter_iff]
  simp only [calls_ne_nil, List.contains_iff_mem, mem_foundFor]

/-- The shortcut invents no call: it gives some of the calls to the name, in the order of the whole. -/
theorem callSitesTo_sublist (a : Analyses A) (p : Program) (name : String) :
    (callSitesTo a p name).Sublist ((callSites a p).filter (CallSite.calls name)) := by
  have empty : Sound a p [] := by
    intro _ _ found
    cases found
  have all : (allSites a p · |>.filter (asked none)) = allSites a p := funext fun f => List.filter_true _
  rw [callSitesTo, callSites, sitesFrom_eq _ _ empty, sitesFrom_eq _ _ empty, all, callers_eq, List.filter_flatMap]
  exact List.filter_sublist.flatMap _

def callTo (addr : ℕ) (target : UInt64) : SsaOp := ⟨addr, .op (.basic .call), none, [.const target 8], 8⟩

/-- A function that ends in the block of two calls. -/
def holder (entry : ℕ) : Fn :=
  ⟨entry, none, ⟨0x1000, 0x1210, by decide, by decide⟩, ⟨entry, [⟨0x1200, ⟨0x1200, 0x1210, by decide, by decide⟩, [], 2,
    false, .ret⟩], [0x2000, 0x3000], false, [], .complete⟩, ⟨.symbolTable, []⟩⟩

/-- Two functions share that block, whose calls are to a recovered function and to a symbol. -/
def sharing : Program where
  functions := [holder 0x1000, holder 0x1100, ⟨0x2000, some "h", ⟨0x2000, 0x2001, by decide, by decide⟩,
    ⟨0x2000, [], [], false, [], .undecodable⟩, ⟨.symbolTable, []⟩⟩]
  xrefs := ⟨[], [⟨0x1200, 0x2000, .call⟩, ⟨0x1205, 0x3000, .call⟩]⟩
  symbols := [⟨"puts", 0x3000, 0⟩]
  byEntry := by simp [StrictlySorted, holder]
  byTarget := by simp [Sorted, Xref.toKey, Prod.Lex.le_iff]
  byAddr := List.pairwise_singleton _ _

def sharedCalls : SsaFunction :=
  ⟨.x86_64, 0x1000, [(0x1200, ⟨[callTo 0x1200 0x2000, callTo 0x1205 0x3000], [], []⟩)], by simp, by decide⟩

def plainly : Analyses Unit :=
  ⟨id, fun f => if f.cfg.blocks = [] then none else some sharedCalls, fun _ => 0, fun _ _ _ _ => []⟩

/-- The call to the symbol is in neither function's answer, and the call of the second function
    to the recovered one is lost to the first. -/
theorem shared_calls_lost :
    Indexed plainly sharing ∧ ¬ Lossless plainly sharing "puts" ∧ ¬ Lossless plainly sharing "h" := by
  refine ⟨?_, fun same => ?_, fun same => ?_⟩
  · intro f _ ssa built op member _ target direct
    have only : ssa = sharedCalls := by
      simp only [plainly] at built
      split at built
      · cases built
      · exact (Option.some.inj built).symm
    subst only
    simp only [sharedCalls, opsOf, List.flatMap_cons, List.flatMap_nil, List.append_nil, List.mem_cons,
      List.not_mem_nil, or_false] at member
    rcases member with rfl | rfl
    · obtain rfl : target = 0x2000 := (Option.some.inj direct).symm
      exact ⟨⟨0x1200, 0x2000, .call⟩, by decide, rfl, rfl⟩
    · obtain rfl : target = 0x3000 := (Option.some.inj direct).symm
      exact ⟨⟨0x1205, 0x3000, .call⟩, by decide, rfl, rfl⟩
  · exact absurd (congrArg List.length same) (by decide)
  · exact absurd (congrArg List.length same) (by decide)

end E5r.CallSites
