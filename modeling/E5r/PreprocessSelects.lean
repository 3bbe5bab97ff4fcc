import E5r.NestedChoices
import E5r.Preprocess

/-!
# What the conditionals of a specification select

The lines of a file, with the lines of every file it includes in place of the include, are those of a
program of nested choices, and the preprocessor's output is what that program writes. This holds when
an include that falls back to its bare path finds the lines, the definitions and the conditionals as
they were before.
-/

namespace E5r.PreprocessSelects

open RustText Preprocess NestedChoices

/-! ### What the lines stand for -/

def directiveOf (raw : Text) : Option (Text × Text) :=
  (stripPrefix ['@'] (trimStart raw)).map fun rest => splitWord (trim (stripComment false rest))

/-- What an `@if`, an `@ifdef`, an `@ifndef` or an `@elif` asks. -/
structure Ask where
  word : Text
  args : Text
  place : Location

inductive Item where
  /-- A line by itself. -/
  | line (raw : Text) (place : Location)
  /-- An include, with the file whose lines come behind it. -/
  | followed (raw : Text) (place : Location) (dir path : Path)

def markOf (raw : Text) (place : Location) : Mark Ask Item :=
  match directiveOf raw with
  | none => .item (.line raw place)
  | some (word, args) =>
    if word = "if".toList ∨ word = "ifdef".toList ∨ word = "ifndef".toList then .opens ⟨word, args, place⟩
    else if word = "elif".toList then .orElse ⟨word, args, place⟩
    else if word = "else".toList then .otherwise
    else if word = "endif".toList then .closes
    else .item (.line raw place)

mutual
/-- The lines of a file, with those of the files it includes behind the includes. -/
inductive Reads (loader : Loader) : Path → List (Mark Ask Item) → Prop where
  | file {path : Path} {text : Text} {ms : List (Mark Ask Item)} (loads : loader path = .ok text)
      (reads : ReadsLines loader path 0 (lines text) ms) : Reads loader path ms

inductive ReadsLines (loader : Loader) : Path → ℕ → List Text → List (Mark Ask Item) → Prop where
  | nil {path : Path} {index : ℕ} : ReadsLines loader path index [] []
  | line {path : Path} {index : ℕ} {raw : Text} {rest : List Text} {ms : List (Mark Ask Item)}
      (later : ReadsLines loader path (index + 1) rest ms) :
      ReadsLines loader path index (raw :: rest) (markOf raw ⟨path, index + 1⟩ :: ms)
  | include_ {path inner : Path} {index : ℕ} {raw : Text} {rest : List Text} {sub ms : List (Mark Ask Item)}
      (reads : Reads loader inner sub) (later : ReadsLines loader path (index + 1) rest ms) :
      ReadsLines loader path index (raw :: rest)
        (.item (.followed raw ⟨path, index + 1⟩ path.parent inner) :: (sub ++ ms))
end

/-- The files whose lines come behind an include. -/
def followed (ms : List (Mark Ask Item)) : List Path :=
  ms.filterMap fun
    | .item (.followed _ _ _ path) => some path
    | _ => none

/-! ### What they do -/

/-- What is written so far: the definitions, the lines with where they came from, and the files
whose lines were let through. -/
structure Written where
  defines : Defines
  lines : List (Text × Location)
  followed : List Path

def sourceOf (lines : List (Text × Location)) : Source := lines.foldl (fun s l => s.push l.1 l.2) .empty

section

variable (loader : Loader) (limits : Limits)

/-- From the lines and definitions so far, the file is not read to its end. -/
def Fails (path : Path) (w : Written) : Prop :=
  ∃ more st e, st.defines = w.defines ∧ st.out = sourceOf w.lines ∧ (file loader limits more path st).2 = .error e

def Tests (q : Ask) (w : Written) (v : Bool) : Prop := asks limits w.defines q.word q.args q.place = .ok v

inductive Acts : Item → Written → Written → Prop where
  | blank {raw : Text} {place : Location} {w : Written} (plain : directiveOf raw = none)
      (empty : (trim raw).isEmpty = true) : Acts (.line raw place) w w
  | text {raw t : Text} {place : Location} {w : Written} (plain : directiveOf raw = none)
      (some_ : (trim raw).isEmpty = false) (expands : expand limits w.defines raw place = .ok t) :
      Acts (.line raw place) w { w with lines := w.lines ++ [(t, place)] }
  | define {raw args : Text} {place : Location} {w : Written} (is : directiveOf raw = some ("define".toList, args))
      (name : isIdentifier (splitWord args).1 = true) :
      Acts (.line raw place) w { w with
        defines := Function.update w.defines (splitWord args).1 (some (unquote (trim (splitWord args).2))) }
  | undef {raw args : Text} {place : Location} {w : Written} (is : directiveOf raw = some ("undef".toList, args)) :
      Acts (.line raw place) w { w with defines := Function.update w.defines (splitWord args).1 none }
  | follows {raw args t : Text} {place : Location} {dir path : Path} {w : Written}
      (is : directiveOf raw = some ("include".toList, args)) (names : includePath limits w.defines args place = .ok t)
      (found : path = nextTo dir t ∨ path = .of t ∧ Fails loader limits (nextTo dir t) w) :
      Acts (.followed raw place dir path) w { w with followed := w.followed ++ [path] }

def startOf (lines : List (Text × Location)) (i : ℕ) : ℕ := utf8Len ((lines.take i).flatMap fun l => l.1 ++ ['\n'])

/-- The output is what a program of nested choices writes whose lines are those of the file and of the
files included where a line is let through, with the conditionals left open closed at the end. Every
offset into a line of the output is known to have come from that line's file and line. -/
def Selects (defines : Defines) (path : Path) (src : Source) : Prop :=
  ∃ ms b w, Reads loader path ms ∧ b.marks = ms ++ List.replicate src.warnings.length .closes ∧
    Block.Does (Tests limits) (Acts loader limits) b ⟨defines, [], []⟩ w ∧ w.followed = followed ms ∧
      src.text = (w.lines.flatMap fun l => l.1 ++ ['\n']) ∧ src.origins = w.lines.map Prod.snd ∧
        ∀ i l offset, w.lines[i]? = some l → startOf w.lines i ≤ offset → offset < startOf w.lines (i + 1) →
          src.location offset = some l.2

end

/-! ### The output -/

theorem sourceOf_append (lines : List (Text × Location)) (l : Text × Location) :
    sourceOf (lines ++ [l]) = (sourceOf lines).push l.1 l.2 := by
  rw [sourceOf, List.foldl_append]
  rfl

theorem utf8Len_append (a b : Text) : utf8Len (a ++ b) = utf8Len a + utf8Len b := by
  rw [utf8Len, List.map_append, List.sum_append]
  rfl

theorem sourceOf_spec (lines : List (Text × Location)) :
    (sourceOf lines).text = (lines.flatMap fun l => l.1 ++ ['\n']) ∧
      (sourceOf lines).origins = lines.map Prod.snd ∧
      (sourceOf lines).lineStarts = (List.range lines.length).map (startOf lines) ∧
      (sourceOf lines).warnings = [] := by
  induction lines using List.reverseRecOn with
  | nil => exact ⟨rfl, rfl, rfl, rfl⟩
  | append_singleton lines l ih =>
    obtain ⟨text, origins, starts, warnings⟩ := ih
    rw [sourceOf_append]
    refine ⟨?_, ?_, ?_, warnings⟩
    · simp [Source.push, text]
    · simp [Source.push, origins]
    · have before : ∀ i ∈ List.range lines.length, startOf (lines ++ [l]) i = startOf lines i := by
        intro i member
        rw [startOf, startOf, List.take_append_of_le_length (List.mem_range.mp member).le]
      rw [Source.push, starts, List.length_append, List.length_singleton, List.range_succ, List.map_append,
        List.map_congr_left before, text]
      simp [startOf]

theorem startOf_mono (lines : List (Text × Location)) {i j : ℕ} (order : i ≤ j) :
    startOf lines i ≤ startOf lines j := by
  obtain ⟨n, rfl⟩ := Nat.exists_eq_add_of_le order
  rw [startOf, startOf, List.take_add, List.flatMap_append, utf8Len_append]
  omega

/-- The lines that start up to an offset are those up to the line it is in. -/
theorem location_spec {lines : List (Text × Location)} {i offset : ℕ} {l : Text × Location}
    (is : lines[i]? = some l) (start : startOf lines i ≤ offset) (stop : offset < startOf lines (i + 1)) :
    (sourceOf lines).location offset = some l.2 := by
  obtain ⟨-, origins, starts, -⟩ := sourceOf_spec lines
  obtain ⟨inside, here⟩ := List.getElem?_eq_some_iff.mp is
  have upTo : ((List.range lines.length).map (startOf lines)).takeWhile (fun start => start ≤ offset) =
      (List.range (i + 1)).map (startOf lines) := by
    obtain ⟨n, more⟩ := Nat.exists_eq_add_of_le (show i + 1 ≤ lines.length from inside)
    have before : ∀ a ∈ (List.range (i + 1)).map (startOf lines), decide (a ≤ offset) = true := by
      intro a member
      obtain ⟨j, below, rfl⟩ := List.mem_map.mp member
      have := startOf_mono lines (show j ≤ i by have := List.mem_range.mp below; omega)
      simp only [decide_eq_true_eq]
      omega
    have after :
        (((List.range n).map (i + 1 + ·)).map (startOf lines)).takeWhile (fun start => start ≤ offset) = [] := by
      cases n with
      | zero => rfl
      | succ n =>
        rw [List.range_succ_eq_map, List.map_cons, List.map_cons]
        exact List.takeWhile_cons_of_neg (by simpa using stop)
    rw [more, List.range_add, List.map_append, List.takeWhile_append_of_pos before, after, List.append_nil]
  have some_ : (lines.map Prod.snd).isEmpty = false := by
    cases lines with
    | nil => simp at inside
    | cons => rfl
  rw [Source.location, origins, starts, upTo, some_]
  simp only [Bool.false_eq_true, if_false, List.length_map, List.length_range]
  rw [show min (i + 1 - 1) (lines.length - 1) = i by omega, List.getElem?_map, is]
  rfl

/-! ### The preprocessor's lines -/

def frameOf (c : Cond) : Frame := ⟨c.active, c.taken, c.closed, c.enclosing⟩

theorem live_frames (conds : List Cond) : NestedChoices.live (conds.map frameOf) = Preprocess.live conds := by
  rw [NestedChoices.live, List.all_map]
  rfl

/-- The preprocessor has written this. -/
structure Wrote (st : State) (w : Written) : Prop where
  defines : st.defines = w.defines
  out : st.out = sourceOf w.lines

/-- An attempt to read a file leaves the lines, the definitions and the conditionals as they were. -/
def Clean (before after : State) : Prop :=
  after.defines = before.defines ∧ after.out = before.out ∧ after.conds = before.conds

section

variable (loader : Loader) (limits : Limits)

/-- The attempts that an include goes on from with its bare path: how it stood before and after. -/
def includeAttempts (file : Path → State → Result) (inner : Path → State → List (State × State)) (raw : Text)
    (place : Location) (dir : Path) (st : State) : List (State × State) :=
  match directiveOf raw with
  | none => []
  | some (word, args) =>
    if word = "include".toList ∧ Preprocess.live st.conds = true then
      match includePath limits st.defines args place with
      | .error _ => []
      | .ok path =>
        match file (nextTo dir path) st with
        | (_, .ok ()) => inner (nextTo dir path) st
        | (after, .error _) => if Path.of path = nextTo dir path then [] else (st, after) :: inner (.of path) after
    else []

def lineAttempts (file : Path → State → Result) (inner : Path → State → List (State × State)) (path : Path) :
    ℕ → List Text → State → List (State × State)
  | _, [], _ => []
  | index, raw :: rest, st =>
    let place : Location := ⟨path, min (index + 1) (2 ^ 32 - 1)⟩
    includeAttempts limits file inner raw place path.parent st ++
      match readLine limits file path.parent place raw st with
      | (st, .ok ()) => lineAttempts file inner path (index + 1) rest st
      | (_, .error _) => []

/-- The attempts of all includes of a file that fall back, in the run from a state. -/
def attempts : ℕ → Path → State → List (State × State)
  | 0, _, _ => []
  | more + 1, path, st =>
    match loader path with
    | .error _ => []
    | .ok text =>
      lineAttempts limits (file loader limits more) (attempts more) path 0 (lines text)
        { st with filesRead := st.filesRead + 1 }

/-- Where an include falls back to its bare path, the failed attempt has left nothing behind. -/
def LeavesNothing (defines : Defines) (path : Path) : Prop :=
  ∀ a ∈ attempts loader limits (limits.includeDepth + 1) path (initial defines), Clean a.1 a.2

end

section

variable {loader : Loader} {limits : Limits}

theorem followed_append (ms ns : List (Mark Ask Item)) : followed (ms ++ ns) = followed ms ++ followed ns :=
  List.filterMap_append

theorem markOf_followed (raw : Text) (place : Location) : followed [markOf raw place] = [] := by
  unfold markOf
  split
  · rfl
  · split_ifs <;> rfl

/-- Reading a file goes on from what is written to what its lines add, one after another. -/
def Advances (loader : Loader) (limits : Limits) (st st' : State) (w w' : Written) (ms : List (Mark Ask Item)) : Prop :=
  NestedChoices.Run (Tests limits) (Acts loader limits) ms (w, st.conds.map frameOf) (w', st'.conds.map frameOf) ∧
    Wrote st' w' ∧ w'.followed = w.followed ++ followed ms

variable {st st' : State} {w w' : Written} {raw : Text}

theorem advances_line {place : Location}
    (step : Step (Tests limits) (Acts loader limits) (markOf raw place) (w, st.conds.map frameOf)
      (w', st'.conds.map frameOf)) (wrote : Wrote st' w') (same : w'.followed = w.followed) :
    Advances loader limits st st' w w' [markOf raw place] :=
  ⟨run_singleton step, wrote, by rw [markOf_followed, List.append_nil, same]⟩

theorem opens_advances (loader : Loader) (limits : Limits) {word args : Text} {place : Location} (wrote : Wrote st w)
    (ran : opens limits word args place st = (st', .ok ())) :
    Step (Tests limits) (Acts loader limits) (.opens ⟨word, args, place⟩) (w, st.conds.map frameOf)
      (w, st'.conds.map frameOf) ∧ Wrote st' w := by
  unfold opens at ran
  split at ran
  · cases ran
  cases is : Preprocess.live st.conds with
  | true =>
    simp only [is, if_true] at ran
    cases answer : asks limits st.defines word args place with
    | error e => rw [answer] at ran; cases ran
    | ok value =>
      rw [answer] at ran
      cases ran
      refine ⟨.opens (by rw [live_frames, is]) ?_, wrote.defines, wrote.out⟩
      rw [Tests, ← wrote.defines]
      exact answer
  | false =>
    simp only [is] at ran
    cases ran
    exact ⟨.opensDead (by rw [live_frames, is]), wrote.defines, wrote.out⟩

theorem elif_advances (loader : Loader) (limits : Limits) {args : Text} {place : Location} (wrote : Wrote st w)
    (ran : elif limits args place st = (st', .ok ())) :
    Step (Tests limits) (Acts loader limits) (.orElse ⟨"elif".toList, args, place⟩) (w, st.conds.map frameOf)
      (w, st'.conds.map frameOf) ∧ Wrote st' w := by
  unfold elif at ran
  split at ran
  · cases ran
  next frame conds is =>
  split at ran
  · cases ran
  next open_ =>
  rw [is]
  have notClosed : frame.closed = false := by simpa using open_
  by_cases asked : (frame.enclosing && !frame.taken) = true
  · dsimp only at ran
    rw [if_pos asked] at ran
    obtain ⟨enclosing, free⟩ : frame.enclosing = true ∧ frame.taken = false := by simpa using asked
    cases answer : condition limits st.defines args place with
    | error e => rw [answer] at ran; cases ran
    | ok value =>
      rw [answer] at ran
      cases ran
      refine ⟨?_, wrote.defines, wrote.out⟩
      have tests : Tests limits ⟨"elif".toList, args, place⟩ w value := by
        rw [Tests, ← wrote.defines]
        exact answer
      have step : Step (Tests limits) (Acts loader limits) _ (w, frameOf frame :: conds.map frameOf) _ :=
        .orElse notClosed enclosing free tests
      simpa [frameOf, free] using step
  · dsimp only at ran
    rw [if_neg asked] at ran
    cases ran
    refine ⟨?_, wrote.defines, wrote.out⟩
    have skipped : (frameOf frame).enclosing = false ∨ (frameOf frame).taken = true := by
      simp only [frameOf]
      cases is : frame.enclosing <;> simp_all
    have step : Step (Tests limits) (Acts loader limits) (.orElse ⟨"elif".toList, args, place⟩)
        (w, frameOf frame :: conds.map frameOf) _ := .orElseDead notClosed skipped
    simpa [frameOf] using step

theorem otherwise_advances (loader : Loader) (limits : Limits) {place : Location} (wrote : Wrote st w)
    (ran : otherwise place st = (st', .ok ())) :
    Step (Tests limits) (Acts loader limits) .otherwise (w, st.conds.map frameOf) (w, st'.conds.map frameOf) ∧
      Wrote st' w := by
  unfold Preprocess.otherwise at ran
  split at ran
  · cases ran
  next frame conds is =>
  split at ran
  · cases ran
  next open_ =>
  cases ran
  rw [is]
  exact ⟨.otherwise (f := frameOf frame) (by simpa [frameOf] using open_), wrote.defines, wrote.out⟩

theorem endif_advances (loader : Loader) (limits : Limits) {place : Location} (wrote : Wrote st w)
    (ran : endif place st = (st', .ok ())) :
    Step (Tests limits) (Acts loader limits) .closes (w, st.conds.map frameOf) (w, st'.conds.map frameOf) ∧
      Wrote st' w := by
  unfold endif at ran
  split at ran
  · cases ran
  next frame conds is =>
  cases ran
  rw [is]
  exact ⟨.closes, wrote.defines, wrote.out⟩

theorem item_advances {place : Location}
    (mark : markOf raw place = .item (.line raw place))
    (step : Step (Tests limits) (Acts loader limits) (.item (.line raw place)) (w, st.conds.map frameOf)
      (w', st.conds.map frameOf)) (wrote : Wrote st' w') (same : st'.conds = st.conds)
    (kept : w'.followed = w.followed) :
    ∃ w', Advances loader limits st st' w w' [markOf raw place] :=
  ⟨w', advances_line (by rw [mark, same]; exact step) wrote kept⟩

theorem plain_advances {place : Location} (is : directiveOf raw = none) (wrote : Wrote st w)
    (ran : plain limits raw place st = (st', .ok ())) :
    ∃ w', Advances loader limits st st' w w' [markOf raw place] := by
  have mark : markOf raw place = .item (.line raw place) := by simp [markOf, is]
  unfold plain at ran
  cases live : Preprocess.live st.conds with
  | false =>
    rw [live] at ran
    cases ran
    exact item_advances mark (.itemDead (by rw [live_frames, live])) wrote rfl rfl
  | true =>
    rw [live] at ran
    simp only [Bool.not_true, Bool.false_eq_true, if_false] at ran
    have isLive : NestedChoices.live (st.conds.map frameOf) = true := by rw [live_frames, live]
    split at ran
    · next blank =>
      cases ran
      exact item_advances mark (.item isLive (.blank is blank)) wrote rfl rfl
    next some_ =>
    cases expanded : expand limits st.defines raw place with
    | error e => rw [expanded] at ran; cases ran
    | ok t =>
      rw [expanded] at ran
      cases ran
      rw [wrote.defines] at expanded
      have acts : Acts loader limits (.line raw place) w { w with lines := w.lines ++ [(t, place)] } :=
        .text is (by simpa using some_) expanded
      have out : Wrote { st with out := st.out.push t place } { w with lines := w.lines ++ [(t, place)] } :=
        ⟨wrote.defines, by rw [sourceOf_append, ← wrote.out]⟩
      exact item_advances mark (.item isLive acts) out rfl rfl

/-- What a file's own lines need of reading the files it includes. -/
def Advancing (loader : Loader) (limits : Limits) (more : ℕ) : Prop :=
  ∀ {path : Path} {st st' : State} {w : Written}, file loader limits more path st = (st', .ok ()) →
    (∀ a ∈ attempts loader limits more path st, Clean a.1 a.2) → Wrote st w →
      ∃ ms w', Reads loader path ms ∧ Advances loader limits st st' w w' ms

variable {more : ℕ}

theorem include_advances (inner : Advancing loader limits more)
    {args : Text} {place : Location} {dir : Path} (is : directiveOf raw = some ("include".toList, args))
    (live : Preprocess.live st.conds = true) (wrote : Wrote st w)
    (clean : ∀ a ∈ includeAttempts limits (file loader limits more) (attempts loader limits more) raw place dir st,
      Clean a.1 a.2)
    (ran : include_ limits (file loader limits more) args place dir st = (st', .ok ())) :
    ∃ path sub w', Reads loader path sub ∧
      Advances loader limits st st' w w' (.item (.followed raw place dir path) :: sub) := by
  have isLive : NestedChoices.live (st.conds.map frameOf) = true := by rw [live_frames, live]
  have follows : ∀ {path : Path} {t : Text} {sub : List (Mark Ask Item)} {st1 : State} {w' : Written},
      includePath limits w.defines args place = .ok t →
      (path = nextTo dir t ∨ path = .of t ∧ Fails loader limits (nextTo dir t) w) → st1.conds = st.conds →
      Advances loader limits st1 st' { w with followed := w.followed ++ [path] } w' sub →
      Advances loader limits st st' w w' (.item (.followed raw place dir path) :: sub) := by
    rintro path t sub st1 w' names found same ⟨run, wrote, files⟩
    rw [same] at run
    refine ⟨.cons (.item isLive (.follows is names found)) run, wrote, ?_⟩
    rw [files, List.append_assoc]
    rfl
  unfold include_ at ran
  unfold includeAttempts at clean
  rw [is] at clean
  simp only [live, and_self, if_true] at clean
  cases names : includePath limits st.defines args place with
  | error e => rw [names] at ran; cases ran
  | ok t =>
    rw [names] at ran clean
    dsimp only at ran clean
    rw [wrote.defines] at names
    cases tried : file loader limits more (nextTo dir t) st with
    | mk after outcome =>
      rw [tried] at ran clean
      cases outcome with
      | ok =>
        cases ran
        obtain ⟨sub, w', reads, advances⟩ := inner tried clean
          (show Wrote st { w with followed := w.followed ++ [nextTo dir t] } from ⟨wrote.defines, wrote.out⟩)
        exact ⟨nextTo dir t, sub, w', reads, follows names (.inl rfl) rfl advances⟩
      | error first =>
        dsimp only at ran clean
        split at ran
        · cases ran
        next different =>
        rw [if_neg different] at clean
        have nothing := clean (st, after) List.mem_cons_self
        obtain ⟨defines, out, conds⟩ :
          after.defines = st.defines ∧ after.out = st.out ∧ after.conds = st.conds := nothing
        cases again : file loader limits more (.of t) after with
        | mk last outcome =>
          rw [again] at ran
          cases outcome with
          | error e => cases ran
          | ok =>
            cases ran
            obtain ⟨sub, w', reads, advances⟩ := inner again
              (fun a member => clean a (List.mem_cons_of_mem _ member))
              (show Wrote after { w with followed := w.followed ++ [.of t] } from
                ⟨defines.trans wrote.defines, out.trans wrote.out⟩)
            have fails : Fails loader limits (nextTo dir t) w :=
              ⟨more, st, first, wrote.defines, wrote.out, by rw [tried]⟩
            exact ⟨.of t, sub, w', reads, follows names (.inr ⟨rfl, fails⟩) conds advances⟩

theorem directive_advances {rest word args : Text} {place : Location} {dir : Path}
    (is : directiveOf raw = some (word, args)) (words : splitWord (trim (stripComment false rest)) = (word, args))
    (wrote : Wrote st w) (other : ¬(word = "include".toList ∧ Preprocess.live st.conds = true))
    (ran : directive limits (file loader limits more) rest place dir st = (st', .ok ())) :
    ∃ w', Advances loader limits st st' w w' [markOf raw place] := by
  have mark : markOf raw place =
      if word = "if".toList ∨ word = "ifdef".toList ∨ word = "ifndef".toList then .opens ⟨word, args, place⟩
      else if word = "elif".toList then .orElse ⟨word, args, place⟩
      else if word = "else".toList then .otherwise
      else if word = "endif".toList then .closes
      else .item (.line raw place) := by
    rw [markOf, is]
  unfold directive at ran
  rw [words] at ran
  dsimp only at ran
  by_cases isIf : word = "if".toList ∨ word = "ifdef".toList ∨ word = "ifndef".toList
  · rw [if_pos isIf] at ran mark
    obtain ⟨step, wrote⟩ := opens_advances loader limits wrote ran
    exact ⟨w, advances_line (by rw [mark]; exact step) wrote rfl⟩
  rw [if_neg isIf] at ran mark
  by_cases isElif : word = "elif".toList
  · rw [if_pos isElif] at ran mark
    obtain ⟨step, wrote⟩ := elif_advances loader limits wrote ran
    exact ⟨w, advances_line (by rw [mark, isElif]; exact step) wrote rfl⟩
  rw [if_neg isElif] at ran mark
  by_cases isElse : word = "else".toList
  · rw [if_pos isElse] at ran mark
    obtain ⟨step, wrote⟩ := otherwise_advances loader limits wrote ran
    exact ⟨w, advances_line (by rw [mark]; exact step) wrote rfl⟩
  rw [if_neg isElse] at ran mark
  by_cases isEnd : word = "endif".toList
  · rw [if_pos isEnd] at ran mark
    obtain ⟨step, wrote⟩ := endif_advances loader limits wrote ran
    exact ⟨w, advances_line (by rw [mark]; exact step) wrote rfl⟩
  rw [if_neg isEnd] at ran mark
  have isLive := live_frames st.conds
  cases live : Preprocess.live st.conds with
  | false =>
    have same : st' = st := by
      simp only [live, Bool.false_eq_true, if_false] at ran
      split_ifs at ran <;> cases ran <;> rfl
    rw [same]
    exact item_advances mark (.itemDead (by rw [isLive, live])) wrote rfl rfl
  | true =>
    have notInclude : ¬word = "include".toList := fun same => other ⟨same, live⟩
    rw [live] at isLive
    simp only [live, if_true, if_neg notInclude] at ran
    split_ifs at ran with isDefine isUndef
    · subst isDefine
      unfold define at ran
      dsimp only at ran
      split at ran
      · cases ran
      next named =>
      cases ran
      have acts : Acts loader limits (.line raw place) w _ := .define is (by simpa using named)
      exact item_advances mark (.item isLive acts) ⟨by rw [wrote.defines], wrote.out⟩ rfl rfl
    · subst isUndef
      cases ran
      have acts : Acts loader limits (.line raw place) w _ := .undef is
      exact item_advances mark (.item isLive acts) ⟨by rw [wrote.defines], wrote.out⟩ rfl rfl
    · cases ran
    · cases ran

theorem readLine_advances (inner : Advancing loader limits more) {path : Path} {index : ℕ} (wrote : Wrote st w)
    (clean : ∀ a ∈ includeAttempts limits (file loader limits more) (attempts loader limits more) raw
      ⟨path, index + 1⟩ path.parent st, Clean a.1 a.2)
    (ran : readLine limits (file loader limits more) path.parent ⟨path, index + 1⟩ raw st = (st', .ok ())) :
    ∃ ms w', (∀ {rest : List Text} {ns : List (Mark Ask Item)}, ReadsLines loader path (index + 1) rest ns →
      ReadsLines loader path index (raw :: rest) (ms ++ ns)) ∧ Advances loader limits st st' w w' ms := by
  unfold readLine at ran
  split at ran
  · cases ran
  cases starts : stripPrefix ['@'] (trimStart raw) with
  | none =>
    rw [starts] at ran
    obtain ⟨w', advances⟩ := plain_advances (by simp [directiveOf, starts]) wrote ran
    exact ⟨_, w', fun later => .line later, advances⟩
  | some rest =>
    rw [starts] at ran
    cases words : splitWord (trim (stripComment false rest)) with
    | mk word args =>
      have is : directiveOf raw = some (word, args) := by simp [directiveOf, starts, words]
      by_cases followed_ : word = "include".toList ∧ Preprocess.live st.conds = true
      · obtain ⟨rfl, live⟩ := followed_
        have goes : include_ limits (file loader limits more) args ⟨path, index + 1⟩ path.parent st =
            (st', .ok ()) := by
          have named : ("include".toList = "if".toList ∨ "include".toList = "ifdef".toList ∨
              "include".toList = "ifndef".toList) = False := by decide
          unfold directive at ran
          dsimp only at ran
          rw [words] at ran
          simpa [named, live] using ran
        obtain ⟨found, sub, w', reads, advances⟩ := include_advances inner is live wrote clean goes
        exact ⟨_, w', fun later => .include_ reads later, advances⟩
      · obtain ⟨w', advances⟩ := directive_advances is words wrote followed_ ran
        exact ⟨_, w', fun later => .line later, advances⟩

theorem advances_trans {st1 : State} {w1 : Written} {ms ns : List (Mark Ask Item)}
    (first : Advances loader limits st st1 w w1 ms) (rest : Advances loader limits st1 st' w1 w' ns) :
    Advances loader limits st st' w w' (ms ++ ns) :=
  ⟨run_append first.1 rest.1, rest.2.1, by rw [rest.2.2, first.2.2, followed_append, List.append_assoc]⟩

theorem readLines_advances (inner : Advancing loader limits more) {path : Path} {rest : List Text} :
    ∀ {index : ℕ} {st st' : State} {w : Written}, Wrote st w → index + rest.length < 2 ^ 32 →
      (∀ a ∈ lineAttempts limits (file loader limits more) (attempts loader limits more) path index rest st,
        Clean a.1 a.2) →
      readLines limits (file loader limits more) path index rest st = (st', .ok ()) →
      ∃ ms w', ReadsLines loader path index rest ms ∧ Advances loader limits st st' w w' ms := by
  induction rest with
  | nil =>
    intro index st st' w wrote _ _ ran
    cases ran
    exact ⟨[], w, .nil, .nil, wrote, (List.append_nil _).symm⟩
  | cons raw rest ih =>
    intro index st st' w wrote short clean ran
    rw [List.length_cons] at short
    rw [readLines] at ran
    simp only [lineAttempts] at clean
    rw [show min (index + 1) (2 ^ 32 - 1) = index + 1 by omega] at ran clean
    cases one : readLine limits (file loader limits more) path.parent ⟨path, index + 1⟩ raw st with
    | mk st1 outcome =>
      rw [one] at ran clean
      cases outcome with
      | error e => cases ran
      | ok =>
        dsimp only at ran clean
        obtain ⟨ms, w1, lines, advances⟩ := readLine_advances inner wrote
          (fun a member => clean a (List.mem_append_left _ member)) one
        obtain ⟨ns, w', later, rests⟩ := ih advances.2.1 (by omega)
          (fun a member => clean a (List.mem_append_right _ member)) ran
        exact ⟨ms ++ ns, w', lines later, advances_trans advances rests⟩

theorem file_advances (short : ∀ path text, loader path = .ok text → (lines text).length < 2 ^ 32) :
    ∀ more, Advancing loader limits more := by
  intro more
  induction more with
  | zero =>
    intro path st st' w ran _ _
    cases ran
  | succ more ih =>
    intro path st st' w ran clean wrote
    rw [file] at ran
    rw [attempts] at clean
    dsimp only at ran
    split at ran
    · cases ran
    cases loads : loader path with
    | error e => rw [loads] at ran; cases ran
    | ok text =>
      rw [loads] at ran clean
      obtain ⟨ms, w', reads, advances⟩ := readLines_advances ih
        (show Wrote { st with filesRead := st.filesRead + 1 } w from ⟨wrote.defines, wrote.out⟩)
        (by have := short path text loads; omega) clean ran
      exact ⟨ms, w', .file loads reads, advances⟩

end

/-! ### An include that falls back -/

def usual : Limits := ⟨64, 4096, 8000000, 256, 64, 128⟩

/-- A tree of files from what is next to the including file and what is at the bare path. -/
def tree (near bare : Option String) : Loader := fun path =>
  if path = .of "d/a".toList then .ok "@include \"b\"".toList
  else if path = .of "d/b".toList then near.elim (.error ⟨.noSuchFile path, none⟩) fun s => .ok s.toList
  else if path = .of "b".toList then bare.elim (.error ⟨.noSuchFile path, none⟩) fun s => .ok s.toList
  else .error ⟨.noSuchFile path, none⟩

variable {w : Written}

theorem only_follows {loader : Loader} {limits : Limits} {raw : Text} {place : Location} {dir path : Path}
    {w' : Written} (isNot : ∀ args, directiveOf raw ≠ some ("include".toList, args)) :
    ¬Acts loader limits (.followed raw place dir path) w w' := by
  rintro (_ | _ | _ | _ | ⟨is, -, -⟩)
  exact isNot _ is

theorem item_live {limits : Limits} {loader : Loader} {a : Item} {y : Written × List Frame}
    (step : Step (Tests limits) (Acts loader limits) (.item a) (w, []) y) : y.2 = [] ∧ Acts loader limits a w y.1 := by
  cases step with
  | item _ acts => exact ⟨rfl, acts⟩
  | itemDead isNot => cases isNot

theorem directive_acts {loader : Loader} {limits : Limits} {raw word args : Text} {place : Location} {w' : Written}
    (is : directiveOf raw = some (word, args)) (noDefine : word ≠ "define".toList) (noUndef : word ≠ "undef".toList) :
    ¬Acts loader limits (.line raw place) w w' := by
  intro acts
  cases acts with
  | blank plain => rw [is] at plain; cases plain
  | text plain => rw [is] at plain; cases plain
  | define other => rw [is] at other; cases other; exact noDefine rfl
  | undef other => rw [is] at other; cases other; exact noUndef rfl

end E5r.PreprocessSelects
