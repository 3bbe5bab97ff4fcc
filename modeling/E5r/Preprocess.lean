import E5r.RustText

/-!
# The preprocessor of SLEIGH specifications

Line oriented: a directive owns its line, and every other line that the conditionals let through has
its macros expanded and is handed on with the file and line it came from. An included file is looked
for next to the including one first, and by its bare path where that fails.
-/

namespace E5r.Preprocess

open RustText

abbrev Text := List Char

/-- A path by its components: `.` counts only at the start of a relative path. -/
structure Path where
  absolute : Bool
  parts : List Text
  deriving DecidableEq

namespace Path

def counts (part : Text) : Bool := part ≠ [] && part ≠ ['.']

def of (t : Text) : Path :=
  match t.splitOnP (· = '/') with
  | [] => ⟨false, []⟩
  | first :: rest =>
    if t.head? = some '/' then ⟨true, rest.filter counts⟩
    else if first = ['.'] then ⟨false, first :: rest.filter counts⟩
    else ⟨false, (first :: rest).filter counts⟩

def isEmpty (p : Path) : Bool := !p.absolute && p.parts.isEmpty

/-- The directory of a path, empty where there is none. -/
def parent (p : Path) : Path := if p.parts.isEmpty then ⟨false, []⟩ else { p with parts := p.parts.dropLast }

def join (dir p : Path) : Path :=
  if p.absolute then p else { dir with parts := dir.parts ++ p.parts.filter counts }

end Path

structure Location where
  file : Path
  line : ℕ
  deriving DecidableEq

inductive Problem where
  | noSuchFile (path : Path)
  | includeDepth (path : Path)
  | includeFiles
  | totalLines
  | conditionDepth
  | elifAlone
  | elifAfterElse
  | elseAlone
  | secondElse
  | endifAlone
  | defineWants (name : Text)
  | includeNothing
  | noDirective
  | unknownDirective (word : Text)
  | oneIdentifier
  | trailing (text : Text)
  | unclosedExpansion
  | notDefined (name : Text)
  | expandsToItself (name : Text)
  | expansions
  | notACondition (s : Text)
  | unterminated
  | doesNotBelong (c : Char)
  | exprDepth
  | unclosedParen
  | definedParen
  | definedName
  | definedUnclosed
  | valueNeeded
  deriving DecidableEq

/-- What went wrong, and where. -/
structure Error where
  problem : Problem
  place : Option Location
  deriving DecidableEq

def Error.orAt (e : Error) (place : Location) : Error := { e with place := some (e.place.getD place) }

def errorAt {α : Type} (place : Location) (problem : Problem) : Except Error α := .error ⟨problem, some place⟩

structure Limits where
  includeDepth : ℕ
  includeFiles : ℕ
  totalLines : ℕ
  expansionsPerLine : ℕ
  conditionDepth : ℕ
  exprDepth : ℕ

/-- A tree of files. -/
abbrev Loader := Path → Except Error Text

/-- How many bytes a text takes. -/
def utf8Len (t : Text) : ℕ := (t.map Char.utf8Size).sum

structure Source where
  text : Text
  lineStarts : List ℕ
  origins : List Location
  /-- Where conditionals are that were never closed. -/
  warnings : List Location
  deriving DecidableEq

namespace Source

def empty : Source := ⟨[], [], [], []⟩

/-- The file and line that an offset into the text came from. -/
def location (s : Source) (offset : ℕ) : Option Location :=
  if s.origins.isEmpty then none
  else
    let line := (s.lineStarts.takeWhile fun start => start ≤ offset).length
    s.origins[min (line - 1) (s.origins.length - 1)]?

def push (s : Source) (text : Text) (origin : Location) : Source :=
  { s with
    lineStarts := s.lineStarts ++ [utf8Len s.text]
    origins := s.origins ++ [origin]
    text := s.text ++ text ++ ['\n'] }

end Source

/-- `str::split_once` at a text. -/
def cut (sub : Text) : Text → Option (Text × Text)
  | [] => if sub = [] then some ([], []) else none
  | c :: rest =>
    match stripPrefix sub (c :: rest) with
    | some tail => some ([], tail)
    | none => (cut sub rest).map fun (before, after) => (c :: before, after)

def splitWord (s : Text) : Text × Text :=
  let s := trimStart s
  (s.takeWhile fun c => !isWhitespace c, s.dropWhile fun c => !isWhitespace c)

/-- The text before a `#` that is not between double quotes. -/
def stripComment (quoted : Bool) : Text → Text
  | [] => []
  | c :: rest =>
    if c = '"' then c :: stripComment (!quoted) rest
    else if c = '#' ∧ !quoted then []
    else c :: stripComment quoted rest

def unquote (s : Text) : Text :=
  let s := trim s
  match (stripPrefix ['"'] s).bind (stripSuffix ['"']) with
  | some inner => inner
  | none => s

def isIdent (c : Char) : Bool := c.isAlphanum || c = '_' || c = '.'

def isIdentifier (s : Text) : Bool :=
  match s with
  | [] => false
  | c :: _ => !c.isDigit && s.all isIdent

abbrev Defines := Text → Option Text

/-- Every `$(name)` for its value, up to the bound. -/
def expandFrom (defines : Defines) (comment : Text) : ℕ → Text → Except Problem Text
  | 0, _ => .error .expansions
  | more + 1, current =>
    match cut ['$', '('] current with
    | none => .ok (current ++ comment)
    | some (before, after) =>
      match splitOnce ')' after with
      | none => .error .unclosedExpansion
      | some (name, tail) =>
        match defines name with
        | none => .error (.notDefined name)
        | some value =>
          if (cut (['$', '('] ++ name ++ [')']) value).isSome then .error (.expandsToItself name)
          else expandFrom defines comment more (before ++ [' '] ++ value ++ [' '] ++ tail)

/-- A `#` comment is left alone. -/
def expand (limits : Limits) (defines : Defines) (line : Text) (place : Location) : Except Error Text :=
  let body := stripComment false line
  if (cut ['$', '('] body).isNone then .ok line
  else
    (expandFrom defines (line.drop body.length) limits.expansionsPerLine body).mapError fun p => ⟨p, some place⟩

inductive CondValue where
  | text (s : Text)
  | bool (b : Bool)

def CondValue.asBool : CondValue → Except Problem Bool
  | .bool b => .ok b
  | .text s => .error (.notACondition s)

def CondValue.asText : CondValue → Text
  | .bool true => "true".toList
  | .bool false => "false".toList
  | .text s => s

inductive CondTok where
  | ident (name : Text)
  | text (s : Text)
  | op (op : Text)
  deriving DecidableEq

def OPS : List Text :=
  ["&&".toList, "||".toList, "^^".toList, "==".toList, "!=".toList, "(".toList, ")".toList, "!".toList]

def isAsciiSpace (c : Char) : Bool := c = ' ' || c = '\t' || c = '\n' || c = '\r' || c = Char.ofNat 12

def firstByte (c : Char) : Char := Char.ofNat ((String.utf8EncodeChar c).headD 0).toNat

def condTokens : ℕ → Text → Except Problem (List CondTok)
  | _, [] => .ok []
  | 0, _ => .ok []
  | more + 1, c :: rest =>
    if isAsciiSpace c then condTokens more rest
    else if c = '"' then
      match splitOnce '"' rest with
      | none => .error .unterminated
      | some (s, tail) => (condTokens more tail).map (.text s :: ·)
    else
      match OPS.find? (·.isPrefixOf (c :: rest)) with
      | some op => (condTokens more ((c :: rest).drop op.length)).map (.op op :: ·)
      | none =>
        if isIdent c then
          (condTokens more ((c :: rest).dropWhile isIdent)).map (.ident ((c :: rest).takeWhile isIdent) :: ·)
        else .error (.doesNotBelong (firstByte c))

abbrev Tokens := List CondTok
abbrev Parses (α : Type) := Tokens → Except Problem (α × Tokens)

def eat (op : String) : Tokens → Option Tokens
  | .op o :: rest => if o = op.toList then some rest else none
  | _ => none

def compare (primary : Parses CondValue) : Parses CondValue := fun ts => do
  let (left, ts) ← primary ts
  match eat "==" ts with
  | some ts =>
    let (right, ts) ← primary ts
    return (.bool (left.asText = right.asText), ts)
  | none =>
    match eat "!=" ts with
    | some ts =>
      let (right, ts) ← primary ts
      return (.bool (left.asText ≠ right.asText), ts)
    | none => return (left, ts)

/-- Operands joined by one operator, as many as there are tokens at most. -/
def joined (op : String) (join : Bool → Bool → Bool) (operand : Parses CondValue) (left : CondValue) :
    ℕ → Parses CondValue
  | 0, ts => .ok (left, ts)
  | more + 1, ts =>
    match eat op ts with
    | none => .ok (left, ts)
    | some ts => do
      let (right, ts) ← operand ts
      let l ← left.asBool
      let r ← right.asBool
      joined op join operand (.bool (join l r)) more ts

def andExpr (primary : Parses CondValue) : Parses CondValue := fun ts => do
  let (left, rest) ← compare primary ts
  joined "&&" and (compare primary) left rest.length rest

def xorExpr (primary : Parses CondValue) : Parses CondValue := fun ts => do
  let (left, rest) ← andExpr primary ts
  joined "^^" xor (andExpr primary) left rest.length rest

def orExpr (primary : Parses CondValue) : Parses CondValue := fun ts => do
  let (left, rest) ← xorExpr primary ts
  joined "||" or (xorExpr primary) left rest.length rest

/-- `defined(name)`, behind its first word. -/
def definedExpr (defines : Defines) : Parses CondValue := fun ts =>
  match eat "(" ts with
  | none => .error .definedParen
  | some (.ident arg :: ts) =>
    match eat ")" ts with
    | none => .error .definedUnclosed
    | some ts => .ok (.bool (defines arg).isSome, ts)
  | some _ => .error .definedName

/-- A value that is no comparison, with how deep it may nest. -/
def primary (defines : Defines) : ℕ → Parses CondValue
  | 0, _ => .error .exprDepth
  | more + 1, ts =>
    match eat "!" ts with
    | some ts => do
      let (inner, ts) ← primary defines more ts
      let b ← inner.asBool
      return (.bool (!b), ts)
    | none =>
      match eat "(" ts with
      | some ts => do
        let (inner, ts) ← orExpr (primary defines more) ts
        match eat ")" ts with
        | some ts => return (inner, ts)
        | none => .error .unclosedParen
      | none =>
        match ts with
        | .text s :: ts => .ok (.text s, ts)
        | .ident name :: ts =>
          if name = "defined".toList then definedExpr defines ts
          else .ok (.text ((defines name).getD []), ts)
        | _ => .error .valueNeeded

def condition (limits : Limits) (defines : Defines) (text : Text) (place : Location) : Except Error Bool := do
  let expanded ← expand limits defines text place
  let answer : Except Problem Bool := do
    let tokens ← condTokens expanded.length expanded
    let (value, rest) ← orExpr (primary defines limits.exprDepth) tokens
    if rest ≠ [] then .error (.trailing text) else value.asBool
  answer.mapError fun p => ⟨p, some place⟩

def defined (defines : Defines) (args : Text) (place : Location) : Except Error Bool :=
  let (name, tail) := splitWord (trim args)
  if !isIdentifier name || trim tail ≠ [] then errorAt place .oneIdentifier
  else .ok (defines name).isSome

/-- One frame of `@if` nesting. -/
structure Cond where
  active : Bool
  taken : Bool
  closed : Bool
  enclosing : Bool
  place : Location
  deriving DecidableEq

/-- What a run changes, which it keeps when it fails. The innermost frame comes first. -/
structure State where
  defines : Defines
  out : Source
  filesRead : ℕ
  conds : List Cond

abbrev Result := State × Except Error Unit

def live (conds : List Cond) : Bool := conds.all fun c => c.active && c.enclosing

/-- What `@if`, `@ifdef` and `@ifndef` ask. -/
def asks (limits : Limits) (defines : Defines) (word args : Text) (place : Location) : Except Error Bool :=
  if word = "ifdef".toList then defined defines args place
  else if word = "ifndef".toList then (defined defines args place).map not
  else condition limits defines args place

def opens (limits : Limits) (word args : Text) (place : Location) (st : State) : Result :=
  if st.conds.length ≥ limits.conditionDepth then (st, errorAt place .conditionDepth)
  else
    let live := live st.conds
    match if live then asks limits st.defines word args place else .ok false with
    | .error e => (st, .error e)
    | .ok value => ({ st with conds := ⟨value, value, false, live, place⟩ :: st.conds }, .ok ())

def elif (limits : Limits) (args : Text) (place : Location) (st : State) : Result :=
  match st.conds with
  | [] => (st, errorAt place .elifAlone)
  | frame :: conds =>
    if frame.closed then (st, errorAt place .elifAfterElse)
    else
      let st := { st with conds := { frame with active := false } :: conds }
      match if frame.enclosing && !frame.taken then condition limits st.defines args place else .ok false with
      | .error e => (st, .error e)
      | .ok value =>
        ({ st with conds := { frame with active := value, taken := frame.taken || value } :: conds }, .ok ())

def otherwise (place : Location) (st : State) : Result :=
  match st.conds with
  | [] => (st, errorAt place .elseAlone)
  | frame :: conds =>
    if frame.closed then (st, errorAt place .secondElse)
    else
      ({ st with conds := { frame with closed := true, active := !frame.taken, taken := true } :: conds }, .ok ())

def endif (place : Location) (st : State) : Result :=
  match st.conds with
  | [] => (st, errorAt place .endifAlone)
  | _ :: conds => ({ st with conds := conds }, .ok ())

def define (args : Text) (place : Location) (st : State) : Result :=
  let (name, value) := splitWord args
  if !isIdentifier name then (st, errorAt place (.defineWants name))
  else ({ st with defines := Function.update st.defines name (some (unquote (trim value))) }, .ok ())

def undef (args : Text) (st : State) : Result :=
  ({ st with defines := Function.update st.defines (splitWord args).1 none }, .ok ())

def includePath (limits : Limits) (defines : Defines) (args : Text) (place : Location) : Except Error Text := do
  let arg ← expand limits defines (trim args) place
  let path := unquote (trim arg)
  if path.isEmpty then errorAt place .includeNothing else .ok path

/-- Where the included file is looked for first. -/
def nextTo (dir : Path) (path : Text) : Path := if dir.isEmpty then .of path else dir.join (.of path)

section

variable (limits : Limits) (file : Path → State → Result)

/-- Next to the including file first; a bare path is the fallback. -/
def include_ (args : Text) (place : Location) (dir : Path) (st : State) : Result :=
  match includePath limits st.defines args place with
  | .error e => (st, .error e)
  | .ok path =>
    match file (nextTo dir path) st with
    | (st, .ok ()) => (st, .ok ())
    | (st, .error first) =>
      if Path.of path = nextTo dir path then (st, .error (first.orAt place))
      else
        match file (.of path) st with
        | (st, .ok ()) => (st, .ok ())
        | (st, .error _) => (st, .error (first.orAt place))

def directive (rest : Text) (place : Location) (dir : Path) (st : State) : Result :=
  let (word, args) := splitWord (trim (stripComment false rest))
  if word = "if".toList ∨ word = "ifdef".toList ∨ word = "ifndef".toList then opens limits word args place st
  else if word = "elif".toList then elif limits args place st
  else if word = "else".toList then otherwise place st
  else if word = "endif".toList then endif place st
  else if word = "define".toList then if live st.conds then define args place st else (st, .ok ())
  else if word = "undef".toList then if live st.conds then undef args st else (st, .ok ())
  else if word = "include".toList then
    if live st.conds then include_ limits file args place dir st else (st, .ok ())
  else if word = [] then (st, errorAt place .noDirective)
  else if live st.conds then (st, errorAt place (.unknownDirective word))
  else (st, .ok ())

/-- One line that is no directive. -/
def plain (raw : Text) (place : Location) (st : State) : Result :=
  if !live st.conds then (st, .ok ())
  else if (trim raw).isEmpty then (st, .ok ())
  else
    match expand limits st.defines raw place with
    | .error e => (st, .error e)
    | .ok expanded => ({ st with out := st.out.push expanded place }, .ok ())

def readLine (dir : Path) (place : Location) (raw : Text) (st : State) : Result :=
  if st.out.origins.length ≥ limits.totalLines then (st, errorAt place .totalLines)
  else
    match stripPrefix ['@'] (trimStart raw) with
    | some rest => directive limits file rest place dir st
    | none => plain limits raw place st

def readLines (path : Path) : ℕ → List Text → State → Result
  | _, [], st => (st, .ok ())
  | index, raw :: rest, st =>
    match readLine limits file path.parent ⟨path, min (index + 1) (2 ^ 32 - 1)⟩ raw st with
    | (st, .ok ()) => readLines path (index + 1) rest st
    | (st, .error e) => (st, .error e)

end

/-- A file and what it includes, with how much deeper includes may nest. -/
def file (loader : Loader) (limits : Limits) : ℕ → Path → State → Result
  | 0, path, st => (st, .error ⟨.includeDepth path, none⟩)
  | more + 1, path, st =>
    let st := { st with filesRead := st.filesRead + 1 }
    if st.filesRead > limits.includeFiles then (st, .error ⟨.includeFiles, none⟩)
    else
      match loader path with
      | .error e => (st, .error e)
      | .ok text => readLines limits (file loader limits more) path 0 (lines text) st

def initial (defines : Defines) : State := ⟨defines, .empty, 0, []⟩

/-- Preprocess a file and everything it includes. A conditional left open is only warned of. -/
def run (loader : Loader) (limits : Limits) (defines : Defines) (path : Path) : Except Error Source :=
  match file loader limits (limits.includeDepth + 1) path (initial defines) with
  | (st, .ok ()) => .ok { st.out with warnings := st.out.warnings ++ (st.conds.map Cond.place).reverse }
  | (_, .error e) => .error e

end E5r.Preprocess
