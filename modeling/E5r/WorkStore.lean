import Mathlib.Data.UInt
import E5r.DependencyGraph
import E5r.RustText

/-!
The work store: one file for each task, written whole under a lock. `create` and
`update` read all tasks, check the new content against them (`check`) and save
one task. What the file system answers and the clock are inputs of each call
(`Outcomes`), and so is the length of a content's JSON text, which the
serializer computes.
-/
namespace E5r.WorkStore
open RustText

inductive State where
  | planned
  | active
  | blocked
  | review
  | done
deriving DecidableEq

inductive Priority where
  | high
  | normal
  | low
deriving DecidableEq

def Priority.rank : Priority → ℕ
  | .high => 0
  | .normal => 1
  | .low => 2

/-- Fields shared by creation and full replacement updates. -/
structure Draft where
  title : String
  description : String
  state : State
  priority : Priority
  owner : String
  next : String
  blocker : String
  evidence : List String
  dependsOn : List String
deriving DecidableEq

/-- A saved revision. -/
structure Change where
  stamped : UInt64
  author : String
  previous : Draft
deriving DecidableEq

/-- A durable task with an optimistic concurrency revision. -/
structure Task where
  id : String
  revision : UInt64
  content : Draft
  created : UInt64
  updated : UInt64
  author : String
  history : List Change
deriving DecidableEq

/-- The states in which work on a task has begun. -/
def State.started : State → Bool
  | .active | .review | .done => true
  | .planned | .blocked => false

def isAsciiDigit (c : Char) : Bool := '0' ≤ c && c ≤ '9'

def validId (id : String) : Bool :=
  match id.toList with
  | 'T' :: '-' :: number => !number.isEmpty && number.all isAsciiDigit
  | _ => false

/-- A file `<stem>.json` and the task in it. -/
structure File where
  stem : String
  task : Task
deriving DecidableEq

/-- The directory: its task files in the order it lists them, and the stems of
    the `.tmp` files left in it. -/
structure Store where
  root : String
  files : List File
  temporaries : List String
deriving DecidableEq

def Store.new (root : String) : Store := ⟨root, [], []⟩

/-- What the file system and the clock answer during one call. An outcome that
    is not `none` is the text of an error. -/
structure Outcomes where
  lock : Option String
  read : Option String
  encode : Option String
  create : Option String
  write : Option String
  rename : Option String
  stamp : UInt64
deriving DecidableEq

def answer : Option String → Except String Unit
  | some error => .error error
  | none => .ok ()

def validateAuthor (author : String) : Except String Unit :=
  if (trim author.toList).isEmpty || author.utf8ByteSize > 200 then .error "writer name must contain 1 to 200 bytes"
  else .ok ()

section
variable (encoded : Draft → Except String ℕ)

def validate (content : Draft) : Except String Unit := do
  if (trim content.title.toList).isEmpty then throw "a task needs a title"
  if content.title.utf8ByteSize > 240 then throw "title exceeds 240 bytes"
  if content.state = .blocked && (trim content.blocker.toList).isEmpty then throw "blocked work needs a reason"
  if content.state = .active && (trim content.owner.toList).isEmpty then throw "active work needs an owner"
  if content.state ≠ .blocked && !(trim content.blocker.toList).isEmpty then
    throw "clear the blocker when leaving blocked state"
  if (← encoded content) > 64 * 1024 then throw "task content exceeds 64 KiB"
  if content.dependsOn.any (fun id => !validId id) || !decide content.dependsOn.Nodup then
    throw "prerequisites must be unique task ids"

/-- The order of the list: priority first, then id. -/
def before (a b : Task) : Bool :=
  a.content.priority.rank < b.content.priority.rank ||
    (a.content.priority.rank = b.content.priority.rank && a.id ≤ b.id)

def readFile (root : String) (file : File) : Except String Task := do
  let task := file.task
  if !validId task.id || file.stem ≠ task.id || task.revision = 0 then
    throw (root ++ "/" ++ file.stem ++ ".json: invalid task identity or revision")
  validate encoded task.content
  return task

def list (store : Store) (io : Outcomes) : Except String (List Task) := do
  answer io.read
  let tasks ← store.files.mapM (readFile encoded store.root)
  return tasks.mergeSort before

private theorem filter_seen {tasks : List Task} {current : String} {seen : List String}
    (none : tasks.find? (fun t => t.id = current) = Option.none) :
    tasks.filter (fun t => t.id ∉ current :: seen) = tasks.filter (fun t => t.id ∉ seen) := by
  apply List.filter_congr
  intro t member
  have other : t.id ≠ current := by simpa using List.find?_eq_none.mp none t member
  simp [other]

private theorem filter_seen_lt {tasks : List Task} {current : String} {seen : List String} {t : Task}
    (found : tasks.find? (fun t => t.id = current) = some t) (unseen : current ∉ seen) :
    (tasks.filter (fun t => t.id ∉ current :: seen)).length < (tasks.filter (fun t => t.id ∉ seen)).length := by
  have same : t.id = current := by simpa using List.find?_some found
  have sublist : tasks.filter (fun t => t.id ∉ current :: seen) =
      (tasks.filter (fun t => t.id ∉ seen)).filter (fun t => t.id ≠ current) := by
    rw [List.filter_filter]
    apply List.filter_congr
    intro u _
    simp
  rw [sublist]
  apply List.length_filter_lt_length_iff_exists.mpr
  exact ⟨t, List.mem_filter.mpr ⟨List.mem_of_find?_eq_some found, by simpa [same] using unseen⟩, by simpa using same⟩

/-- The search for a way from the pending tasks, the next one first, back to the
    task `id`. -/
def formsCycle (tasks : List Task) (id : String) (pending seen : List String) : Bool :=
  match pending with
  | [] => false
  | current :: rest =>
    if current = id then true
    else if current ∈ seen then formsCycle tasks id rest seen
    else
      match _found : tasks.find? (fun t => t.id = current) with
      | some t => formsCycle tasks id (t.content.dependsOn.reverse ++ rest) (current :: seen)
      | none => formsCycle tasks id rest (current :: seen)
termination_by ((tasks.filter (fun t => t.id ∉ seen)).length, pending.length)
decreasing_by
  · exact Prod.Lex.right _ (by simp)
  · next unseen => exact Prod.Lex.left _ _ (filter_seen_lt _found unseen)
  · rw [filter_seen _found]
    exact Prod.Lex.right _ (by simp)

def checkDependency (id : String) (content : Draft) (tasks : List Task) (dep : String) : Except String Unit := do
  if dep = id then throw "a task cannot depend on itself"
  let target ← match tasks.find? (fun t => t.id = dep) with
    | some target => pure target
    | none => throw ("unknown prerequisite " ++ dep)
  if content.state.started && target.content.state ≠ .done then throw ("prerequisite " ++ dep ++ " is not done")
  if formsCycle tasks id [dep] [] then throw "prerequisites would form a cycle"

def check (id : String) (content : Draft) (tasks : List Task) : Except String Unit := do
  validate encoded content
  content.dependsOn.forM (checkDependency id content tasks)
  -- reopening a prerequisite must not invalidate dependents already started
  if content.state ≠ .done &&
      tasks.any (fun t => t.id ≠ id && t.content.dependsOn.any (fun d => d = id) && t.content.state.started) then
    throw "cannot reopen a prerequisite while a dependent is active, in review or done"

end

/-- The task file takes the place of the one under its name. -/
def replace (files : List File) (task : Task) : List File :=
  if files.any (fun f => f.stem = task.id) then files.map (fun f => if f.stem = task.id then ⟨task.id, task⟩ else f)
  else files ++ [⟨task.id, task⟩]

/-- A task is written to a temporary file, which is then renamed. -/
def save (store : Store) (task : Task) (io : Outcomes) : Store × Except String Unit :=
  match io.encode, io.create, io.write, io.rename with
  | some error, _, _, _ => (store, .error error)
  | none, some error, _, _ => (store, .error error)
  | none, none, some error, _ | none, none, none, some error =>
    ({ store with temporaries := task.id :: store.temporaries }, .error error)
  | none, none, none, none =>
    ({ store with files := replace store.files task,
                  temporaries := store.temporaries.filter (fun stem => stem ≠ task.id) }, .ok ())

def idNumber (id : String) : Option ℕ := fromStrRadix 10 (2 ^ 64) (id.toList.drop 2)

/-- A number in decimal, with zeros before it up to four places. -/
def pad4 (n : ℕ) : List Char :=
  let digits := Nat.toDigits 10 n
  List.replicate (4 - digits.length) '0' ++ digits

def formatId (n : ℕ) : String := String.ofList ('T' :: '-' :: pad4 n)

def nextNumber (tasks : List Task) : Except String ℕ :=
  let next := ((tasks.filterMap (fun t => idNumber t.id)).max?).getD 0 + 1
  if next < 2 ^ 64 then .ok next else .error "task ids exhausted"

section
variable (encoded : Draft → Except String ℕ)

def newTask (content : Draft) (author : String) (io : Outcomes) (tasks : List Task) : Except String Task := do
  let next ← nextNumber tasks
  let id := formatId next
  check encoded id content tasks
  return { id, revision := 1, content, created := io.stamp, updated := io.stamp, author, history := [] }

def updatedTask (id : String) (revision : UInt64) (content : Draft) (author : String) (io : Outcomes)
    (tasks : List Task) : Except String Task := do
  let task ← match tasks.find? (fun t => t.id = id) with
    | some task => pure task
    | none => throw "task not found"
  if task.revision ≠ revision then
    throw ("revision conflict: expected " ++ toString revision ++ ", current " ++ toString task.revision ++
      "; reload before editing")
  check encoded id content tasks
  let history := task.history ++ [⟨task.updated, task.author, task.content⟩]
  if task.revision.toNat + 1 ≥ 2 ^ 64 then throw "revision exhausted"
  return { task with history, content, revision := task.revision + 1, updated := io.stamp, author }

/-- What stands between the lock and its release: the tasks are read, one is made
    from them and saved. -/
def locked (store : Store) (io : Outcomes) (make : List Task → Except String Task) : Store × Except String Task :=
  match (do answer io.lock; make (← list encoded store io)) with
  | .error error => (store, .error error)
  | .ok task =>
    match save store task io with
    | (store, .error error) => (store, .error error)
    | (store, .ok ()) => (store, .ok task)

def create (store : Store) (content : Draft) (author : String) (io : Outcomes) : Store × Except String Task :=
  match validateAuthor author with
  | .error error => (store, .error error)
  | .ok () => locked encoded store io (newTask encoded content author io)

/-- Replaces task content only if the caller read its current revision. -/
def update (store : Store) (id : String) (revision : UInt64) (content : Draft) (author : String) (io : Outcomes) :
    Store × Except String Task :=
  if !validId id then (store, .error "invalid task id")
  else
    match validateAuthor author with
    | .error error => (store, .error error)
    | .ok () => locked encoded store io (updatedTask encoded id revision content author io)

end

end E5r.WorkStore
