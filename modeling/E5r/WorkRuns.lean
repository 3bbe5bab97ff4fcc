import E5r.Fallible
import E5r.Numerals
import E5r.WorkStore

/-!
Runs of the work store. A directory is read as a board that maps ids to tasks
(`Store.task`), and a saved task replaces one entry of it. The checks of a write
keep the board consistent (`Consistent.write`): prerequisites are known and without
cycles, and work that has begun has all its prerequisites done. Every run of
creations and updates from an empty directory keeps to this, and to what its
calls have written (`run_coordinated`).
-/
namespace E5r.WorkRuns
open RustText Numerals Fallible DependencyGraph WorkStore
open Relation (ReflTransGen TransGen)

/-! ### Boards -/

/-- What a store is for: the task under each id. -/
abbrev Board := String → Option Task

def DependsOn (board : Board) (a b : String) : Prop := ∃ t, board a = some t ∧ b ∈ t.content.dependsOn

/-- Prerequisites are known tasks without cycles, and they are done where work
    has begun. -/
structure Consistent (board : Board) : Prop where
  named : ∀ {id t}, board id = some t → t.id = id ∧ validId id = true
  acyclic : Acyclic (DependsOn board)
  known : ∀ {a b}, DependsOn board a b → ∃ u, board b = some u
  ready : ∀ {a t}, board a = some t → t.content.state.started = true →
    ∀ b ∈ t.content.dependsOn, ∃ u, board b = some u ∧ u.content.state = .done

/-- The content that may be written under an id. -/
structure Admitted (board : Board) (id : String) (content : Draft) : Prop where
  apart : ∀ d ∈ content.dependsOn, d ≠ id ∧ ¬ReflTransGen (DependsOn board) d id
  ready : ∀ d ∈ content.dependsOn, ∃ u, board d = some u ∧ (content.state.started = true → u.content.state = .done)
  dependents : content.state ≠ .done → ∀ a t, board a = some t → a ≠ id → id ∈ t.content.dependsOn →
    t.content.state.started = false

def Board.write (board : Board) (t : Task) : Board := fun id => if id = t.id then some t else board id

@[simp] theorem write_same (board : Board) (t : Task) : board.write t t.id = some t := if_pos rfl

variable {t : Task}

theorem write_other {board : Board} {id : String} (other : id ≠ t.id) : board.write t id = board id :=
  if_neg other

theorem dependsOn_write (board : Board) (t : Task) (a b : String) :
    DependsOn (board.write t) a b ↔ redirect (DependsOn board) t.id (· ∈ t.content.dependsOn) a b := by
  by_cases same : a = t.id
  · subst same
    simp [DependsOn, redirect]
  · simp [DependsOn, redirect, write_other same, same]

theorem consistent_empty : Consistent (fun _ => none) := by
  refine ⟨by simp, acyclic_empty ?_, ?_, by simp⟩
  · rintro a b ⟨t, found, -⟩
    contradiction
  · rintro a b ⟨t, found, -⟩
    contradiction

theorem Consistent.write {board : Board} (consistent : Consistent board) (valid : validId t.id = true)
    (admitted : Admitted board t.id t.content) : Consistent (board.write t) where
  named := by
    intro id u found
    by_cases same : id = t.id
    · subst same
      obtain rfl : t = u := by simpa using found
      exact ⟨rfl, valid⟩
    · exact consistent.named (by rwa [write_other same] at found)
  acyclic := by
    refine Acyclic.congr (Acyclic.redirect (v := t.id) (· ∈ t.content.dependsOn) consistent.acyclic ?_)
      (fun a b => (dependsOn_write board t a b).mp)
    intro d member
    exact (admitted.apart d member).2
  known := by
    have kept {b : String} (held : ∃ u, board b = some u) : ∃ u, board.write t b = some u := by
      by_cases same : b = t.id
      · exact ⟨t, by rw [same, write_same]⟩
      · rwa [write_other same]
    intro a b edge
    rcases (dependsOn_write board t a b).mp edge with ⟨-, new⟩ | ⟨-, old⟩
    · obtain ⟨u, found, -⟩ := admitted.ready b new
      exact kept ⟨u, found⟩
    · exact kept (consistent.known old)
  ready := by
    intro a u found started b member
    by_cases written : a = t.id
    · subst written
      obtain rfl : t = u := by simpa using found
      obtain ⟨v, held, isDone⟩ := admitted.ready b member
      refine ⟨v, ?_, isDone started⟩
      rwa [write_other (admitted.apart b member).1]
    · rw [write_other written] at found
      by_cases reopened : b = t.id
      · subst reopened
        refine ⟨t, write_same board t, ?_⟩
        by_contra notDone
        have := admitted.dependents notDone a u found written member
        rw [this] at started
        contradiction
      · rw [write_other reopened]
        exact consistent.ready found started b member

/-! ### The directory as a board -/

/-- The task under each id. -/
def boardOf (store : Store) : Board := fun id => (store.files.find? (fun f => f.stem = id)).map File.task

/-- Each file has a name of its own. -/
def Distinct (store : Store) : Prop := (store.files.map File.stem).Nodup

theorem boardOf_iff {store : Store} (distinct : Distinct store) {id : String} :
    boardOf store id = some t ↔ ⟨id, t⟩ ∈ store.files := by
  obtain ⟨root, files, temporaries⟩ := store
  simp only [boardOf, Distinct] at distinct ⊢
  induction files with
  | nil => simp
  | cons f rest ih =>
    obtain ⟨fresh, distinct⟩ : f.stem ∉ rest.map File.stem ∧ (rest.map File.stem).Nodup := by
      simpa using distinct
    by_cases same : f.stem = id
    · subst same
      have absent : ⟨f.stem, t⟩ ∉ rest := fun member => fresh (List.mem_map.mpr ⟨_, member, rfl⟩)
      obtain ⟨stem, task⟩ := f
      simp only [List.find?_cons_of_pos, decide_true, Option.map_some, Option.some.injEq, List.mem_cons, File.mk.injEq,
        true_and, absent, or_false]
      exact eq_comm
    · rw [List.find?_cons_of_neg (by simpa using same), ih distinct]
      have other : (⟨id, t⟩ : File) ≠ f := fun equal => same (by rw [← equal])
      simp [other]

private theorem map_stem_replace (files : List File) (t : Task) :
    (files.map (fun f => if f.stem = t.id then (⟨t.id, t⟩ : File) else f)).map File.stem = files.map File.stem := by
  rw [List.map_map]
  apply List.map_congr_left
  intro f _
  by_cases same : f.stem = t.id
  · simp [same]
  · simp [same]

theorem distinct_replace {files : List File} (distinct : (files.map File.stem).Nodup) (t : Task) :
    ((replace files t).map File.stem).Nodup := by
  rw [replace]
  split
  · rwa [map_stem_replace]
  · next absent =>
    have fresh : t.id ∉ files.map File.stem := by simpa using absent
    rw [List.map_append]
    exact List.nodup_append.mpr ⟨distinct, by simp, by
      intro a inside b last
      obtain rfl : b = t.id := by simpa using last
      exact fun equal => fresh (equal ▸ inside)⟩

theorem mem_replace (files : List File) (t : Task) (f : File) :
    f ∈ replace files t ↔ f = ⟨t.id, t⟩ ∨ (f.stem ≠ t.id ∧ f ∈ files) := by
  rw [replace]
  split
  · next present =>
    obtain ⟨g, held, same⟩ : ∃ g ∈ files, g.stem = t.id := by simpa using present
    rw [List.mem_map]
    constructor
    · rintro ⟨h, member, rfl⟩
      by_cases written : h.stem = t.id
      · simp [written]
      · simp [written, member]
    · rintro (rfl | ⟨other, member⟩)
      · exact ⟨g, held, if_pos same⟩
      · exact ⟨f, member, if_neg other⟩
  · next absent =>
    have fresh : ∀ g ∈ files, g.stem ≠ t.id := by simpa using absent
    rw [List.mem_append, List.mem_singleton]
    constructor
    · rintro (member | rfl)
      · exact .inr ⟨fresh f member, member⟩
      · exact .inl rfl
    · rintro (rfl | ⟨-, member⟩)
      · exact .inr rfl
      · exact .inl member

section
variable {encoded : Draft → Except String ℕ}

/-! ### What the operations do -/

theorem readFile_ok {root : String} {f : File} {t : Task} (read : readFile encoded root f = .ok t) :
    t = f.task ∧ f.stem = t.id ∧ validId t.id = true := by
  simp only [readFile] at read
  split at read
  · contradiction
  · next named =>
    simp only [bind_ok_iff, pure_ok_iff] at read
    obtain ⟨-, -, rfl⟩ := read
    simp only [Bool.or_eq_true, Bool.not_eq_true', decide_eq_true_eq, not_or, Bool.not_eq_false, not_not] at named
    exact ⟨rfl, named.1.2, named.1.1⟩

/-- What a successful listing tells about the board. -/
structure Lists (board : Board) (tasks : List Task) : Prop where
  member : ∀ t, t ∈ tasks ↔ board t.id = some t
  valid : ∀ t ∈ tasks, validId t.id = true

variable {tasks : List Task}

theorem Lists.find {board : Board} (lists : Lists board tasks) (named : ∀ {id t}, board id = some t → t.id = id)
    (id : String) : tasks.find? (fun t => t.id = id) = board id := by
  cases held : board id with
  | none =>
    apply List.find?_eq_none.mpr
    intro t member same
    obtain rfl : t.id = id := by simpa using same
    rw [(lists.member t).mp member] at held
    contradiction
  | some t =>
    obtain rfl := named held
    cases found : tasks.find? (fun u => u.id = t.id) with
    | none =>
      have := List.find?_eq_none.mp found t ((lists.member t).mpr held)
      simp at this
    | some u =>
      have same : u.id = t.id := by simpa using List.find?_some found
      have other := (lists.member u).mp (List.mem_of_find?_eq_some found)
      rw [same, held] at other
      exact other.symm

variable {io : Outcomes}

theorem list_ok {store : Store} (distinct : Distinct store) (read : list encoded store io = .ok tasks) :
    Lists (boardOf store) tasks := by
  simp only [list, bind_ok_iff, pure_ok_iff] at read
  obtain ⟨-, -, unsorted, each, rfl⟩ := read
  obtain ⟨accepted, held⟩ := mapM_ok each
  constructor
  · intro t
    rw [List.mem_mergeSort, held, boardOf_iff distinct]
    constructor
    · rintro ⟨⟨stem, task⟩, member, accepted⟩
      obtain ⟨rfl, rfl, -⟩ := readFile_ok accepted
      exact member
    · intro member
      obtain ⟨u, read⟩ := accepted _ member
      obtain ⟨rfl, -, -⟩ := readFile_ok read
      exact ⟨_, member, read⟩
  · intro t member
    obtain ⟨f, -, accepted⟩ := (held t).mp (List.mem_mergeSort.mp member)
    exact (readFile_ok accepted).2.2

/-! ### The search for cycles -/

theorem formsCycle_false {id : String} (roots : List String) {pending seen : List String}
    (search : formsCycle tasks id pending seen = false) {edge : String → String → Prop}
    (successors : ∀ a b, edge a b → ∃ t, tasks.find? (fun t => t.id = a) = some t ∧ b ∈ t.content.dependsOn)
    (explored : Explored edge roots seen pending) (unseen : id ∉ seen) : ∀ r ∈ roots, ¬ReflTransGen edge r id := by
  fun_induction formsCycle tasks id pending seen with
  | case1 seen =>
    intro r root path
    exact unseen (explored.finish root path)
  | case2 seen rest => contradiction
  | case3 seen current rest other old ih => exact ih search (explored.skip old) unseen
  | case4 seen current rest other new t found ih =>
    refine ih search (explored.visit ?_) (by simp [unseen, Ne.symm other])
    intro b step
    obtain ⟨u, held, member⟩ := successors current b step
    rw [found] at held
    obtain rfl : t = u := by simpa using held
    simpa using member
  | case5 seen current rest other new found ih =>
    refine ih search (@Explored.visit _ _ _ _ _ _ [] explored ?_) (by simp [unseen, Ne.symm other])
    intro b step
    obtain ⟨u, held, -⟩ := successors current b step
    rw [found] at held
    contradiction

/-! ### The checks -/

theorem checkDependency_ok {board : Board} {id dep : String} {content : Draft} (consistent : Consistent board)
    (lists : Lists board tasks) (accepted : checkDependency id content tasks dep = .ok ()) :
    dep ≠ id ∧ ¬ReflTransGen (DependsOn board) dep id ∧
      ∃ u, board dep = some u ∧ (content.state.started = true → u.content.state = .done) := by
  have find := lists.find (fun held => (consistent.named held).1)
  simp only [checkDependency] at accepted
  split at accepted
  · contradiction
  · next other =>
    rw [find] at accepted
    cases held : board dep with
    | none =>
      rw [held] at accepted
      contradiction
    | some u =>
      rw [held] at accepted
      simp only [pure_bind] at accepted
      split at accepted
      · contradiction
      · next isDone =>
        have apart := guard_ok_iff.mp accepted
        refine ⟨other, formsCycle_false [dep] (by simpa using apart) ?_ Explored.start (by simp) dep (by simp),
          u, rfl, ?_⟩
        · rintro a b ⟨t, found, member⟩
          exact ⟨t, (find a).trans found, member⟩
        · intro started
          simpa [started] using isDone

theorem check_ok {board : Board} {id : String} {content : Draft} (consistent : Consistent board)
    (lists : Lists board tasks) (accepted : check encoded id content tasks = .ok ()) : Admitted board id content := by
  simp only [check, bind_ok_iff] at accepted
  obtain ⟨-, -, ⟨⟩, each, guard⟩ := accepted
  have dependency {d : String} (member : d ∈ content.dependsOn) :=
    checkDependency_ok consistent lists (forM_ok_iff.mp each d member)
  refine ⟨?_, ?_, ?_⟩
  · intro d member
    obtain ⟨other, apart, -⟩ := dependency member
    exact ⟨other, apart⟩
  · intro d member
    exact (dependency member).2.2
  · intro notDone a t found other member
    have reopened := guard_ok_iff.mp guard
    obtain rfl := (consistent.named found).1
    have listed : t ∈ tasks := (lists.member t).mpr found
    simp only [notDone, ne_eq, not_false_eq_true, decide_true, Bool.true_and, List.any_eq_true, not_exists] at reopened
    simpa [other, member, listed] using reopened t

/-! ### Writes -/

private theorem save_cases (store : Store) (task : Task) (io : Outcomes) :
    (∃ error, (save store task io).2 = .error error ∧ (save store task io).1.files = store.files) ∨
      ((save store task io).2 = .ok () ∧ (save store task io).1.files = replace store.files task) := by
  unfold save
  split
  · exact .inl ⟨_, rfl, rfl⟩
  · exact .inl ⟨_, rfl, rfl⟩
  · exact .inl ⟨_, rfl, rfl⟩
  · exact .inl ⟨_, rfl, rfl⟩
  · exact .inr ⟨rfl, rfl⟩

/-- A call fails and leaves all task files as they are, or it saves the task that
    it made from the listed ones. -/
theorem locked_cases (store : Store) (io : Outcomes) (make : List Task → Except String Task) :
    (∃ error, (locked encoded store io make).2 = .error error ∧ (locked encoded store io make).1.files = store.files) ∨
    ∃ tasks task, list encoded store io = .ok tasks ∧ make tasks = .ok task ∧
      (locked encoded store io make).2 = .ok task ∧
      (locked encoded store io make).1.files = replace store.files task := by
  unfold locked
  cases made : (do answer io.lock; make (← list encoded store io) : Except String Task) with
  | error e => exact .inl ⟨e, rfl, rfl⟩
  | ok task =>
    simp only [bind_ok_iff] at made
    obtain ⟨-, -, tasks, listed, made⟩ := made
    cases saved : save store task io with
    | mk after result =>
      have cases := save_cases store task io
      rw [saved] at cases
      rcases cases with ⟨e, rfl, same⟩ | ⟨rfl, written⟩
      · exact .inl ⟨e, by simp [saved], by simpa [saved] using same⟩
      · exact .inr ⟨tasks, task, listed, made, by simp [saved], by simpa [saved] using written⟩

theorem create_cases (store : Store) (content : Draft) (author : String) (io : Outcomes) :
    (∃ error, (create encoded store content author io).2 = .error error ∧
      (create encoded store content author io).1.files = store.files) ∨
    ∃ tasks task, list encoded store io = .ok tasks ∧ newTask encoded content author io tasks = .ok task ∧
      (create encoded store content author io).2 = .ok task ∧
      (create encoded store content author io).1.files = replace store.files task := by
  unfold create
  split
  · exact .inl ⟨_, rfl, rfl⟩
  · exact locked_cases store io _

theorem update_cases (store : Store) (id : String) (revision : UInt64) (content : Draft) (author : String)
    (io : Outcomes) :
    (∃ error, (update encoded store id revision content author io).2 = .error error ∧
      (update encoded store id revision content author io).1.files = store.files) ∨
    validId id = true ∧ ∃ tasks task, list encoded store io = .ok tasks ∧
      updatedTask encoded id revision content author io tasks = .ok task ∧
      (update encoded store id revision content author io).2 = .ok task ∧
      (update encoded store id revision content author io).1.files = replace store.files task := by
  unfold update
  split
  · exact .inl ⟨_, rfl, rfl⟩
  · next valid =>
    split
    · exact .inl ⟨_, rfl, rfl⟩
    · rcases locked_cases store io (updatedTask encoded id revision content author io) with failed | saved
      · exact .inl failed
      · exact .inr ⟨by simpa using valid, saved⟩

/-! ### Fresh ids -/

private theorem pad4_read (n : ℕ) : ∃ ds, (pad4 n).mapM (toDigit 10) = some ds ∧
    ds.foldl (fun v d => v * 10 + d) 0 = n := by
  obtain ⟨ds, read, value⟩ := toDigits_read readsDigits_decimal n
  rw [List.map_id] at read
  have zeros (k : ℕ) : (List.replicate k '0').mapM (toDigit 10) = some (List.replicate k 0) ∧
      (List.replicate k 0).foldl (fun v d => v * 10 + d) 0 = 0 := by
    induction k with
    | zero => simp
    | succ k ih =>
      have zero : toDigit 10 '0' = some 0 := by decide
      rw [List.replicate_succ, List.replicate_succ, List.mapM_cons, zero, ih.1]
      exact ⟨rfl, by simpa using ih.2⟩
  refine ⟨_, by rw [pad4, List.mapM_append, (zeros _).1, read]; rfl, ?_⟩
  rw [List.foldl_append, (zeros _).2, value]

private theorem pad4_ne_nil (n : ℕ) : pad4 n ≠ [] := by
  simp [pad4]

theorem idNumber_formatId {n : ℕ} (small : n < 2 ^ 64) : idNumber (formatId n) = some n := by
  obtain ⟨ds, read, rfl⟩ := pad4_read n
  rw [idNumber, formatId, String.toList_ofList]
  exact fromStrRadix_digits (pad4_ne_nil _) read small

theorem validId_formatId (n : ℕ) : validId (formatId n) = true := by
  have digits : (pad4 n).all isAsciiDigit = true := by
    rw [List.all_eq_true]
    intro c member
    rcases List.mem_append.mp member with zero | digit
    · rw [(List.mem_replicate.mp zero).2]
      decide
    · obtain ⟨d, small, rfl⟩ := mem_toDigits (by decide) digit
      have all : ∀ d < 10, isAsciiDigit (Nat.digitChar d) = true := by decide
      exact all d small
  rw [validId, formatId, String.toList_ofList]
  simp [digits, pad4_ne_nil]

theorem nextNumber_ok {n : ℕ} (numbered : nextNumber tasks = .ok n) :
    n < 2 ^ 64 ∧ ∀ t ∈ tasks, idNumber t.id ≠ some n := by
  simp only [nextNumber] at numbered
  split at numbered
  · next small =>
    obtain rfl := Except.ok.inj numbered
    refine ⟨small, fun t member same => ?_⟩
    have listed : _ ∈ tasks.filterMap (fun t => idNumber t.id) := List.mem_filterMap.mpr ⟨t, member, same⟩
    cases greatest : (tasks.filterMap (fun t => idNumber t.id)).max? with
    | none =>
      rw [List.max?_eq_none_iff.mp greatest] at listed
      contradiction
    | some m =>
      have := (List.max?_eq_some_iff.mp greatest).2 _ listed
      rw [greatest] at this
      simp at this
  · contradiction

theorem newTask_ok {board : Board} {content : Draft} {author : String} {task : Task} (consistent : Consistent board)
    (lists : Lists board tasks) (made : newTask encoded content author io tasks = .ok task) :
    board task.id = none ∧ validId task.id = true ∧ Admitted board task.id content ∧ task.content = content ∧
      task.revision = 1 ∧ task.history = [] := by
  simp only [newTask, bind_ok_iff, pure_ok_iff] at made
  obtain ⟨next, numbered, ⟨⟩, checked, rfl⟩ := made
  obtain ⟨small, unused⟩ := nextNumber_ok numbered
  refine ⟨?_, validId_formatId next, check_ok consistent lists checked, rfl, rfl, rfl⟩
  cases held : board (formatId next) with
  | none => rfl
  | some t =>
    have named := (consistent.named held).1
    have listed : t ∈ tasks := (lists.member t).mpr (by rwa [named])
    exact absurd (by rw [named, idNumber_formatId small]) (unused t listed)

theorem updatedTask_ok {board : Board} {id : String} {revision : UInt64} {content : Draft} {author : String}
    {task : Task} (consistent : Consistent board) (lists : Lists board tasks)
    (made : updatedTask encoded id revision content author io tasks = .ok task) :
    task.id = id ∧ Admitted board id content ∧ task.content = content ∧
      ∃ old, board id = some old ∧ old.revision = revision ∧ task.revision.toNat = old.revision.toNat + 1 ∧
        ∃ change : Change, task.history = old.history ++ [change] ∧ change.previous = old.content := by
  simp only [updatedTask] at made
  rw [lists.find (fun held => (consistent.named held).1)] at made
  cases held : board id with
  | none =>
    rw [held] at made
    contradiction
  | some old =>
    rw [held] at made
    simp only [pure_bind] at made
    split at made
    · contradiction
    · next current =>
      simp only [bind_ok_iff] at made
      obtain ⟨⟨⟩, checked, made⟩ := made
      split at made
      · contradiction
      · next room =>
        obtain rfl := pure_ok_iff.mp made
        refine ⟨(consistent.named held).1, check_ok consistent lists checked, rfl, old, rfl, by simpa using current, ?_,
          _, rfl, rfl⟩
        have small : old.revision.toNat + (1 : UInt64).toNat < 2 ^ 64 := by
          rw [UInt64.toNat_one]
          omega
        rw [UInt64.toNat_add, Nat.mod_eq_of_lt small, UInt64.toNat_one]

end

/-! ### Runs -/

inductive Call where
  | create (content : Draft) (author : String) (io : Outcomes)
  | update (id : String) (revision : UInt64) (content : Draft) (author : String) (io : Outcomes)

def Call.content : Call → Draft
  | .create content _ _ => content
  | .update _ _ content _ _ => content

/-- A call and what it returned. -/
structure Event where
  call : Call
  result : Except String Task

def Event.wrote (e : Event) (id : String) : Option Draft :=
  match e.result with
  | .ok t => if t.id = id then some e.call.content else none
  | .error _ => none

/-- The id and the revision that an update which succeeded was made from. -/
def Event.updated (e : Event) : Option (String × UInt64) :=
  match e.call, e.result with
  | .update id revision _ _ _, .ok _ => some (id, revision)
  | _, _ => none

section
variable (encoded : Draft → Except String ℕ)

def step (store : Store) : Call → Store × Except String Task
  | .create content author io => create encoded store content author io
  | .update id revision content author io => update encoded store id revision content author io

/-- The calls one after the other, from an empty directory. -/
def run (root : String) (calls : List Call) : Store × List Event :=
  calls.foldl (fun (store, events) call =>
    let (store, result) := step encoded store call
    (store, events ++ [⟨call, result⟩])) (Store.new root, [])

theorem run_concat (root : String) (calls : List Call) (call : Call) : run encoded root (calls ++ [call]) =
    ((step encoded (run encoded root calls).1 call).1,
      (run encoded root calls).2 ++ [⟨call, (step encoded (run encoded root calls).1 call).2⟩]) := by
  simp [run]

end

/-- What holds between a store and the calls made on it. -/
structure Coordinated (store : Store) (events : List Event) : Prop where
  distinct : Distinct store
  consistent : Consistent (boardOf store)
  recorded : ∀ {id t}, boardOf store id = some t → t.revision.toNat = t.history.length + 1 ∧
    t.history.map Change.previous ++ [t.content] = events.filterMap (fun e => e.wrote id)
  absent : ∀ {id}, boardOf store id = none → events.filterMap (fun e => e.wrote id) = []
  current : ∀ {id revision}, (id, revision) ∈ events.filterMap Event.updated →
    ∃ t, boardOf store id = some t ∧ revision.toNat < t.revision.toNat
  once : (events.filterMap Event.updated).Nodup

variable {after : Store}

theorem boardOf_replace {store : Store} (distinct : Distinct store) (written : after.files = replace store.files t) :
    Distinct after ∧ boardOf after = (boardOf store).write t := by
  have kept : Distinct after := by
    rw [Distinct, written]
    exact distinct_replace distinct t
  refine ⟨kept, ?_⟩
  funext id
  apply Option.ext
  intro u
  rw [boardOf_iff kept, written, mem_replace]
  by_cases same : id = t.id
  · subst same
    simp [eq_comm]
  · simp [write_other same, same, boardOf_iff distinct]

theorem Coordinated.fail {store : Store} {events : List Event} {e : Event} (before : Coordinated store events)
    (failed : ∃ error, e.result = .error error) (same : after.files = store.files) :
    Coordinated after (events ++ [e]) := by
  obtain ⟨error, result⟩ := failed
  have nothing (id : String) : e.wrote id = none := by simp [Event.wrote, result]
  have noUpdate : e.updated = none := by
    rw [Event.updated, result]
    split <;> trivial
  have board : boardOf after = boardOf store := by
    funext id
    rw [boardOf, boardOf, same]
  constructor
  · rw [Distinct, same]
    exact before.distinct
  · rw [board]
    exact before.consistent
  · intro id t held
    rw [board] at held
    simpa [List.filterMap_append, nothing] using before.recorded held
  · intro id held
    rw [board] at held
    simpa [List.filterMap_append, nothing] using before.absent held
  · intro id revision member
    rw [board]
    exact before.current (by simpa [List.filterMap_append, noUpdate] using member)
  · simpa [List.filterMap_append, noUpdate] using before.once

/-- How a saved task follows from what stood under its id: it is the first one of
    a new id, or it is the next revision of what an update named. -/
inductive Succeeds (board : Board) (e : Event) (t : Task) : Prop
  | first (fresh : board t.id = none) (revision : t.revision.toNat = 1) (history : t.history = [])
      (noUpdate : e.updated = none)
  | next {old : Task} {change : Change} (held : board t.id = some old)
      (revision : t.revision.toNat = old.revision.toNat + 1) (history : t.history = old.history ++ [change])
      (previous : change.previous = old.content) (update : e.updated = some (t.id, old.revision))

/-- A call that saves its task keeps what its run has established. -/
theorem Coordinated.save {store : Store} {events : List Event} {e : Event} (before : Coordinated store events)
    (result : e.result = .ok t) (content : t.content = e.call.content) (valid : validId t.id = true)
    (admitted : Admitted (boardOf store) t.id t.content) (succeeds : Succeeds (boardOf store) e t)
    (written : after.files = replace store.files t) : Coordinated after (events ++ [e]) := by
  obtain ⟨kept, board⟩ := boardOf_replace before.distinct written
  have wroteIt : e.wrote t.id = some t.content := by simp [Event.wrote, result, content]
  have wroteNo {id : String} (other : id ≠ t.id) : e.wrote id = none := by
    simp [Event.wrote, result, Ne.symm other]
  refine ⟨kept, ?_, ?_, ?_, ?_, ?_⟩
  · rw [board]
    exact before.consistent.write valid admitted
  · intro id u held
    rw [board] at held
    by_cases same : id = t.id
    · subst same
      obtain rfl : t = u := by simpa using held
      rw [List.filterMap_append]
      cases succeeds with
      | first fresh revision history _ => simp [before.absent fresh, wroteIt, revision, history]
      | next found revision history previous _ =>
        obtain ⟨counted, contents⟩ := before.recorded found
        refine ⟨by simp [revision, counted, history], ?_⟩
        rw [← contents, history]
        simp [wroteIt, previous]
    · rw [write_other same] at held
      simpa [List.filterMap_append, wroteNo same] using before.recorded held
  · intro id held
    rw [board] at held
    by_cases same : id = t.id
    · subst same
      simp at held
    · rw [write_other same] at held
      simpa [List.filterMap_append, wroteNo same] using before.absent held
  · intro id revision member
    rw [board]
    rw [List.filterMap_append] at member
    rcases List.mem_append.mp member with earlier | now
    · obtain ⟨u, held, less⟩ := before.current earlier
      by_cases same : id = t.id
      · subst same
        refine ⟨t, write_same _ t, ?_⟩
        cases succeeds with
        | first fresh => rw [fresh] at held; contradiction
        | next found counted =>
          obtain rfl := Option.some.inj (found.symm.trans held)
          omega
      · exact ⟨u, by rwa [write_other same], less⟩
    · cases succeeds with
      | first _ _ _ noUpdate => simp [noUpdate] at now
      | next found counted _ _ update =>
        obtain ⟨rfl, rfl⟩ : id = t.id ∧ revision = _ := by simpa [update] using now
        exact ⟨t, write_same _ t, by omega⟩
  · rw [List.filterMap_append]
    cases succeeds with
    | first _ _ _ noUpdate => simpa [noUpdate] using before.once
    | @next old _ found counted _ _ update =>
      refine List.nodup_append.mpr ⟨before.once, by simp [update], ?_⟩
      rintro ⟨id, revision⟩ earlier now last equal
      obtain rfl : now = (t.id, old.revision) := by simpa [update] using last
      obtain ⟨rfl, rfl⟩ := Prod.mk.inj equal
      obtain ⟨u, held, less⟩ := before.current earlier
      obtain rfl := Option.some.inj (found.symm.trans held)
      omega

section
variable {encoded : Draft → Except String ℕ}

/-- Every call keeps what its run has established. -/
theorem step_coordinated {store : Store} {events : List Event} (before : Coordinated store events) (call : Call) :
    Coordinated (step encoded store call).1 (events ++ [⟨call, (step encoded store call).2⟩]) := by
  cases call with
  | create content author io =>
    rcases @create_cases encoded store content author io with ⟨error, failed, same⟩ |
      ⟨tasks, task, listed, made, returned, written⟩
    · exact before.fail ⟨error, failed⟩ same
    · obtain ⟨fresh, valid, admitted, content, revision, history⟩ :=
        newTask_ok before.consistent (list_ok before.distinct listed) made
      refine before.save returned content valid (by rwa [content]) (.first fresh ?_ history rfl) written
      rw [revision, UInt64.toNat_one]
  | update id revision content author io =>
    rcases @update_cases encoded store id revision content author io with ⟨error, failed, same⟩ |
      ⟨valid, tasks, task, listed, made, returned, written⟩
    · exact before.fail ⟨error, failed⟩ same
    · obtain ⟨rfl, admitted, content, old, held, rfl, counted, change, history, previous⟩ :=
        updatedTask_ok before.consistent (list_ok before.distinct listed) made
      refine before.save returned content valid (by rwa [content]) (.next held counted history previous ?_) written
      show Event.updated ⟨_, (update encoded store task.id old.revision _ author io).2⟩ = _
      rw [returned]
      rfl

theorem run_keeps (root : String) (calls : List Call) :
    Coordinated (run encoded root calls).1 (run encoded root calls).2 := by
  induction calls using List.reverseRecOn with
  | nil =>
    refine ⟨by simp [Distinct, run, Store.new], ?_, ?_, by simp [run], by simp [run], by simp [run]⟩
    · exact consistent_empty
    · intro id t held
      simp [boardOf, run, Store.new] at held
  | append_singleton calls call ih =>
    rw [run_concat]
    exact step_coordinated ih call

theorem step_fails (store : Store) (call : Call) {error : String}
    (failed : (step encoded store call).2 = .error error) : (step encoded store call).1.files = store.files := by
  cases call with
  | create content author io =>
    rcases @create_cases encoded store content author io with ⟨_, _, same⟩ | ⟨_, _, _, _, returned, _⟩
    · exact same
    · exact absurd (failed.symm.trans returned) (by simp)
  | update id revision content author io =>
    rcases @update_cases encoded store id revision content author io with
      ⟨_, _, same⟩ | ⟨_, _, _, _, _, returned, _⟩
    · exact same
    · exact absurd (failed.symm.trans returned) (by simp)

/-- Every run keeps its store coordinated with its calls, and every next call
    fails without a trace or creates under a fresh id. -/
theorem run_coordinated (encoded : Draft → Except String ℕ) (root : String) (calls : List Call) :
    let (store, events) := run encoded root calls
    Coordinated store events ∧
      (∀ call error, (step encoded store call).2 = .error error → (step encoded store call).1.files = store.files) ∧
      ∀ content author io task, (create encoded store content author io).2 = .ok task →
        boardOf store task.id = none := by
  have holds := @run_keeps encoded root calls
  refine ⟨holds, fun call error => step_fails _ call, ?_⟩
  intro content author io task created
  rcases @create_cases encoded (run encoded root calls).1 content author io with ⟨_, failed, _⟩ |
    ⟨tasks, saved, listed, made, returned, _⟩
  · exact absurd (failed.symm.trans created) (by simp)
  · obtain rfl := Except.ok.inj (returned.symm.trans created)
    exact (newTask_ok holds.consistent (list_ok holds.distinct listed) made).1

end

def created (e : Event) : Option String :=
  match e.call, e.result with
  | .create .., .ok t => some t.id
  | _, _ => none

/-- The ids are the first ones in order, and the tasks on the board are theirs. -/
structure Numbered (store : Store) (ids : List String) : Prop where
  inOrder : ids = (List.range ids.length).map fun i => formatId (i + 1)
  few : ids.length < 2 ^ 64
  held : ∀ id, (boardOf store id).isSome ↔ id ∈ ids

variable {encoded : Draft → Except String ℕ} {store after : Store} {ids : List String} {tasks : List Task}

theorem Numbered.mem (numbered : Numbered store ids) {id : String} :
    id ∈ ids ↔ ∃ i < ids.length, formatId (i + 1) = id := by
  conv_lhs => rw [numbered.inOrder]
  simp

theorem Numbered.next (numbered : Numbered store ids) (consistent : Consistent (boardOf store))
    (lists : Lists (boardOf store) tasks) {n : ℕ} (next : nextNumber tasks = .ok n) : n = ids.length + 1 := by
  have few := numbered.few
  have numbers : ∀ m, m ∈ tasks.filterMap (fun t => idNumber t.id) ↔ ∃ i < ids.length, m = i + 1 := by
    intro m
    rw [List.mem_filterMap]
    constructor
    · rintro ⟨t, member, is⟩
      have onBoard : (boardOf store t.id).isSome := by rw [(lists.member t).mp member]; rfl
      obtain ⟨i, small, same⟩ := numbered.mem.mp ((numbered.held _).mp onBoard)
      rw [← same, idNumber_formatId (by omega)] at is
      exact ⟨i, small, (Option.some.inj is).symm⟩
    · rintro ⟨i, small, rfl⟩
      obtain ⟨t, held⟩ := Option.isSome_iff_exists.mp ((numbered.held _).mpr (numbered.mem.mpr ⟨i, small, rfl⟩))
      have named := (consistent.named held).1
      exact ⟨t, (lists.member t).mpr (by rwa [named]), by rw [named, idNumber_formatId (by omega)]⟩
  have greatest : ((tasks.filterMap fun t => idNumber t.id).max?).getD 0 = ids.length := by
    cases size : ids.length with
    | zero =>
      have none : tasks.filterMap (fun t => idNumber t.id) = [] :=
        List.eq_nil_iff_forall_not_mem.mpr fun m member => by
          obtain ⟨i, small, -⟩ := (numbers m).mp member
          omega
      rw [none]
      rfl
    | succ k =>
      rw [List.max?_eq_some_iff.mpr ⟨(numbers (k + 1)).mpr ⟨k, by omega, rfl⟩, fun m member => ?_⟩, Option.getD_some]
      obtain ⟨i, small, rfl⟩ := (numbers m).mp member
      omega
  rw [nextNumber, greatest] at next
  split at next
  · exact (Except.ok.inj next).symm
  · cases next

theorem Numbered.keep (numbered : Numbered store ids) (same : ∀ id, (boardOf after id).isSome = (boardOf store id).isSome) :
    Numbered after ids := ⟨numbered.inOrder, numbered.few, fun id => by rw [same, numbered.held]⟩

/-- A call that fails or updates gives no id, and one that creates gives the next. -/
theorem step_numbered {events : List Event} (before : Coordinated store events) (numbered : Numbered store ids)
    (call : Call) : Numbered (step encoded store call).1
      (ids ++ (created ⟨call, (step encoded store call).2⟩).toList) := by
  have failed : ∀ {error : String}, (step encoded store call).2 = .error error →
      (step encoded store call).1.files = store.files →
      Numbered (step encoded store call).1 (ids ++ (created ⟨call, (step encoded store call).2⟩).toList) := by
    intro error result same
    have none : created ⟨call, (step encoded store call).2⟩ = none := by
      rw [created, result]
      split <;> trivial
    rw [none, Option.toList_none, List.append_nil]
    exact numbered.keep fun id => by rw [boardOf, boardOf, same]
  cases call with
  | create content author io =>
    rcases @create_cases encoded store content author io with ⟨error, result, same⟩ |
      ⟨tasks, task, listed, made, result, written⟩
    · exact failed result same
    · have lists := list_ok before.distinct listed
      obtain ⟨-, board⟩ := boardOf_replace before.distinct written
      simp only [newTask, bind_ok_iff, pure_ok_iff] at made
      obtain ⟨next, isNext, ⟨⟩, -, made⟩ := made
      have small := (nextNumber_ok isNext).1
      have isId : task.id = formatId (ids.length + 1) := by
        rw [← numbered.next before.consistent lists isNext, ← made]
      have one : created ⟨.create content author io, (create encoded store content author io).2⟩ = some task.id := by
        rw [created, result]
      show Numbered (create encoded store content author io).1
        (ids ++ (created ⟨.create content author io, (create encoded store content author io).2⟩).toList)
      rw [one, Option.toList_some]
      rw [numbered.next before.consistent lists isNext] at small
      refine ⟨?_, by simpa using small, fun id => ?_⟩
      · rw [List.length_append, List.length_singleton, List.range_succ, List.map_append, ← numbered.inOrder]
        simp [isId]
      · rw [board, Board.write, List.mem_append, List.mem_singleton, ← numbered.held]
        by_cases same : id = task.id
        · simp [same]
        · simp [same]
  | update id revision content author io =>
    rcases @update_cases encoded store id revision content author io with ⟨error, result, same⟩ |
      ⟨-, tasks, task, listed, made, result, written⟩
    · exact failed result same
    · obtain ⟨-, board⟩ := boardOf_replace before.distinct written
      obtain ⟨rfl, -, -, old, held, -⟩ := updatedTask_ok before.consistent (list_ok before.distinct listed) made
      have none : created ⟨.update task.id revision content author io,
          (step encoded store (.update task.id revision content author io)).2⟩ = none := rfl
      rw [none, Option.toList_none, List.append_nil]
      refine numbered.keep fun id => ?_
      show (boardOf (update encoded store task.id revision content author io).1 id).isSome = _
      rw [board, Board.write]
      by_cases same : id = task.id
      · simp [same, held]
      · simp [same]

/-- In every run the tasks are numbered from one in the order of their creation, and they stay. -/
theorem run_numbered (encoded : Draft → Except String ℕ) (root : String) (calls : List Call) :
    let (store, events) := run encoded root calls
    events.filterMap created = (List.range (events.filterMap created).length).map (fun i => formatId (i + 1)) ∧
      ∀ id, (boardOf store id).isSome ↔ id ∈ events.filterMap created := by
  have holds : Numbered (run encoded root calls).1 ((run encoded root calls).2.filterMap created) := by
    induction calls using List.reverseRecOn with
    | nil => exact ⟨rfl, by simp [run], by simp [run, boardOf, Store.new]⟩
    | append_singleton calls call ih =>
      rw [run_concat, List.filterMap_append]
      have step := @step_numbered encoded _ _ _ (run_keeps root calls) ih call
      rwa [List.filterMap_cons, List.filterMap_nil]
  exact ⟨holds.inOrder, holds.held⟩

end E5r.WorkRuns
