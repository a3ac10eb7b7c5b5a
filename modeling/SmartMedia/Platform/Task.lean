import Mathlib.Data.Int.Notation
import Mathlib.Data.Nat.Notation
import Mathlib.Data.List.Basic
import Mathlib.Tactic.Common

/-!
# The task row

`app/models/task.py`: the columns of the `tasks` table, the three state sets, and
what one flush writes. Date-times are natural numbers of seconds. JSON columns
are modelled by the keys the platform code reads from them. `resume_cursor` is
left out: nothing reads or writes it.
-/
namespace SmartMedia.Platform

abbrev Time := ℕ

/-- The strings the code stores in `Task.status`. -/
inductive TaskStatus where
  | pending | leased | planning | running | reviewing | cancelRequested | retryScheduled
  | completed | partialSuccess | failed | cancelled
  deriving DecidableEq, Repr

/-- `TASK_TERMINAL_STATES`. -/
def taskTerminalStates : List TaskStatus := [.completed, .partialSuccess, .failed, .cancelled]

/-- `TASK_LEASEABLE_STATES`. -/
def taskLeaseableStates : List TaskStatus := [.pending, .retryScheduled]

/-- `TASK_ACTIVE_STATES`. -/
def taskActiveStates : List TaskStatus := [.leased, .running, .planning, .reviewing]

/-- The statuses `TaskRunner._check_cancelled` answers `True` for. -/
def cancelStates : List TaskStatus := [.cancelRequested, .cancelled]

/-- A JSON value read as an `α`: the key may be absent, and the Python conversion
of a present value may raise (`invalid`, with the text of the exception). -/
inductive JsonField (α : Type) where
  | absent
  | given (value : α)
  | invalid (error : String)
  deriving DecidableEq, Repr

namespace JsonField
variable {α : Type}

/-- `dict.setdefault`: a present value stays, even one that converts badly. -/
def setDefault (d : α) : JsonField α → JsonField α
  | absent => given d
  | f => f

end JsonField

/-- `params["orchestration"]`, as far as `_ensure_orchestration_params` reads it. -/
structure Orchestration where
  traceId : Option String := none
  maxRetries : JsonField ℤ := .absent
  planner : Option String := none
  router : Option String := none
  worker : Option String := none
  reviewer : Option String := none
  deriving DecidableEq, Repr

structure Params where
  maxAttempts : JsonField ℤ := .absent
  idempotencyKey : Option String := none
  orchestration : JsonField Orchestration := .absent
  deriving DecidableEq, Repr

/-- What a handler returns to `run_task`. -/
structure WorkerResult where
  processed : ℤ := 0
  generated : ℤ := 0
  skipped : ℤ := 0
  errors : ℤ := 0
  deriving DecidableEq, Repr

/-- The `extra` argument of `_append_log`. -/
inductive LogExtra where
  | retryIn (seconds : ℕ)
  | result (r : WorkerResult)
  deriving DecidableEq, Repr

structure LogEntry where
  ts : Time
  level : String
  message : String
  agent : Option String := none
  stage : Option String := none
  extra : Option LogExtra := none
  deriving DecidableEq, Repr

structure Task where
  taskType : String
  status : TaskStatus := .pending
  priority : String := "normal"
  progress : ℤ := 0
  totalItems : ℤ := 0
  processedItems : ℤ := 0
  errorMessage : Option String := none
  logs : List LogEntry := []
  params : Params := {}
  leaseOwner : Option String := none
  leaseUntil : Option Time := none
  heartbeatAt : Option Time := none
  attempt : ℕ := 0
  maxAttempts : ℕ := 3
  idempotencyKey : Option String := none
  nextRunAt : Option Time := none
  createdAt : Time
  startedAt : Option Time := none
  completedAt : Option Time := none
  deriving DecidableEq, Repr

/-- `int(task.max_attempts or 1)`. -/
def Task.attemptLimit (t : Task) : ℕ := if t.maxAttempts = 0 then 1 else t.maxAttempts

/-- The columns an UPDATE sets; `none` leaves a column as the row has it. -/
structure TaskUpdate where
  status : Option TaskStatus := none
  progress : Option ℤ := none
  totalItems : Option ℤ := none
  processedItems : Option ℤ := none
  errorMessage : Option (Option String) := none
  logs : Option (List LogEntry) := none
  params : Option Params := none
  leaseOwner : Option (Option String) := none
  leaseUntil : Option (Option Time) := none
  heartbeatAt : Option (Option Time) := none
  attempt : Option ℕ := none
  nextRunAt : Option (Option Time) := none
  startedAt : Option (Option Time) := none
  completedAt : Option (Option Time) := none
  deriving DecidableEq, Repr

/-- An UPDATE by primary key: the listed columns are written, the current values
of the row are not looked at. The same function brings an ORM object up to date. -/
def TaskUpdate.apply (u : TaskUpdate) (t : Task) : Task :=
  { t with
    status := u.status.getD t.status
    progress := u.progress.getD t.progress
    totalItems := u.totalItems.getD t.totalItems
    processedItems := u.processedItems.getD t.processedItems
    errorMessage := u.errorMessage.getD t.errorMessage
    logs := u.logs.getD t.logs
    params := u.params.getD t.params
    leaseOwner := u.leaseOwner.getD t.leaseOwner
    leaseUntil := u.leaseUntil.getD t.leaseUntil
    heartbeatAt := u.heartbeatAt.getD t.heartbeatAt
    attempt := u.attempt.getD t.attempt
    nextRunAt := u.nextRunAt.getD t.nextRunAt
    startedAt := u.startedAt.getD t.startedAt
    completedAt := u.completedAt.getD t.completedAt }

namespace TaskUpdate

@[simp] theorem apply_status (u : TaskUpdate) (t : Task) :
    (u.apply t).status = u.status.getD t.status := rfl
@[simp] theorem apply_leaseOwner (u : TaskUpdate) (t : Task) :
    (u.apply t).leaseOwner = u.leaseOwner.getD t.leaseOwner := rfl
@[simp] theorem apply_leaseUntil (u : TaskUpdate) (t : Task) :
    (u.apply t).leaseUntil = u.leaseUntil.getD t.leaseUntil := rfl
@[simp] theorem apply_heartbeatAt (u : TaskUpdate) (t : Task) :
    (u.apply t).heartbeatAt = u.heartbeatAt.getD t.heartbeatAt := rfl
@[simp] theorem apply_attempt (u : TaskUpdate) (t : Task) :
    (u.apply t).attempt = u.attempt.getD t.attempt := rfl
@[simp] theorem apply_maxAttempts (u : TaskUpdate) (t : Task) :
    (u.apply t).maxAttempts = t.maxAttempts := rfl
@[simp] theorem apply_attemptLimit (u : TaskUpdate) (t : Task) :
    (u.apply t).attemptLimit = t.attemptLimit := rfl

/-- An empty flush issues no UPDATE. -/
@[simp] theorem apply_empty (t : Task) : ({} : TaskUpdate).apply t = t := rfl

/-- The columns that report an outcome: status, progress, error text, completion. -/
def writesOutcome (u : TaskUpdate) : Bool :=
  u.status.isSome || u.progress.isSome || u.errorMessage.isSome || u.completedAt.isSome

end TaskUpdate

/-- The `tasks` table: the row with primary key `id` stands at position `id`. -/
abbrev Table := List Task

/-- UPDATE of one row by primary key. -/
def Table.update (id : ℕ) (u : TaskUpdate) (tasks : Table) : Table :=
  tasks.modify id u.apply

/-- A flush that updates several rows in one transaction. -/
def Table.updateAll : List (ℕ × TaskUpdate) → Table → Table
  | [], tasks => tasks
  | (id, u) :: us, tasks => Table.updateAll us (Table.update id u tasks)

namespace Table
variable {us : List (ℕ × TaskUpdate)} {tasks : Table} {id : ℕ} {u : TaskUpdate} {t : Task}

@[simp] theorem length_update (id : ℕ) (u : TaskUpdate) (tasks : Table) :
    (Table.update id u tasks).length = tasks.length := List.length_modify ..

@[simp] theorem length_updateAll (us : List (ℕ × TaskUpdate)) (tasks : Table) :
    (Table.updateAll us tasks).length = tasks.length := by
  induction us generalizing tasks with
  | nil => rfl
  | cons p us ih => simp only [updateAll, ih, length_update]

theorem get_update_self (h : tasks[id]? = some t) :
    (Table.update id u tasks)[id]? = some (u.apply t) := by
  simp [Table.update, h]

theorem get_update_ne {i : ℕ} (h : id ≠ i) : (Table.update id u tasks)[i]? = tasks[i]? := by
  simp [Table.update, h]

/-- Rows without an update keep their value. -/
theorem get_updateAll_of_notMem (h : ∀ u, (id, u) ∉ us) :
    (Table.updateAll us tasks)[id]? = tasks[id]? := by
  induction us generalizing tasks with
  | nil => rfl
  | cons p us ih =>
      obtain ⟨i, v⟩ := p
      have hne : i ≠ id := fun he => h v (he ▸ List.mem_cons_self)
      rw [updateAll, ih fun u hu => h u (List.mem_cons_of_mem _ hu), get_update_ne hne]

/-- With one update per row, each row gets exactly its own. -/
theorem get_updateAll_of_mem (hnd : (us.map Prod.fst).Nodup) (h : (id, u) ∈ us)
    (ht : tasks[id]? = some t) : (Table.updateAll us tasks)[id]? = some (u.apply t) := by
  induction us generalizing tasks with
  | nil => cases h
  | cons p us ih =>
      obtain ⟨i, v⟩ := p
      rw [List.map_cons, List.nodup_cons] at hnd
      rcases List.mem_cons.mp h with he | hu
      · cases he
        have hnot : ∀ u, (id, u) ∉ us := fun u hu => hnd.1 (List.mem_map.mpr ⟨_, hu, rfl⟩)
        rw [updateAll, get_updateAll_of_notMem hnot, get_update_self ht]
      · have hne : i ≠ id := fun he => hnd.1 (List.mem_map.mpr ⟨_, hu, he.symm⟩)
        rw [updateAll]
        exact ih hnd.2 hu (by rw [get_update_ne hne, ht])

end Table

end SmartMedia.Platform
