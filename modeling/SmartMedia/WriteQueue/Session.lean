import Mathlib.Data.Finmap

/-!
# One task in a database session

`_execute_single_task` of `app/core/db_write_queue.py`, over the session that
`get_db_session` of `app/core/db.py` opens. The session factory has `autoflush=False`:
an added instance is invisible to queries until the commit flushes it, while attributes
assigned to a loaded row are seen by later queries of the session. A session works on
the one table of its model. The ORM, the database and the registered models enter as
`Models`; an operation that raises half way is taken to have assigned nothing.
-/
namespace SmartMedia.WriteQueue

universe u

inductive WritePriority
  | low | normal | high | critical
  deriving DecidableEq, Repr

def WritePriority.value : WritePriority → ℤ
  | .low => 0
  | .normal => 1
  | .high => 2
  | .critical => 3

inductive WriteOperation
  | insert | update | delete | upsert
  deriving DecidableEq, Repr

/-- The keyword arguments of a write. -/
abbrev Data (V : Type u) := Finmap fun _ : String => V

/-- The rows of a model by primary key; a row holds its other columns. -/
abbrev Table (V : Type u) := Finmap fun _ : V => Data V

/-- What a worker executes of a task. -/
structure Write (V : Type u) where
  operation : WriteOperation
  modelClass : String
  data : Data V

/-- A `create_or_update` class method: it sees the rows of the session, changes them or
adds an instance, and may commit, as the methods of `StrmRecord` and `ScanRecord` do. -/
structure CreateOrUpdate (V : Type u) where
  run : Data V → Table V → Table V × List (Data V)
  commits : Bool

/-- The registered models and what the ORM and the database contribute. -/
structure Models (V : Type u) where
  truthy : V → Bool
  null : V
  registered : String → Bool
  hasFileId : String → Bool
  /-- The error of `model(**data)`. -/
  constructorError : String → Data V → Option String
  createOrUpdate : String → Option (CreateOrUpdate V)
  /-- The primary key of the first row with this `file_id`. -/
  firstByFileId : Table V → V → Option V
  /-- The key an INSERT without one gets. -/
  freshId : Table V → V
  /-- The text of an integrity error. -/
  conflict : String

/-- Where an operation raises. -/
inductive Fault
  | statement (error : String)
  | commit (error : String)
  | refresh (error : String)
  deriving DecidableEq, Repr

def Fault.atStatement : Fault → Option String
  | .statement e => some e
  | _ => none

def Fault.atCommit : Fault → Option String
  | .commit e => some e
  | _ => none

def Fault.atRefresh : Fault → Option String
  | .refresh e => some e
  | _ => none

/-- A session on the table of one model. `held` and `committed` record the tasks whose
writes it holds and has committed. -/
structure Session (V : Type u) where
  /-- The table as the transaction found it. -/
  start : Table V
  /-- The rows with the attributes assigned so far. -/
  rows : Table V
  added : List (Data V) := []
  /-- A primary key that was assigned another value. -/
  renamed : Option (V × V) := none
  /-- A commit failed and nothing was rolled back since. -/
  broken : Option String := none
  held : List ℕ := []
  committed : List ℕ := []

variable {V : Type u} [DecidableEq V]

namespace Models

/-- `data.get(field)`, where it is truthy. -/
def key (models : Models V) (data : Data V) (field : String) : Option V :=
  (data.lookup field).filter models.truthy

/-- A flushed INSERT; `none` on a primary key conflict. -/
def insertRow (models : Models V) (rows : Table V) (data : Data V) : Option (Table V) :=
  let id := ((data.lookup "id").filter (· ≠ models.null)).getD (models.freshId rows)
  if id ∈ rows then none else some (rows.insert id (data.erase "id"))

end Models

namespace Session

def begin (table : Table V) : Session V := { start := table, rows := table }

/-- `setattr` for every field on the instance of row `id`, if there is one. -/
def assign (s : Session V) (id : V) (fields : Data V) : Session V :=
  match s.rows.lookup id with
  | none => s
  | some row => { s with rows := s.rows.insert id (fields ∪ row) }

def delete (s : Session V) (id : V) : Session V := { s with rows := s.rows.erase id }

def add (s : Session V) (data : Data V) : Session V := { s with added := s.added ++ [data] }

/-- What a `create_or_update` leaves in the session before it commits. -/
def afterHook (s : Session V) (hook : CreateOrUpdate V) (data : Data V) : Session V :=
  { s with rows := (hook.run data s.rows).1, added := s.added ++ (hook.run data s.rows).2 }

/-- Task `i` was executed without an exception. -/
def hold (s : Session V) (i : ℕ) : Session V := { s with held := s.held ++ [i] }

def rollback (s : Session V) : Session V :=
  { s with rows := s.start, added := [], renamed := none, broken := none, held := [] }

/-- The flush of a changed primary key; `none` when the new key is taken. -/
def renameRow (rows : Table V) : Option (V × V) → Option (Table V)
  | none => some rows
  | some (old, new) =>
      match rows.lookup old with
      | none => some rows
      | some row => if new ∈ rows then none else some ((rows.erase old).insert new row)

/-- The table after a flush: the assigned rows, then the added instances in order. -/
def flush (models : Models V) (s : Session V) : Option (Table V) :=
  (renameRow s.rows s.renamed).bind fun rows => s.added.foldlM models.insertRow rows

/-- `db.commit()`. -/
def commit (models : Models V) (s : Session V) (fault : Option String) : Except String (Table V) :=
  match s.broken.or fault with
  | some e => .error e
  | none =>
      match s.flush models with
      | none => .error models.conflict
      | some table => .ok table

theorem commit_eq_ok {models : Models V} {s : Session V} {fault : Option String} {table : Table V} :
    s.commit models fault = .ok table ↔
      s.broken = none ∧ fault = none ∧ s.flush models = some table := by
  unfold commit
  cases hb : s.broken with
  | some e => simp
  | none =>
      cases fault with
      | some e => simp
      | none => cases hf : s.flush models <;> simp

/-- The session after a commit, in a new transaction. -/
def restart (s : Session V) (table : Table V) : Session V where
  start := table
  rows := table
  committed := s.committed ++ s.held

/-- The tasks whose writes are in the database if the next commit succeeds. -/
def tasks (s : Session V) : List ℕ := s.committed ++ s.held

@[simp] theorem assign_held (s : Session V) (id : V) (fields : Data V) :
    (s.assign id fields).held = s.held := by
  unfold assign
  split <;> rfl

@[simp] theorem assign_committed (s : Session V) (id : V) (fields : Data V) :
    (s.assign id fields).committed = s.committed := by
  unfold assign
  split <;> rfl

end Session

/-- What an execution leaves: the task's own write, the session and the exception. -/
structure Attempt (V : Type u) where
  write : Write V
  session : Session V
  error : Option String

section

variable (models : Models V) (i : ℕ) (w : Write V) (fault : Option Fault) (s : Session V)

/-- The UPDATE branch; `task.data.pop("id")` acts on the task itself. -/
def executeUpdate : Attempt V :=
  let w' := { w with data := w.data.erase "id" }
  match models.key w.data "id" with
  | none => ⟨w', s.hold i, none⟩
  | some id =>
      match s.broken.or (fault.bind Fault.atStatement) with
      | some e => ⟨w', s, some e⟩
      | none => ⟨w', (s.assign id w'.data).hold i, none⟩

/-- The DELETE branch. -/
def executeDelete : Attempt V :=
  match models.key w.data "id" with
  | none => ⟨w, s.hold i, none⟩
  | some id =>
      match s.broken.or (fault.bind Fault.atStatement) with
      | some e => ⟨w, s, some e⟩
      | none => ⟨w, (s.delete id).hold i, none⟩

/-- The INSERT branch. -/
def executeInsert : Attempt V :=
  match (models.constructorError w.modelClass w.data).or (fault.bind Fault.atStatement) with
  | some e => ⟨w, s, some e⟩
  | none => ⟨w, (s.add w.data).hold i, none⟩

/-- UPSERT through the model's own method. -/
def executeHook (hook : CreateOrUpdate V) : Attempt V :=
  match s.broken.or (fault.bind Fault.atStatement) with
  | some e => ⟨w, s, some e⟩
  | none =>
      let s' := (s.afterHook hook w.data).hold i
      if hook.commits then
        match s'.commit models (fault.bind Fault.atCommit) with
        | .error e => ⟨w, { s'.rollback with broken := some e }, some e⟩
        | .ok table => ⟨w, s'.restart table, fault.bind Fault.atRefresh⟩
      else ⟨w, s', none⟩

/-- The row the fallback of UPSERT looks for. -/
def fallbackRow (id : V) (rows : Table V) : Option V :=
  if models.hasFileId w.modelClass then models.firstByFileId rows id else some id

/-- The `except` branch of the default UPSERT: roll back, then assign. -/
def executeFallback : Attempt V :=
  let s' := s.rollback
  match (models.key w.data "id").or (models.key w.data "file_id") with
  | none => ⟨w, s'.hold i, none⟩
  | some id =>
      match fault.bind Fault.atStatement with
      | some e => ⟨w, s', some e⟩
      | none =>
          match fallbackRow models w id s'.rows with
          | none => ⟨w, s'.hold i, none⟩
          | some row =>
              let renamed := ((w.data.lookup "id").filter (· ≠ row)).map fun new => (row, new)
              ⟨w, ({ s'.assign row (w.data.erase "id") with renamed := renamed }).hold i, none⟩

/-- `_execute_single_task` for task `i`. -/
def executeSingleTask : Attempt V :=
  match w.operation with
  | .insert => executeInsert models i w fault s
  | .update => executeUpdate models i w fault s
  | .delete => executeDelete models i w fault s
  | .upsert =>
      match models.createOrUpdate w.modelClass with
      | some hook => executeHook models i w fault s hook
      | none =>
          match models.constructorError w.modelClass w.data with
          | none => ⟨w, (s.add w.data).hold i, none⟩
          | some _ => executeFallback models i w fault s

end

end SmartMedia.WriteQueue
