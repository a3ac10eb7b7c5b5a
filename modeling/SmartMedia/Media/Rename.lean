import Mathlib.Data.Int.Notation
import Mathlib.Data.List.Sort
import SmartMedia.Media.Files

/-!
# `RenameService` and `SmartRenameService`

`execute` and `rollback` of `app/services/media/rename.py` and `smart_rename.py` on
the rows of one batch. The rows come in the order the query returns them; `id` is
their primary key. A set of extensions is passed as a list of any order. The columns
of a match (TMDB id, confidence) play no role here.
-/
namespace SmartMedia.Media

inductive ItemStatus where
  | pending | matched | parsed | needsConfirmation | skipped | success | failed | rolledBack
  deriving DecidableEq, Repr

inductive BatchStatus where
  | pending | previewing | executing | completed | completedWithErrors | failed | rolledBack
  deriving DecidableEq, Repr

structure RenameHistory where
  id : ℕ
  originalPath : Path
  newPath : Option Path := none
  newName : Option Path := none
  status : ItemStatus := .pending
  errorMessage : Option String := none
  executedAt : Option Time := none
  rolledBackAt : Option Time := none
  deriving DecidableEq, Repr

def BatchStatus.text : BatchStatus → String
  | .pending => "pending" | .previewing => "previewing" | .executing => "executing"
  | .completed => "completed" | .completedWithErrors => "completed_with_errors"
  | .failed => "failed" | .rolledBack => "rolled_back"

structure RenameBatch where
  batchId : String
  items : List RenameHistory
  status : BatchStatus := .previewing
  totalItems : ℤ := 0
  successItems : ℤ := 0
  failedItems : ℤ := 0
  skippedItems : ℤ := 0
  executedAt : Option Time := none
  completedAt : Option Time := none
  deriving DecidableEq, Repr

structure RenameExecuteResult where
  batchId : String
  totalItems : ℤ
  successItems : ℤ
  failedItems : ℤ
  skippedItems : ℤ
  deriving DecidableEq, Repr

namespace RenameHistory

/-- The `except` clause of both `execute` loops. -/
def fail (item : RenameHistory) (error : String) : RenameHistory :=
  { item with status := .failed, errorMessage := some error }

/-- A null `executed_at` sorts below every date. -/
def executedKey (item : RenameHistory) : ℕ := item.executedAt.elim 0 (· + 1)

end RenameHistory

variable {β : Type}

/-- The loop over the selected rows; the others stay as they are. -/
def forItems (selected : RenameHistory → Bool) (run : RenameHistory → FileM β RenameHistory) :
    List RenameHistory → FileM β (List RenameHistory)
  | [] => pure []
  | item :: rest => do
      let item' ← if selected item then run item else pure item
      let rest' ← forItems selected run rest
      pure (item' :: rest')

/-- How many of the selected rows ended with a status. -/
def tally (selected : RenameHistory → Bool) (before after : List RenameHistory)
    (status : ItemStatus) : ℤ :=
  ((before.zip after).countP fun p => selected p.1 && p.2.status = status : ℕ)

/-- `status == "success"` in `order_by(executed_at.desc())`. -/
def rollbackOrder (items : List RenameHistory) : List RenameHistory :=
  (items.filter (·.status = .success)).insertionSort fun a b => b.executedKey ≤ a.executedKey

/-- The batch's rows after those of the loop were written back. -/
def writeBack (updated items : List RenameHistory) : List RenameHistory :=
  items.map fun item => (updated.find? (·.id = item.id)).getD item

def RenameBatch.notExecutable (batch : RenameBatch) : String :=
  "Batch " ++ batch.batchId ++ " cannot be executed (status: " ++ batch.status.text ++ ")"

def RenameBatch.alreadyRolledBack (batch : RenameBatch) : String :=
  "Batch " ++ batch.batchId ++ " already rolled back"

/-- The end of both `execute` methods. -/
def RenameBatch.complete (batch : RenameBatch) (items : List RenameHistory)
    (success failed skipped : ℤ) (started completed : Time) : RenameBatch :=
  { batch with
    items
    status := if failed = 0 then .completed else .completedWithErrors
    successItems := success
    failedItems := failed
    skippedItems := skipped
    executedAt := some started
    completedAt := some completed }

namespace RenameService

/-- The body of the loop in `execute`; the suffixed target is stored in the row. -/
def executeItem (env : Env) (exts : List Path) (item : RenameHistory) :
    FileM β RenameHistory :=
  match item.newPath with
  | none => pure (item.fail "expected str, bytes or os.PathLike object, not NoneType")
  | some planned => tryCatch (do
      makeDirs env (dirname planned)
      let d ← get
      let final := freePath d.files planned
      tryCatch (do
        moveWithRelated env exts item.id item.originalPath final
        let now ← clock env
        pure { item with newPath := some final, status := .success, executedAt := some now })
        fun e => pure (RenameHistory.fail { item with newPath := some final } e))
      fun e => pure (item.fail e)

def selected (item : RenameHistory) : Bool := item.status = .matched

def execute (env : Env) (exts : List Path) (batch : RenameBatch) :
    FileM β (RenameBatch × RenameExecuteResult) :=
  if batch.status ∈ [BatchStatus.previewing, .pending] then do
    let started ← clock env
    let items ← forItems selected (executeItem env exts) batch.items
    let success := tally selected batch.items items .success
    let failed := tally selected batch.items items .failed
    let skipped := batch.totalItems - success - failed
    let completed ← clock env
    pure (batch.complete items success failed skipped started completed,
      ⟨batch.batchId, batch.totalItems, success, failed, skipped⟩)
  else throw batch.notExecutable

/-- The body of the loop in `rollback`. -/
def rollbackItem (env : Env) (exts : List Path) (item : RenameHistory) :
    FileM β RenameHistory :=
  match item.newPath with
  | none => pure { item with
      errorMessage :=
        some "stat: path should be string, bytes, os.PathLike or integer, not NoneType" }
  | some newPath => tryCatch (do
      let there ← pathExists newPath
      if there then do
        makeDirs env (dirname item.originalPath)
        let occupied ← pathExists item.originalPath
        if occupied then pure { item with errorMessage := some "Original path occupied" }
        else do
          moveWithRelated env exts item.id newPath item.originalPath
          let now ← clock env
          pure { item with status := .rolledBack, rolledBackAt := some now }
      else pure { item with errorMessage := some "File not found at new location" })
      fun e => pure { item with errorMessage := some e }

def rollback (env : Env) (exts : List Path) (batch : RenameBatch) :
    FileM β (RenameBatch × RenameExecuteResult) :=
  if batch.status = .rolledBack then throw batch.alreadyRolledBack
  else do
    let items ← forItems (fun _ => true) (rollbackItem env exts) (rollbackOrder batch.items)
    let success : ℤ := (items.countP (·.status = .rolledBack) : ℕ)
    pure ({ batch with items := writeBack items batch.items, status := .rolledBack },
      ⟨batch.batchId, items.length, success, items.length - success, 0⟩)

end RenameService

/-- An entry of `operations`; a missing key reads as the empty string. -/
structure Operation where
  originalPath : Option Path := none
  newName : Option Path := none
  deriving DecidableEq, Repr

namespace SmartRenameService

/-- `operation_map`, in insertion order; a later entry for a path wins. -/
def operationMap (operations : List Operation) : List (Path × Path) :=
  operations.filterMap fun op =>
    let original := strip (op.originalPath.getD [])
    let name := strip (op.newName.getD [])
    if original ≠ [] ∧ name ≠ [] then some (original, name) else none

def overrideName (operations : List Operation) (original : Path) : Option Path :=
  (operationMap operations).reverse.lookup original

/-- The rows the override loop assigns to. -/
def override (operations : List Operation) (item : RenameHistory) : RenameHistory :=
  if item.status ∈ [ItemStatus.matched, .parsed, .needsConfirmation] then
    match overrideName operations item.originalPath with
    | none => item
    | some name =>
        let target := item.newPath.getD []
        let targetDir := if target ≠ [] then dirname target else dirname item.originalPath
        { item with
          newName := some name
          newPath := some (join targetDir name)
          status := if item.status = .needsConfirmation then .parsed else item.status }
  else item

/-- The rows after the override loop, which runs only when there are operations. -/
def overridden (operations : List Operation) (items : List RenameHistory) : List RenameHistory :=
  if operations.isEmpty then items else items.map (override operations)

/-- The rows of the execute loop, after the overrides. -/
def selected (operations : List Operation) (item : RenameHistory) : Bool :=
  item.status ∈ [ItemStatus.matched, .parsed] &&
    (operations.isEmpty || (overrideName operations item.originalPath).isSome)

/-- The body of the loop in `execute`: the suffixed target is a local variable. -/
def executeItem (env : Env) (exts : List Path) (item : RenameHistory) :
    FileM β RenameHistory :=
  let planned := item.newPath.getD []
  if planned = [] then pure (item.fail "new_path is empty")
  else tryCatch (do
    makeDirs env (dirname planned)
    let d ← get
    moveWithRelated env exts item.id item.originalPath (freePath d.files planned)
    -- history variable: the file that was in the way
    noteFound item.id (d.files.lookup planned)
    let now ← clock env
    pure { item with status := .success, executedAt := some now })
    fun e => pure (item.fail e)

def execute (env : Env) (exts : List Path) (operations : List Operation) (batch : RenameBatch) :
    FileM β (RenameBatch × RenameExecuteResult) :=
  if batch.status ∈ [BatchStatus.previewing, .pending] then do
    let started ← clock env
    let before := overridden operations batch.items
    let items ← forItems (selected operations) (executeItem env exts) before
    let total : ℤ :=
      if operations.isEmpty then batch.totalItems
      else (((operationMap operations).map Prod.fst).dedup.length : ℕ)
    let success := tally (selected operations) before items .success
    let failed := tally (selected operations) before items .failed
    let skipped := max (total - success - failed) 0
    let completed ← clock env
    pure (batch.complete items success failed skipped started completed,
      ⟨batch.batchId, total, success, failed, skipped⟩)
  else throw batch.notExecutable

/-- The body of the loop in `rollback`, which goes by the stored `new_path`. -/
def rollbackItem (env : Env) (exts : List Path) (item : RenameHistory) :
    FileM β RenameHistory :=
  let newPath := item.newPath.getD []
  tryCatch (do
    let there ← pathExists newPath
    if newPath ≠ [] ∧ there = true then do
      makeDirs env (dirname item.originalPath)
      let occupied ← pathExists item.originalPath
      if occupied then pure item
      else do
        moveWithRelated env exts item.id newPath item.originalPath
        let now ← clock env
        pure { item with status := .rolledBack, rolledBackAt := some now }
    else pure item)
    fun e => pure { item with errorMessage := some e }

def rollback (env : Env) (exts : List Path) (batch : RenameBatch) :
    FileM β (RenameBatch × RenameExecuteResult) :=
  if batch.status = .rolledBack then throw batch.alreadyRolledBack
  else do
    let items ← forItems (fun _ => true) (rollbackItem env exts) (rollbackOrder batch.items)
    let success : ℤ := (items.countP (·.status = .rolledBack) : ℕ)
    pure ({ batch with items := writeBack items batch.items, status := .rolledBack },
      ⟨batch.batchId, items.length, success, items.length - success, 0⟩)

end SmartRenameService

end SmartMedia.Media
