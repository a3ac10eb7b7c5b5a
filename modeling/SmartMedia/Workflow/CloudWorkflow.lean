import SmartMedia.Library.PartialRun
import SmartMedia.Library.StableSort
import SmartMedia.Media.Paths

/-!
# Cloud workflow tasks

The tasks of `app/api/quark.py` that preview new names for the files of a cloud drive and then
rename them. A runner waits for its preview, for each rename, for the pauses between batches
and for the end of its session; nobody waits inside the lock, so all that happens between
two waits of a runner is one step. `renames` is a history variable.
-/
namespace SmartMedia.Workflow

abbrev Text := List Char

structure Operation where
  fid : Text
  newName : Text
  deriving DecidableEq, Repr

/-- What the runner reads of a preview. -/
structure Preview where
  batchId : Text
  totalItems : ℕ
  items : List Operation
  deriving DecidableEq, Repr

/-- The items that have a file and a new name. -/
def Preview.operations (preview : Preview) : List Operation :=
  preview.items.filterMap fun item =>
    let fid := Media.strip item.fid
    let newName := Media.strip item.newName
    if fid ≠ [] ∧ newName ≠ [] then some ⟨fid, newName⟩ else none

inductive RenameResult where
  | renamed (status : String)
  | failed (error : String)
  deriving DecidableEq, Repr

/-- What `execute_cloud_rename` returns. -/
structure Report where
  batchId : Text
  total : ℕ
  success : ℕ := 0
  failed : ℕ := 0
  skipped : ℕ := 0
  results : List (Text × RenameResult) := []
  deriving DecidableEq, Repr

def Report.record (report : Report) (fid : Text) (result : RenameResult) : Report :=
  let report := { report with results := report.results ++ [(fid, result)] }
  match result with
  | .renamed status =>
      if status = "skipped" then { report with skipped := report.skipped + 1 }
      else { report with success := report.success + 1 }
  | .failed _ => { report with failed := report.failed + 1 }

inductive Status where
  | pending
  | running
  | completed
  | failed
  | cancelled
  deriving DecidableEq, Repr

def Status.finished : Status → Bool
  | .completed | .failed | .cancelled => true
  | .pending | .running => false

inductive Stage where
  | queued
  | preview
  | execute
  | done
  | failed
  | cancelled
  deriving DecidableEq, Repr

/-- A task; of its request only `auto_execute` is read again. -/
structure Task where
  id : ℕ
  autoExecute : Bool
  status : Status := .pending
  stage : Stage := .queued
  progress : ℕ := 0
  message : String := "task queued"
  createdAt : ℤ
  updatedAt : ℤ
  preview : Option Preview := none
  execute : Option Report := none
  error : Option String := none
  deriving DecidableEq, Repr

def baseWorkflowTask (id : ℕ) (autoExecute : Bool) (now : ℤ) : Task :=
  { id, autoExecute, createdAt := now, updatedAt := now }

/-- What a runner waits for. With a report, the session closes after the last rename, without one
after a cancellation. -/
inductive Waiting where
  | start
  | preview
  | rename (report : Report) (operation : Operation) (rest : List Operation)
  | pause (report : Report) (operation : Operation) (rest : List Operation)
  | close (report : Option Report)
  deriving DecidableEq, Repr

/-- `_run_cloud_workflow_task`; `cancelled` stands for a cancellation that it has not met yet. -/
structure Runner where
  autoExecute : Bool
  waiting : Waiting := .start
  cancelled : Bool := false
  deriving DecidableEq, Repr

/-- How what a runner waits for ends. -/
inductive Wake where
  | started
  | previewed (preview : Preview)
  | renamed (result : RenameResult)
  | slept
  | closed
  | raised (error : String)
  | cancelled
  deriving DecidableEq, Repr

/-- What a runner does until it waits again or ends, with the update of its task and the rename
that it starts. A runner that is cancelled before its first step leaves its handle behind. -/
inductive Next where
  | waits (runner : Runner) (change : Option (Task → Task)) (rename : Option Operation)
  | ends (change : Task → Task)
  | vanishes

def cancelTask (task : Task) : Task :=
  { task with status := .cancelled, stage := .cancelled, message := "task cancelled" }

def failTask (error : String) (task : Task) : Task :=
  { task with status := .failed, stage := .failed, message := "task failed", error := some error }

def completeTask (message : String) (execute : Option Report) (task : Task) : Task :=
  { task with
    status := .completed, stage := .done, progress := 100, message,
    execute := execute.or task.execute }

def previewReady (preview : Preview) (task : Task) : Task :=
  { task with
    stage := .preview, progress := 60, preview := some preview,
    message := s!"preview ready: {preview.totalItems} items" }

namespace Runner

def rename (runner : Runner) (report : Report) (operation : Operation) (rest : List Operation)
    (change : Option (Task → Task)) : Next :=
  .waits { runner with waiting := .rename report operation rest } change (some operation)

/-- The steps after a preview. -/
def previewed (runner : Runner) (id : ℕ) (preview : Preview) : Next :=
  if runner.autoExecute = false then
    .ends fun task => completeTask "preview completed" none (previewReady preview task)
  else
    match preview.operations with
    | [] =>
        .ends fun task => completeTask "no runnable operations after preview"
          (some { batchId := preview.batchId, total := 0 }) (previewReady preview task)
    | operation :: rest =>
        let batchId := if preview.batchId = [] then (toString id).toList else preview.batchId
        runner.rename { batchId, total := rest.length + 1 } operation rest <| some fun task =>
          { previewReady preview task with
            stage := .execute, progress := 70,
            message := s!"executing rename for {rest.length + 1} items" }

/-- The loop of `execute_cloud_rename` after a rename: a pause follows every tenth of them. -/
def renamed (runner : Runner) (report : Report) : List Operation → Next
  | [] => .waits { runner with waiting := .close (some report) } none none
  | operation :: rest =>
      if report.results.length % 10 = 0 then
        .waits { runner with waiting := .pause report operation rest } none none
      else runner.rename report operation rest none

/-- A cancellation is met at the end of the wait in which it is asked for. -/
def next (runner : Runner) (id : ℕ) (wake : Wake) : Option Next :=
  match runner.waiting, runner.cancelled, wake with
  | .start, false, .started =>
      some <| .waits { runner with waiting := .preview } (some fun task =>
        { task with
          status := .running, stage := .preview, progress := 5, message := "generating preview" }) none
  | .start, true, .cancelled => some .vanishes
  | .preview, false, .previewed preview => some (runner.previewed id preview)
  | .preview, _, .raised error => some (.ends (failTask error))
  | .preview, true, .cancelled => some (.ends cancelTask)
  | .rename report operation rest, false, .renamed result =>
      some (runner.renamed (report.record operation.fid result) rest)
  | .rename .., true, .cancelled | .pause .., true, .cancelled =>
      some (.waits { runner with waiting := .close none, cancelled := false } none none)
  | .pause report operation rest, false, .slept => some (runner.rename report operation rest none)
  | .close (some report), false, .closed =>
      some <| .ends <| completeTask
        s!"completed: success={report.success}, failed={report.failed}, skipped={report.skipped}"
        (some report)
  | .close none, _, .closed | .close (some _), true, .cancelled => some (.ends cancelTask)
  | .close _, _, .raised error => some (.ends (failTask error))
  | _, _, _ => none

end Runner

/-- The tasks in the order in which they were made, the handles of the runners, and the runners. -/
structure Workflows where
  tasks : List Task := []
  handles : List ℕ := []
  runners : ℕ → Option Runner := fun _ => none
  nextId : ℕ := 0
  renames : List (ℕ × Operation) := []

inductive WorkflowEvent where
  | create (autoExecute : Bool) (now : ℤ)
  | cancel (id : ℕ) (now : ℤ)
  | wake (id : ℕ) (wake : Wake) (now : ℤ)
  deriving DecidableEq, Repr

def cloudWorkflowMaxKeep : ℕ := 50

/-- The order by `updated_at`, newest first. -/
def Newer (a b : Task) : Prop := b.updatedAt ≤ a.updatedAt

instance : DecidableRel Newer := fun a b => inferInstanceAs (Decidable (b.updatedAt ≤ a.updatedAt))

def pruneWorkflowTasks (tasks : List Task) (handles : List ℕ) : List Task :=
  if tasks.length ≤ cloudWorkflowMaxKeep then tasks
  else
    let keepIds := ((tasks.insertionSort Newer).take cloudWorkflowMaxKeep).map (·.id)
    tasks.filter fun task => keepIds.contains task.id || handles.contains task.id

/-- A task after an update of the one with the number `id`. -/
def Task.changed (id : ℕ) (now : ℤ) (change : Task → Task) (task : Task) : Task :=
  if task.id = id then { change task with id := task.id, updatedAt := now } else task

namespace Workflows

def update (s : Workflows) (id : ℕ) (now : ℤ) (change : Task → Task) : Workflows :=
  { s with tasks := s.tasks.map (Task.changed id now change) }

def setRunner (s : Workflows) (id : ℕ) (runner : Option Runner) : Workflows :=
  { s with runners := Function.update s.runners id runner }

def apply (s : Workflows) (id : ℕ) (now : ℤ) : Next → Workflows
  | .waits runner change rename =>
      let s := change.elim s (s.update id now)
      { s.setRunner id (some runner) with renames := s.renames ++ (rename.map (id, ·)).toList }
  | .ends change =>
      { (s.update id now change).setRunner id none with handles := s.handles.filter (· ≠ id) }
  | .vanishes => s.setRunner id none

def step (s : Workflows) : WorkflowEvent → Option Workflows
  | .create autoExecute now =>
      some { s with
        tasks := pruneWorkflowTasks (s.tasks ++ [baseWorkflowTask s.nextId autoExecute now]) s.handles
        handles := s.handles ++ [s.nextId]
        runners := Function.update s.runners s.nextId (some { autoExecute })
        nextId := s.nextId + 1 }
  | .cancel id now =>
      match s.tasks.find? (·.id = id) with
      | none => some s
      | some task =>
          if task.status.finished then some s
          else
            let s := s.update id now fun task =>
              { task with status := .cancelled, stage := .cancelled, message := "cancel requested" }
            if s.handles.contains id then
              some (s.setRunner id ((s.runners id).map fun runner => { runner with cancelled := true }))
            else some s
  | .wake id wake now => do
      let runner ← s.runners id
      let next ← runner.next id wake
      return s.apply id now next

/-- The renames that a runner has started. -/
def renamesOf (s : Workflows) (id : ℕ) : List Operation :=
  (s.renames.filter (·.1 = id)).map (·.2)

end Workflows

/-- The status of the task of a runner. -/
def Runner.status (runner : Runner) : Status :=
  if runner.cancelled then .cancelled
  else
    match runner.waiting with
    | .start => .pending
    | .close none => .cancelled
    | _ => .running

def Task.plan (task : Task) : List Operation := task.preview.elim [] (·.operations)

/-- A report on the renames `before`, of as many as there are in the plan. -/
structure Report.Covers (report : Report) (plan before : List Operation) : Prop where
  total : report.total = plan.length
  results : report.results.map (·.1) = before.map (·.fid)
  counts : report.success + report.failed + report.skipped = before.length

/-- How far a runner is with the plan of its task, when it has started the renames `started`. -/
def Waiting.Agrees (task : Task) (started : List Operation) : Waiting → Prop
  | .start | .preview => task.preview = none ∧ started = []
  | .rename report operation rest => task.autoExecute = true ∧
      ∃ before, started = before ++ [operation] ∧ task.plan = before ++ operation :: rest ∧
        report.Covers task.plan before
  | .pause report operation rest => task.autoExecute = true ∧
      task.plan = started ++ operation :: rest ∧ report.Covers task.plan started
  | .close (some report) => task.autoExecute = true ∧ task.plan = started ∧
      report.Covers task.plan started
  | .close none => started <+: task.plan

/-- A task whose runner is gone, for which the renames `started` were made. -/
structure Task.Finished (task : Task) (started : List Operation) : Prop where
  finished : task.status.finished = true
  planned : started <+: task.plan
  completed : task.status = .completed →
    if task.autoExecute then
      started = task.plan ∧ ∃ report, task.execute = some report ∧ report.Covers task.plan started
    else started = [] ∧ task.execute = none
  unreported : task.status ≠ .completed → task.execute = none

/-- A task and its runner. -/
structure Task.Runs (task : Task) (started : List Operation) (runner : Runner) : Prop where
  status : task.status = runner.status
  autoExecute : task.autoExecute = runner.autoExecute
  execute : task.execute = none
  waiting : runner.waiting.Agrees task started

def Task.Agrees (task : Task) (started : List Operation) : Option Runner → Prop
  | some runner => task.Runs started runner
  | none => task.Finished started

end SmartMedia.Workflow
