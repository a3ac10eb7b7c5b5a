import Mathlib.Logic.Function.Basic
import SmartMedia.Library.PartialRun
import SmartMedia.Scrape.ProcessTask

/-!
# Starting and stopping scrape jobs

`start_job` and `stop_job` of `app/services/media/scrape.py` with the tasks they create and
cancel, for any number of jobs. Every call is cut at its awaits and at its commits; between
two cuts of one call anything else may take its steps. In the event loop only awaits let
others run, so that its interleavings are among these. Rows are neither added nor removed;
a job goes by the position of its row.
-/
namespace SmartMedia.Scrape
open Media (Path ScrapeJob ScrapeJobStatus)

inductive CallStage where
  /-- `start_job` waits for a permit -/
  | waiting
  /-- `start_job` has its permit -/
  | inside
  /-- `start_job` has committed `running` -/
  | committed
  | started (answer : Bool)
  /-- `stop_job` has read the row, as the `no`-th read of all -/
  | reading (no : ℕ) (status : ScrapeJobStatus)
  /-- `stop_job` has committed `cancelled` -/
  | stored (no : ℕ)
  /-- `stop_job` waits for the task it has cancelled -/
  | joining (no task : ℕ)
  | stopped (answer : Bool)
  deriving DecidableEq, Repr

structure Call where
  job : ℕ
  stage : CallStage
  deriving DecidableEq, Repr

/-- The rows, the tasks, `_active_jobs`, the calls and the free permits of
`_job_semaphore`. History variables: how many reads `stop_job` calls have made, how many
of them before the latest verdict on a job, and by which read a task was cancelled. -/
structure JobService where
  jobs : List ScrapeJob
  tasks : List Task := []
  active : ℕ → Option ℕ := fun _ => none
  calls : List Call := []
  permits : ℕ := 10
  reads : ℕ := 0
  verdictAt : ℕ → ℕ := fun _ => 0
  cancelledBy : ℕ → Option ℕ := fun _ => none

inductive Action where
  | startJob (job : ℕ)
  | acquire (call : ℕ)
  | openRow (call : ℕ) (ok : Bool)
  | createTask (call : ℕ)
  | stopJob (job : ℕ) (ok : Bool)
  | storeCancelled (call : ℕ) (ok : Bool)
  | cancelTask (call : ℕ)
  | stopReturns (call : ℕ)
  | run (task : ℕ) (event : Event)
  deriving DecidableEq, Repr

namespace JobService

/-- `self._active_jobs.get(job_id)`, if it is not done. -/
def running (s : JobService) (job : ℕ) : Option ℕ :=
  (s.active job).filter fun i => s.tasks[i]?.any (!·.done)

def addCall (s : JobService) (job : ℕ) (stage : CallStage) : JobService :=
  { s with calls := s.calls ++ [⟨job, stage⟩] }

def setCall (s : JobService) (i : ℕ) (job : ℕ) (stage : CallStage) : JobService :=
  { s with calls := s.calls.set i ⟨job, stage⟩ }

def setRow (s : JobService) (job : ℕ) (row : ScrapeJob) : JobService :=
  { s with jobs := s.jobs.set job row }

def release (s : JobService) : JobService := { s with permits := s.permits + 1 }

/-- `asyncio.create_task(self._process_job(job_id))`. -/
def create (s : JobService) (job : ℕ) : JobService :=
  { s with
    tasks := s.tasks ++ [{ jobId := job }]
    active := Function.update s.active job (some s.tasks.length) }

/-- `task.cancel()`, for the `stop_job` with this read or for no one. -/
def cancel (s : JobService) (i : ℕ) (author : Option ℕ) : JobService :=
  { s with
    tasks := s.tasks.modify i fun t => { t with cancelling := true }
    cancelledBy := Function.update s.cancelledBy i (s.cancelledBy i <|> author) }

/-- The `finally` clause of `_process_job`, after the task's last step: whatever task is
registered for the job is unregistered, and cancelled if it is another one and not done. -/
def cleanUp (s : JobService) (job : ℕ) : JobService :=
  let s' := { s with active := Function.update s.active job none }
  match s.running job with
  | some other => s'.cancel other none
  | none => s'

/-- The task ends inside its `try` statement. -/
def leavesTry (t : Task) : Event → Bool
  | .begin => false
  | .cancel _ => t.stage ≠ .notifying
  | _ => true

/-- The task commits `completed` or `failed`. -/
def givesVerdict (t : Task) : Bool := t.stage = .closing false || t.stage = .failing

/-- A step of the task `i`. -/
def runTask (s : JobService) (i : ℕ) (event : Event) : Option JobService := do
  let t ← s.tasks[i]?
  let row ← s.jobs[t.jobId]?
  let (row', t') ← t.step row event
  let s' := { s.setRow t.jobId row' with
    tasks := s.tasks.set i t'
    verdictAt :=
      if givesVerdict t' then Function.update s.verdictAt t.jobId s.reads else s.verdictAt }
  some (if t'.done && leavesTry t event then s'.cleanUp t.jobId else s')

def step (s : JobService) : Action → Option JobService
  | .startJob job =>
      if (s.running job).isSome then some (s.addCall job (.started true))
      else if 0 < s.permits then
        some ({ s with permits := s.permits - 1 }.addCall job .inside)
      else some (s.addCall job .waiting)
  | .acquire i => do
      let call ← s.calls[i]?
      if call.stage = .waiting ∧ 0 < s.permits then
        some ({ s with permits := s.permits - 1 }.setCall i call.job .inside)
      else none
  | .openRow i ok => do
      let call ← s.calls[i]?
      if call.stage ≠ .inside then none
      else match s.jobs[call.job]?, ok with
        | some row, true =>
            -- a job that is running without a task gets one
            if row.status = .running then
              some ((s.create call.job).release.setCall i call.job (.started true))
            else
              some ((s.setRow call.job { row with status := .running }).setCall i call.job
                .committed)
        | _, _ => some (s.release.setCall i call.job (.started false))
  | .createTask i => do
      let call ← s.calls[i]?
      if call.stage ≠ .committed then none
      else some ((s.create call.job).release.setCall i call.job (.started true))
  | .stopJob job ok =>
      match s.jobs[job]?, ok with
      | some row, true =>
          some ({ s with reads := s.reads + 1 }.addCall job (.reading s.reads row.status))
      | _, _ => some (s.addCall job (.stopped false))
  | .storeCancelled i ok => do
      let call ← s.calls[i]?
      let row ← s.jobs[call.job]?
      match call.stage with
      | .reading no status =>
          if ok then
            some ((if status = .cancelled then s
              else s.setRow call.job { row with status := .cancelled }).setCall i call.job
                (.stored no))
          else some (s.setCall i call.job (.stopped false))
      | _ => none
  | .cancelTask i => do
      let call ← s.calls[i]?
      match call.stage with
      | .stored no =>
          match s.running call.job with
          | some t => some ((s.cancel t (some no)).setCall i call.job (.joining no t))
          | none => some (s.setCall i call.job (.stopped true))
      | _ => none
  | .stopReturns i => do
      let call ← s.calls[i]?
      match call.stage with
      -- the task has ended, or five seconds are over
      | .joining _ _ => some (s.setCall i call.job (.stopped true))
      | _ => none
  | .run i event => s.runTask i event

/-- A cancellation changes nothing else in a task. -/
theorem cancel_map {β : Type*} {f : Task → β}
    (hf : ∀ t : Task, f { t with cancelling := true } = f t) (s : JobService) (i : ℕ)
    (author : Option ℕ) : (s.cancel i author).tasks.map f = s.tasks.map f := by
  rw [cancel]
  refine List.ext_getElem? fun k => ?_
  rw [List.getElem?_map, List.getElem?_map, List.getElem?_modify]
  cases s.tasks[k]? with
  | none => rfl
  | some t =>
      split_ifs
      · exact congrArg some (hf t)
      · rfl

theorem cleanUp_map {β : Type*} {f : Task → β}
    (hf : ∀ t : Task, f { t with cancelling := true } = f t) (s : JobService) (job : ℕ) :
    (s.cleanUp job).tasks.map f = s.tasks.map f := by
  rw [cleanUp]
  cases s.running job with
  | none => rfl
  | some other => exact cancel_map hf _ other none

theorem cleanUp_jobs (s : JobService) (job : ℕ) :
    (s.cleanUp job).jobs = s.jobs ∧ (s.cleanUp job).calls = s.calls := by
  rw [cleanUp]
  cases s.running job <;> exact ⟨rfl, rfl⟩

end JobService

end SmartMedia.Scrape
