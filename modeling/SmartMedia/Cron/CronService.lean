import SmartMedia.Library.PartialRun
import Mathlib.Data.Finset.Basic

/-!
# The cron service

`app/services/cron_service.py`: tasks are queued, and one processor executes them one
after the other, each in an asyncio task of its own that `stop_task` can cancel. Handlers
may end in any way. The coroutines are cut at their awaits.
-/
namespace SmartMedia.Cron

/-- How a coroutine ends; `cancelled` is a `CancelledError`. -/
inductive Outcome
  | success
  | failure (error : String)
  | cancelled
  deriving DecidableEq, Repr

inductive TaskStatus
  | pending
  | running
  | success
  | failed
  deriving DecidableEq, Repr

structure TaskInfo where
  taskId : String
  taskType : String
  status : TaskStatus := .pending
  error : Option String := none
  deriving DecidableEq, Repr

inductive Progress
  | created
  | started
  | ended (outcome : Outcome)
  deriving DecidableEq, Repr

/-- The asyncio task of an `_execute_task`. -/
structure Execution where
  info : TaskInfo
  progress : Progress := .created
  /-- `cancel` was called, and the `CancelledError` not raised yet. -/
  cancelling : Bool := false
  deriving DecidableEq, Repr

/-- Where `_process_queue` is: at the queue, at `await task`, or returned. -/
inductive Processor
  | waiting
  | awaiting (i : ℕ)
  | stopped
  deriving DecidableEq, Repr

structure CronService where
  taskHandlers : List String
  queueLoop : Option ℕ := none
  taskQueue : List TaskInfo := []
  /-- The attribute does not exist before the first use. -/
  queuedTaskIds : Option (Finset String) := none
  runningTasks : List (String × ℕ) := []
  taskHistory : List TaskInfo := []
  maxHistory : ℕ := 100
  running : Bool := false
  workerTask : Option Processor := none
  executions : List Execution := []
  deriving DecidableEq

namespace Execution

def Ended (e : Execution) : Prop := ∃ outcome, e.progress = .ended outcome

/-- `Task.cancel`; a finished task is left alone. -/
def cancel (e : Execution) : Execution :=
  match e.progress with
  | .ended _ => e
  | _ => { e with cancelling := true }

def finish (e : Execution) (outcome : Outcome) : Execution where
  info :=
    match outcome with
    | .success => { e.info with status := .success }
    | .failure error => { e.info with status := .failed, error := some error }
    | .cancelled => e.info
  progress := .ended outcome

end Execution

namespace CronService

def new (taskHandlers : List String) : CronService := { taskHandlers }

def ensureQueue (c : CronService) (currentLoop : ℕ) : CronService :=
  if c.queueLoop = some currentLoop then c
  else { c with taskQueue := [], queuedTaskIds := some ∅, queueLoop := some currentLoop }

def start (c : CronService) (currentLoop : ℕ) : CronService :=
  if c.running then c
  else { c.ensureQueue currentLoop with running := true, workerTask := some .waiting }

/-- The queue is unbounded, so `put` does not wait. -/
def addTask (c : CronService) (taskType : String) (taskId : Option String) (timestamp : String) :
    CronService × String :=
  let taskId := taskId.getD (taskType ++ "_" ++ timestamp)
  if (c.runningTasks.lookup taskId).isSome then (c, taskId)
  else if c.queuedTaskIds.any fun ids => taskId ∈ ids then (c, taskId)
  else
    ({ c with
        queuedTaskIds := some (insert taskId (c.queuedTaskIds.getD ∅))
        taskQueue := c.taskQueue ++ [{ taskId, taskType }] }, taskId)

def stopTask (c : CronService) (taskId : String) : CronService × Bool :=
  match c.runningTasks.lookup taskId with
  | some i => ({ c with executions := c.executions.modify i Execution.cancel }, true)
  | none => (c, false)

/-- The end of `_execute_task`, with the history entry of its `finally`. -/
def finishExecution (c : CronService) (i : ℕ) (e : Execution) (outcome : Outcome) : CronService :=
  let e := e.finish outcome
  let history := c.taskHistory ++ [e.info]
  { c with
    executions := c.executions.set i e
    taskHistory := history.drop (history.length - c.maxHistory) }

/-- The first step of `_execute_task`: a cancelled task does not even enter it. -/
def beginExecution (c : CronService) (i : ℕ) (e : Execution) : CronService :=
  if e.cancelling then
    { c with executions := c.executions.set i { e with progress := .ended .cancelled } }
  else
    let e := { e with info := { e.info with status := .running } }
    if e.info.taskType ∈ c.taskHandlers then
      { c with executions := c.executions.set i { e with progress := .started } }
    else
      c.finishExecution i e (.failure ("No handler registered for task type: " ++ e.info.taskType))

/-- The processor has got a task from the queue. -/
def processTask (c : CronService) (info : TaskInfo) : CronService :=
  if (c.runningTasks.lookup info.taskId).isSome then c
  else
    { c with
      executions := c.executions ++ [{ info }]
      runningTasks := (info.taskId, c.executions.length) :: c.runningTasks
      workerTask := some (.awaiting c.executions.length) }

/-- The `finally` of the processor. -/
def cleanup (c : CronService) (taskId : String) : CronService :=
  { c with
    runningTasks := c.runningTasks.filter fun e => e.1 ≠ taskId
    queuedTaskIds := c.queuedTaskIds.map fun ids => ids.erase taskId }

/-- The test of `_running` in the loop of the processor. -/
def loop (c : CronService) : CronService :=
  { c with workerTask := some (if c.running then .waiting else .stopped) }

/-- The processor after `await task`: `except Exception` lets a `CancelledError` pass, and
the outer handler leaves the loop on one. -/
def resume (c : CronService) (e : Execution) (outcome : Outcome) : CronService :=
  match outcome with
  | .cancelled => { c.cleanup e.info.taskId with workerTask := some .stopped }
  | _ => (c.cleanup e.info.taskId).loop

end CronService

inductive Action
  | start (currentLoop : ℕ)
  | addTask (taskType : String) (taskId : Option String) (timestamp : String)
  | stopTask (taskId : String)
  /-- The processor's `get` returns. -/
  | get
  /-- Its `wait_for` times out. -/
  | timeout
  /-- The asyncio task `i` runs for the first time. -/
  | begin (i : ℕ)
  /-- The handler that it executes ends. -/
  | finish (i : ℕ) (outcome : Outcome)
  /-- The processor's `await task` returns or raises. -/
  | resume
  deriving DecidableEq, Repr

namespace CronService

def step (c : CronService) : Action → Option CronService
  | .start currentLoop => some (c.start currentLoop)
  | .addTask taskType taskId timestamp => some (c.addTask taskType taskId timestamp).1
  | .stopTask taskId => some (c.stopTask taskId).1
  | .get =>
      match c.workerTask, c.taskQueue with
      | some .waiting, info :: rest => some ({ c with taskQueue := rest }.processTask info)
      | _, _ => none
  | .timeout =>
      match c.workerTask with
      | some .waiting => some c.loop
      | _ => none
  | .begin i =>
      match c.executions[i]? with
      | some e => if e.progress = .created then some (c.beginExecution i e) else none
      | none => none
  | .finish i outcome =>
      match c.executions[i]? with
      | some e => if e.progress = .started then some (c.finishExecution i e outcome) else none
      | none => none
  | .resume =>
      match c.workerTask with
      | some (.awaiting i) =>
          match c.executions[i]? with
          | some e =>
              match e.progress with
              | .ended outcome => some (c.resume e outcome)
              | _ => none
          | none => none
      | _ => none

/-- The service after `start`. -/
def started (taskHandlers : List String) (currentLoop : ℕ) : CronService :=
  (new taskHandlers).start currentLoop

end CronService

end SmartMedia.Cron
