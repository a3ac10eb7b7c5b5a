import Mathlib.Algebra.Group.Nat.Defs
import SmartMedia.Platform.Task

/-!
# `TaskRunner.run_task`

`app/services/platform/task_runner.py` as a step machine. A `RunPoint` names the
next database access of the coroutine: a query or refresh, or the commit that
flushes what was assigned since the previous access. The ORM object is `Run.copy`;
a commit writes exactly the assigned columns and keeps the copy, a refresh reloads
it. The handler of a `strm_generation` task is left to the environment: it reports
progress any number of times and then returns, raises, or is interrupted.

WebSocket broadcasts cannot fail and change nothing here. They are awaits, so they
are points where the event loop may deliver a cancellation (`RunEvent.interrupt`).
-/
namespace SmartMedia.Platform

inductive RunPoint where
  | query | commitParams | commitPlanning | commitPlanningLog | checkPlanning
  | commitPlanLog | commitPlanProgress | checkPlanned
  | commitRunning | commitRouteLog | checkRouted
  | commitAttemptLog (attempt : ℕ)
  | handler (attempt : ℕ)
  | commitProgress (attempt : ℕ) (progress : ℤ) (message : String)
  | checkProgress (attempt : ℕ)
  | handlerCancelled (attempt : ℕ)
  | commitTotal (attempt : ℕ) | checkItem (attempt i : ℕ) | commitItem (attempt i : ℕ)
  | commitAttemptFailed (attempt : ℕ) (error : String)
  | retryWait (attempt : ℕ) (error : String)
  | checkExecuted | commitReviewing | commitReviewLog | commitFinal | commitDoneLog | announceDone
  | queryCancelled | commitCancelled
  | queryFailed (error : String) | commitFailed (error : String) | commitFailLog (error : String)
  | returned | commitClear | finished
  deriving DecidableEq, Repr

/-- What the environment does at a step: let the code go on, or decide what the
handler does next, or cancel the asyncio task at an await. -/
inductive RunEvent where
  | go
  | progress (progress : ℤ) (message : String)
  | handlerReturn (result : WorkerResult)
  | handlerRaise (error : String)
  | interrupt
  deriving DecidableEq, Repr

/-- One `_run_claimed_task`: the claimed row, the worker, and the locals of `run_task`. -/
structure Run where
  taskId : ℕ
  owner : String
  uuid : String
  point : RunPoint := .query
  copy : Task
  orchestration : Orchestration := {}
  attempts : ℕ := 0
  result : WorkerResult := {}
  deriving DecidableEq, Repr

def TaskStatus.text : TaskStatus → String
  | .pending => "pending" | .leased => "leased" | .planning => "planning"
  | .running => "running" | .reviewing => "reviewing"
  | .cancelRequested => "cancel_requested" | .retryScheduled => "retry_scheduled"
  | .completed => "completed" | .partialSuccess => "partial_success"
  | .failed => "failed" | .cancelled => "cancelled"

/-- `_ensure_orchestration_params`; converting a malformed value raises. -/
def ensureOrchestrationParams (taskId : ℕ) (uuid : String) (params : Params) :
    Except String (Orchestration × Params) :=
  let complete (o : Orchestration) : Orchestration :=
    { traceId := some (o.traceId.getD ("task-" ++ toString taskId ++ "-" ++ uuid))
      maxRetries := o.maxRetries.setDefault 2
      planner := some (o.planner.getD "planner")
      router := some (o.router.getD "router")
      worker := some (o.worker.getD "worker")
      reviewer := some (o.reviewer.getD "reviewer") }
  match params.orchestration with
  | .invalid e => .error e
  | .absent => .ok (complete {}, { params with orchestration := .given (complete {}) })
  | .given o => .ok (complete o, { params with orchestration := .given (complete o) })

/-- `max(0, int(orchestration.get("max_retries", 2))) + 1`. -/
def attemptCount (o : Orchestration) : Except String ℕ :=
  match o.maxRetries with
  | .given n => .ok ((max 0 n).toNat + 1)
  | .absent => .ok 3
  | .invalid e => .error e

namespace Run

/-- A commit: `u` is flushed to the row and is already in the ORM copy. -/
def commit (r : Run) (u : TaskUpdate) (next : RunPoint) : Option (TaskUpdate × Run) :=
  some (u, { r with copy := u.apply r.copy, point := next })

/-- A step that touches no row. -/
def goto (r : Run) (next : RunPoint) : Option (TaskUpdate × Run) :=
  some ({}, { r with point := next })

/-- `_check_cancelled`: refresh the copy, then test its status. -/
def check (r : Run) (row : Option Task) (cancelled otherwise : RunPoint) :
    Option (TaskUpdate × Run) :=
  row.map fun t => ({}, { r with
    copy := t
    point := if t.status ∈ cancelStates then cancelled else otherwise })

/-- The assignment `_append_log` commits. -/
def appendLog (r : Run) (now : Time) (level message : String) (agent stage : Option String)
    (extra : Option LogExtra := none) : TaskUpdate :=
  { logs := some (r.copy.logs ++ [{ ts := now, level, message, agent, stage, extra }]) }

/-- The first point of the attempt's body, by task type. -/
def attemptBody (r : Run) (attempt : ℕ) : RunPoint :=
  if r.copy.taskType = "strm_generation" then .handler attempt else .commitTotal attempt

/-- The final status and message, from the handler's counts. -/
def finalUpdate (r : Run) (now : Time) : TaskUpdate :=
  if r.result.errors > 0 ∨ r.result.skipped > 0 then
    { status := some .partialSuccess
      errorMessage := some (some ("任务部分完成：errors=" ++ toString r.result.errors ++
        ", skipped=" ++ toString r.result.skipped))
      completedAt := some (some now)
      progress := some 100 }
  else
    { status := some .completed
      errorMessage := some none
      completedAt := some (some now)
      progress := some 100 }

/-- `run_task` from one database access to the next. -/
def runTask (now : Time) (row : Option Task) (r : Run) : Option (TaskUpdate × Run) :=
  let o := r.orchestration
  match r.point with
  | .query =>
      match row with
      | none => r.goto .returned
      | some t =>
          match ensureOrchestrationParams r.taskId r.uuid t.params with
          | .error e => some ({}, { r with copy := t, point := .queryFailed e })
          | .ok (o, params) =>
              some ({}, { r with
                copy := { t with params }
                orchestration := o
                point := .commitParams })
  | .commitParams => r.commit { params := some r.copy.params } .commitPlanning
  | .commitPlanning =>
      r.commit
        { startedAt := some (some now)
          status := some .planning
          progress := some 3
          totalItems := some r.copy.totalItems
          processedItems := some r.copy.processedItems } .commitPlanningLog
  | .commitPlanningLog =>
      r.commit (r.appendLog now "INFO" ("任务进入规划阶段，trace_id=" ++ o.traceId.getD "")
        o.planner (some "planning")) .checkPlanning
  | .checkPlanning => r.check row .returned .commitPlanLog
  | .commitPlanLog =>
      r.commit (r.appendLog now "INFO" "规划完成：['plan', 'route', 'execute', 'review']"
        o.planner (some "planning")) .commitPlanProgress
  | .commitPlanProgress => r.commit { progress := some 10 } .checkPlanned
  | .checkPlanned => r.check row .returned .commitRunning
  | .commitRunning => r.commit { status := some .running, progress := some 15 } .commitRouteLog
  | .commitRouteLog =>
      let target :=
        if r.copy.taskType = "strm_generation" then "media_organizer" else "generic_worker"
      r.commit (r.appendLog now "INFO" ("路由完成：" ++ r.copy.taskType ++ " -> " ++ target)
        o.router (some "routing")) .checkRouted
  | .checkRouted =>
      match attemptCount o with
      | .ok n => ({ r with attempts := n } : Run).check row .returned (.commitAttemptLog 1)
      | .error e => r.check row .returned (.queryFailed e)
  | .commitAttemptLog n =>
      r.commit (r.appendLog now "INFO"
        ("执行阶段开始，第 " ++ toString n ++ "/" ++ toString r.attempts ++ " 次尝试")
        o.worker (some "execution")) (r.attemptBody n)
  | .commitProgress n progress message =>
      r.commit { r.appendLog now "INFO" message o.worker (some "execution") with
        progress := some (max r.copy.progress (min 90 progress)) } (.checkProgress n)
  | .checkProgress n => r.check row (.handlerCancelled n) (.handler n)
  | .handlerCancelled _ => r.goto .queryCancelled
  | .commitTotal n => r.commit { totalItems := some 20 } (.checkItem n 1)
  | .checkItem n i => r.check row .queryCancelled (.commitItem n i)
  | .commitItem n i =>
      let u : TaskUpdate :=
        { processedItems := some (i : ℤ), progress := some (15 + ((i * 75 / 20 : ℕ) : ℤ)) }
      if i < 20 then r.commit u (.checkItem n (i + 1))
      else ({ r with result := { processed := 20, generated := 20 } } : Run).commit u .checkExecuted
  | .commitAttemptFailed n e =>
      r.commit (r.appendLog now "WARNING"
        ("执行失败（第 " ++ toString n ++ "/" ++ toString r.attempts ++ " 次）：" ++ e)
        o.worker (some "execution") (some (.retryIn (min (2 ^ n) 8)))) (.retryWait n e)
  | .retryWait n e =>
      if n < r.attempts then r.goto (.commitAttemptLog (n + 1)) else r.goto (.queryFailed e)
  | .checkExecuted => r.check row .returned .commitReviewing
  | .commitReviewing =>
      r.commit { status := some .reviewing, progress := some 95 } .commitReviewLog
  | .commitReviewLog =>
      r.commit (r.appendLog now "INFO" "进入审核阶段，校验执行结果" o.reviewer
        (some "reviewing") (some (.result r.result))) .commitFinal
  | .commitFinal => r.commit (r.finalUpdate now) .commitDoneLog
  | .commitDoneLog =>
      r.commit (r.appendLog now "INFO" ("任务结束，最终状态=" ++ r.copy.status.text)
        o.reviewer (some "done")) .announceDone
  | .announceDone => r.goto .returned
  | .queryCancelled => r.goto (if row.isSome then .commitCancelled else .returned)
  | .commitCancelled =>
      r.commit
        { status := some .cancelled
          completedAt := some (some now)
          errorMessage := some (some "Cancelled by user") } .returned
  | .queryFailed e => r.goto (if row.isSome then .commitFailed e else .returned)
  | .commitFailed e =>
      r.commit
        { status := some .failed
          errorMessage := some (some e)
          completedAt := some (some now) } (.commitFailLog e)
  | .commitFailLog e =>
      r.commit (r.appendLog now "ERROR" ("任务失败：" ++ e) none (some "failed")) .returned
  | .handler _ | .returned | .commitClear | .finished => none

/-- Where an asyncio cancellation delivered at the await before a point leads. The
handler's own `finally` still runs when the exception passes through it. Behind
`run_task` the worker awaits its heartbeat task: a cancellation there ends the run
without the clean-up. -/
def interrupted : RunPoint → Option RunPoint
  | .checkPlanning | .checkPlanned | .checkRouted | .commitTotal _ | .commitItem _ _
  | .retryWait _ _ | .commitFinal | .announceDone => some .queryCancelled
  | .handler n | .checkProgress n | .handlerCancelled n => some (.handlerCancelled n)
  | .returned => some .finished
  | _ => none

end Run

end SmartMedia.Platform
