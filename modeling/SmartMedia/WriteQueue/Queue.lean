import Mathlib.Data.List.Sort
import SmartMedia.Library.PartialRun
import SmartMedia.WriteQueue.Session

/-!
# `AsyncWriteQueue`

`app/core/db_write_queue.py`. Tasks are objects that the heap, the merge cache and the
workers share: they live in `objects` in creation order and are passed by index, which
also stands for `task_id`. The heap is listed in the order in which `heappop` hands it
out. A worker's pop, the end of its collecting and each of its model groups are steps of
their own; what a callback raises is only logged and leaves no trace. Times are left out.
-/
namespace SmartMedia.WriteQueue

universe u

variable {V : Type u} [DecidableEq V]

/-- The fields after `maxRetries` record what happened to the task. -/
structure WriteTask (V : Type u) where
  priority : ℤ
  sequence : ℕ
  write : Write V
  callback : Bool
  retryCount : ℕ := 0
  maxRetries : ℕ := 3
  /-- What was submitted, merged data included. -/
  accepted : Write V
  enqueued : Bool := false
  attempts : ℕ := 0
  /-- The write as the last execution found it. -/
  executed : Write V := accepted
  completed : ℕ := 0
  failed : ℕ := 0
  /-- The writes of the task that were committed. -/
  commits : List (Write V) := []
  /-- The calls of the callback; `none` is a success, `some` an error text. -/
  told : List (Option String) := []

namespace WriteTask

/-- `callback(success, error)`, for a task that has one. -/
def tell (t : WriteTask V) (result : Option String) : WriteTask V :=
  { t with told := if t.callback then t.told ++ [result] else t.told }

def succeed (t : WriteTask V) : WriteTask V := { t with completed := t.completed + 1 }.tell none

def fail (t : WriteTask V) (error : String) : WriteTask V :=
  { t with failed := t.failed + 1 }.tell (some error)

/-- `old_task.data.update(data)`. -/
def merge (t : WriteTask V) (data : Data V) : WriteTask V :=
  { t with
    write := { t.write with data := data ∪ t.write.data }
    accepted := { t.accepted with data := data ∪ t.accepted.data }
    retryCount := 0 }

/-- An execution may have changed the task's own write. -/
def attempt (t : WriteTask V) (write : Write V) : WriteTask V :=
  { t with write := write, executed := t.write, attempts := t.attempts + 1 }

def commit (t : WriteTask V) : WriteTask V := { t with commits := t.commits ++ [t.executed] }

def countRetry (t : WriteTask V) : WriteTask V := { t with retryCount := t.retryCount + 1 }

def raisePriority (t : WriteTask V) : WriteTask V :=
  { t with priority := min t.priority (-WritePriority.high.value) }

/-- The order of the dataclass: `(priority, sequence)`. -/
def before (a b : WriteTask V) : Bool :=
  a.priority < b.priority || a.priority = b.priority && a.sequence ≤ b.sequence

end WriteTask

/-- `WriteQueueMetrics` without the two sums of times. -/
structure WriteQueueMetrics where
  totalTasks : ℕ := 0
  completedTasks : ℕ := 0
  failedTasks : ℕ := 0
  currentQueueSize : ℕ := 0
  peakQueueSize : ℕ := 0
  batchWrites : ℕ := 0
  mergedWrites : ℕ := 0
  deriving DecidableEq, Repr

/-- Where a thread stands in `_worker_loop`. -/
inductive Worker
  /-- At the test of `_running`. -/
  | looping
  | collecting (tasks : List ℕ)
  | executing (groups : List (String × List ℕ))
  | stopped
  deriving DecidableEq, Repr

/-- The tasks a worker has in hand. -/
def Worker.tasks : Worker → List ℕ
  | .looping => []
  | .collecting tasks => tasks
  | .executing groups => groups.flatMap Prod.snd
  | .stopped => []

structure AsyncWriteQueue (V : Type u) where
  maxQueueSize : ℕ := 10000
  batchSize : ℕ := 100
  maxWorkers : ℕ := 2
  objects : List (WriteTask V) := []
  queue : List ℕ := []
  mergeCache : List (String × ℕ) := []
  metrics : WriteQueueMetrics := {}
  running : Bool := false
  workers : List Worker := []
  db : String → Table V := fun _ => ∅

/-- The arguments of `submit`. -/
structure Submission (V : Type u) where
  write : Write V
  priority : WritePriority := .normal
  callback : Bool := false
  mergeKey : Option String := none

namespace Submission

/-- The merge key, where it is truthy. -/
def key (sub : Submission V) : Option String := sub.mergeKey.filter (· ≠ "")

def task (sub : Submission V) (sequence : ℕ) : WriteTask V where
  priority := -sub.priority.value
  sequence := sequence
  write := sub.write
  callback := sub.callback
  accepted := sub.write

end Submission

/-- The dictionary `grouped` after one more task. -/
def addToGroup (model : String) (i : ℕ) : List (String × List ℕ) → List (String × List ℕ)
  | [] => [(model, [i])]
  | (m, is) :: rest =>
      if m = model then (m, is ++ [i]) :: rest else (m, is) :: addToGroup model i rest

namespace AsyncWriteQueue

/-- Write to the task object `i`. -/
def modify (q : AsyncWriteQueue V) (i : ℕ) (f : WriteTask V → WriteTask V) : AsyncWriteQueue V :=
  { q with objects := q.objects.modify i f }

/-- The order of two objects in the heap. -/
def before (q : AsyncWriteQueue V) (i j : ℕ) : Bool :=
  match q.objects[i]?, q.objects[j]? with
  | some a, some b => a.before b
  | _, _ => false

/-- `heapq.heappush(self._queue, task)`. -/
def push (q : AsyncWriteQueue V) (i : ℕ) : AsyncWriteQueue V :=
  { q with queue := q.queue.orderedInsert (fun a b => q.before a b) i }

/-- The end of `submit`: into the heap, unless it is full. -/
def enqueue (q : AsyncWriteQueue V) (i : ℕ) : AsyncWriteQueue V × Except String ℕ :=
  if q.maxQueueSize ≤ q.queue.length then (q, .error "Write queue is full")
  else
    let q := (q.modify i fun t => { t with enqueued := true }).push i
    let size := q.queue.length
    ({ q with metrics := { q.metrics with
        totalTasks := q.metrics.totalTasks + 1
        currentQueueSize := size
        peakQueueSize := max q.metrics.peakQueueSize size } }, .ok i)

/-- The absorption of a submit into the cached task `j`. -/
def mergeInto (q : AsyncWriteQueue V) (j : ℕ) (data : Data V) : AsyncWriteQueue V :=
  { q.modify j fun t => t.merge data with
    metrics := { q.metrics with mergedWrites := q.metrics.mergedWrites + 1 } }

/-- `submit`, with what it returns or raises. -/
def submit (q : AsyncWriteQueue V) (sub : Submission V) : AsyncWriteQueue V × Except String ℕ :=
  if q.running then
    let i := q.objects.length
    let q := { q with objects := q.objects ++ [sub.task (i + 1)] }
    match sub.key with
    | none => q.enqueue i
    | some key =>
        match q.mergeCache.lookup key with
        | some j => (q.mergeInto j sub.write.data, .ok j)
        | none => { q with mergeCache := q.mergeCache ++ [(key, i)] }.enqueue i
  else (q, .error "Write queue is not running")

/-- The grouping loop of `_execute_batch`. -/
def groupTask (q : AsyncWriteQueue V) (groups : List (String × List ℕ)) (i : ℕ) :
    List (String × List ℕ) :=
  match q.objects[i]? with
  | none => groups
  | some t => addToGroup t.write.modelClass i groups

def grouped (q : AsyncWriteQueue V) (tasks : List ℕ) : List (String × List ℕ) :=
  tasks.foldl q.groupTask []

/-- A final failure of task `i`. -/
def failTask (q : AsyncWriteQueue V) (i : ℕ) (error : String) : AsyncWriteQueue V :=
  { q.modify i fun t => t.fail error with
    metrics := { q.metrics with failedTasks := q.metrics.failedTasks + 1 } }

/-- A success of task `i`, reported before the commit. -/
def completeTask (q : AsyncWriteQueue V) (i : ℕ) : AsyncWriteQueue V :=
  { q.modify i fun t => t.succeed with
    metrics := { q.metrics with completedTasks := q.metrics.completedTasks + 1 } }

/-- `_retry_task`. -/
def retryTask (q : AsyncWriteQueue V) (i : ℕ) (error : String) : AsyncWriteQueue V :=
  let q := q.modify i WriteTask.countRetry
  match q.objects[i]? with
  | none => q
  | some t =>
      if t.maxRetries ≤ t.retryCount then q.failTask i error
      else (q.modify i WriteTask.raisePriority).push i

/-- One turn of the loop of `_execute_model_batch`. -/
def runTask (models : Models V) (q : AsyncWriteQueue V) (s : Session V) (i : ℕ)
    (fault : Option Fault) : AsyncWriteQueue V × Session V :=
  match q.objects[i]? with
  | none => (q, s)
  | some t =>
      let a := executeSingleTask models i t.write fault s
      let q := q.modify i fun t => t.attempt a.write
      match a.error with
      | none => (q.completeTask i, a.session)
      | some e => (q.retryTask i e, a.session)

/-- The loop of `_execute_model_batch`; `faults` says which turn meets which fault. -/
def runTasks (models : Models V) :
    AsyncWriteQueue V → Session V → List ℕ → List (Option Fault) → AsyncWriteQueue V × Session V
  | q, s, [], _ => (q, s)
  | q, s, i :: is, faults =>
      let out := runTask models q s i (faults.headD none)
      runTasks models out.1 out.2 is faults.tail

/-- The writes of these tasks are in the database. -/
def markCommitted (q : AsyncWriteQueue V) (is : List ℕ) : AsyncWriteQueue V :=
  is.foldl (fun q i => q.modify i WriteTask.commit) q

def setTable (q : AsyncWriteQueue V) (model : String) (table : Table V) : AsyncWriteQueue V :=
  { q with db := Function.update q.db model table }

/-- `_retry_task` for every task of a group. -/
def retryTasks (q : AsyncWriteQueue V) (is : List ℕ) (error : String) : AsyncWriteQueue V :=
  is.foldl (fun q i => q.retryTask i error) q

/-- The exit of the session context, and the handler of `_execute_batch` when its commit
raises. -/
def closeSession (models : Models V) (q : AsyncWriteQueue V) (s : Session V) (model : String)
    (is : List ℕ) (commitFault : Option String) : AsyncWriteQueue V :=
  match s.commit models commitFault with
  | .ok table =>
      let q := (q.markCommitted (s.committed ++ s.held)).setTable model table
      { q with metrics := { q.metrics with currentQueueSize := q.queue.length } }
  | .error e => ((q.markCommitted s.committed).setTable model s.start).retryTasks is e

/-- `_execute_model_batch`. -/
def executeModelBatch (models : Models V) (q : AsyncWriteQueue V) (model : String) (is : List ℕ)
    (faults : List (Option Fault)) (commitFault : Option String) : AsyncWriteQueue V :=
  if models.registered model then
    let out := runTasks models q (Session.begin (q.db model)) is faults
    closeSession models out.1 out.2 model is commitFault
  else is.foldl (fun q i => q.failTask i ("Model not registered: " ++ model)) q

end AsyncWriteQueue

/-- The atomic steps. -/
inductive Action (V : Type u)
  | start
  | stop
  | clear
  | submit (sub : Submission V)
  /-- A worker tests `_running`. -/
  | enter (k : ℕ)
  /-- A worker pops a task. -/
  | pop (k : ℕ)
  /-- A worker has its batch. -/
  | startBatch (k : ℕ)
  /-- A worker executes the next model group of its batch. -/
  | runGroup (k : ℕ) (faults : List (Option Fault)) (commitFault : Option String)

namespace AsyncWriteQueue

def setWorker (q : AsyncWriteQueue V) (k : ℕ) (w : Worker) : AsyncWriteQueue V :=
  { q with workers := q.workers.set k w }

/-- `start`. -/
def startWorkers (q : AsyncWriteQueue V) : AsyncWriteQueue V :=
  if q.running then q
  else { q with running := true, workers := q.workers ++ List.replicate q.maxWorkers .looping }

/-- `clear`. -/
def clearQueue (q : AsyncWriteQueue V) : AsyncWriteQueue V :=
  { q with queue := [], mergeCache := [], metrics := { q.metrics with currentQueueSize := 0 } }

/-- A worker takes the first task of the heap, which leaves the merge cache. -/
def popTask (q : AsyncWriteQueue V) (k : ℕ) (tasks : List ℕ) : Option (AsyncWriteQueue V) :=
  match q.queue with
  | [] => none
  | i :: rest =>
      if tasks.length < q.batchSize then
        some { q.setWorker k (.collecting (tasks ++ [i])) with
          queue := rest
          mergeCache := q.mergeCache.filter fun e => e.2 ≠ i }
      else none

/-- A worker goes on after a model group. -/
def afterGroup (q : AsyncWriteQueue V) (k : ℕ) (rest : List (String × List ℕ)) : AsyncWriteQueue V :=
  match rest with
  | [] =>
      { q.setWorker k .looping with
        metrics := { q.metrics with batchWrites := q.metrics.batchWrites + 1 } }
  | _ => q.setWorker k (.executing rest)

def step (models : Models V) (q : AsyncWriteQueue V) : Action V → Option (AsyncWriteQueue V)
  | .start => some q.startWorkers
  | .stop => some { q with running := false }
  | .clear => some q.clearQueue
  | .submit sub => some (q.submit sub).1
  | .enter k =>
      match q.workers[k]? with
      | some .looping => some (q.setWorker k (if q.running then .collecting [] else .stopped))
      | _ => none
  | .pop k =>
      match q.workers[k]? with
      | some (.collecting tasks) => q.popTask k tasks
      | _ => none
  | .startBatch k =>
      match q.workers[k]? with
      | some (.collecting []) => some (q.setWorker k .looping)
      | some (.collecting tasks) => some (q.setWorker k (.executing (q.grouped tasks)))
      | _ => none
  | .runGroup k faults commitFault =>
      match q.workers[k]? with
      | some (.executing ((model, is) :: rest)) =>
          some ((q.executeModelBatch models model is faults commitFault).afterGroup k rest)
      | _ => none

/-- The singleton before `start`. -/
def initial (maxQueueSize batchSize maxWorkers : ℕ) (db : String → Table V) :
    AsyncWriteQueue V where
  maxQueueSize := maxQueueSize
  batchSize := batchSize
  maxWorkers := maxWorkers
  db := db

end AsyncWriteQueue

end SmartMedia.WriteQueue
