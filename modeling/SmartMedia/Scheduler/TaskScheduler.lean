import SmartMedia.Library.Calendar

/-!
# Recurring tasks

`app/services/platform/task_scheduler.py`: when a task runs next. `now` is what `datetime.now()`
returns, and an `OverflowError` leaves the task as it is at that statement.
-/
namespace SmartMedia.Scheduler
open Calendar

inductive TaskStatus
  | pending
  | running
  | completed
  | failed
  | stopped
deriving DecidableEq, Repr

inductive TaskMode
  | strmCreation
  | strmValidationQuick
  | strmValidationSlow
deriving DecidableEq, Repr

inductive IntervalType
  | minute
  | hourly
  | daily
  | weekly
  | monthly
deriving DecidableEq, Repr

/-- The interval type is missing if it is another word than the five. -/
structure Task where
  mode : TaskMode
  enabled : Bool := true
  status : TaskStatus := .pending
  intervalType : Option IntervalType
  intervalValue : ℤ
  lastRun : Option DateTime := none
  nextRun : Option DateTime := none
  errorMessage : Option String := none
deriving DecidableEq

/-- The ordinal of the last day of the year 9999. -/
def maxOrdinal : ℕ := 3652059

/-- A `datetime` and a `timedelta` added, if the sum is a `datetime`. -/
def add (moment : DateTime) (delta : ℤ) : Option DateTime :=
  if (microsPerDay : ℤ) ≤ moment.micros + delta ∧
      moment.micros + delta < (maxOrdinal + 1) * microsPerDay then
    some (ofMicros (moment.micros + delta).toNat)
  else none

/-- `replace(minute=0, second=0, microsecond=0)` -/
def hourOf (now : DateTime) : DateTime := ⟨now.date, { hour := now.time.hour, hour_lt := now.time.hour_lt }⟩

/-- `replace(hour=0, minute=0, second=0, microsecond=0)` -/
def midnightOf (now : DateTime) : DateTime := ⟨now.date, {}⟩

def firstMidnightOf (now : DateTime) : DateTime := ⟨now.date.firstOfMonth, {}⟩

namespace Task

/-- `self.next_run = start`, then `self.next_run += delta`. -/
def advanceFrom (task : Task) (start : DateTime) (delta : ℤ) : Except Task Task :=
  match add start delta with
  | some nextRun => .ok { task with nextRun := some nextRun }
  | none => .error { task with nextRun := some start }

def calculateNextRun (task : Task) (now : DateTime) : Except Task Task :=
  match task.intervalType with
  | some .minute =>
      match add now (task.intervalValue * 60000000) with
      | some nextRun => .ok { task with nextRun := some nextRun }
      | none => .error task
  | some .hourly => task.advanceFrom (hourOf now) (task.intervalValue * 3600000000)
  | some .daily => task.advanceFrom (midnightOf now) (task.intervalValue * microsPerDay)
  | some .weekly =>
      let daysAhead := (task.intervalValue - now.date.weekday) % 7
      task.advanceFrom (midnightOf now) (daysAhead * microsPerDay)
  | some .monthly => do
      let task ← task.advanceFrom (firstMidnightOf now) (32 * task.intervalValue * microsPerDay)
      return { task with nextRun := task.nextRun.map fun sum => ⟨sum.date.firstOfMonth, sum.time⟩ }
  | none => .ok { task with nextRun := none }

def shouldRun (task : Task) (now : DateTime) : Bool :=
  task.enabled && task.nextRun.any fun nextRun => nextRun ≤ now

/-- `run`, with the times at which it begins and ends and the text of an exception of the handler. -/
def run (task : Task) (started finished : DateTime) (failure : Option String) : Except Task Task :=
  if task.status = .running then .ok task
  else
    { task with
      status := if failure.isSome then .failed else .completed
      lastRun := some started
      errorMessage := failure }.calculateNextRun finished

end Task

/-- The tasks that a turn of `_scheduler_loop` starts; `handlers` has the modes with a handler. -/
def startedAt (handlers : List TaskMode) (tasks : List Task) (now : DateTime) : List Task :=
  tasks.filter fun task => task.shouldRun now && task.mode ∈ handlers

end SmartMedia.Scheduler
