import Mathlib.Data.List.Count
import SmartMedia.Library.PartialRun
import SmartMedia.Scheduler.NextRun

/-!
# Runs of recurring tasks side by side

The `TaskScheduler` of `app/services/platform/task_scheduler.py`, with any number of calls of
`run` at work. A call gives way only while its handler is awaited, so the parts of `run` before
and behind the handler are the atomic steps. Tasks are numbered in the order in which they are
made, and a call keeps its task when that is deleted. The history variables list the tasks that
a `stop` has found running, `interrupted`, and those whose handler has been cancelled, `abandoned`.
-/
namespace SmartMedia.Scheduler
open Calendar

namespace Task

/-- `run` up to its handler. -/
def begin (task : Task) (now : DateTime) : Task :=
  { task with status := .running, lastRun := some now, errorMessage := none }

/-- The task that a statement leaves behind, whether or not it raises. -/
def left : Except Task Task → Task
  | .ok task => task
  | .error task => task

/-- `run` behind its handler, with the text of an exception of the handler. -/
def finish (task : Task) (now : DateTime) (failure : Option String) : Task :=
  left ({ task with
    status := if failure.isSome then .failed else .completed
    errorMessage := failure <|> task.errorMessage }.calculateNextRun now)

/-- The handler has been cancelled: `CancelledError` is no `Exception`. -/
def giveUp (task : Task) (now : DateTime) : Task := left (task.calculateNextRun now)

def stop (task : Task) : Task := { task with enabled := false, status := .stopped }

/-- The assignments of `update_task`. -/
def update (task : Task) (intervalType : Option (Option IntervalType)) (intervalValue : Option ℤ)
    (enabled : Option Bool) (now : DateTime) : Task :=
  left ({ task with
    intervalType := intervalType.getD task.intervalType
    intervalValue := intervalValue.getD task.intervalValue
    enabled := enabled.getD task.enabled }.calculateNextRun now)

variable {task : Task} {now : DateTime}

theorem left_advanceFrom (start : DateTime) (delta : ℤ) :
    (left (task.advanceFrom start delta)).status = task.status := by
  rw [advanceFrom]
  cases add start delta <;> rfl

theorem left_calculateNextRun : (left (task.calculateNextRun now)).status = task.status := by
  rw [calculateNextRun]
  cases task.intervalType with
  | none => rfl
  | some kind =>
      cases kind with
      | minute =>
          dsimp only
          cases add now (task.intervalValue * 60000000) <;> rfl
      | hourly => exact left_advanceFrom _ _
      | daily => exact left_advanceFrom _ _
      | weekly => exact left_advanceFrom _ _
      | monthly =>
          have hadvance : (left (task.advanceFrom (firstMidnightOf now)
              (32 * task.intervalValue * microsPerDay))).status = task.status := left_advanceFrom _ _
          dsimp only
          cases hsum : task.advanceFrom (firstMidnightOf now)
              (32 * task.intervalValue * microsPerDay) with
          | ok advanced =>
              rw [hsum] at hadvance
              exact hadvance
          | error advanced =>
              rw [hsum] at hadvance
              exact hadvance

@[simp] theorem begin_status : (task.begin now).status = .running := rfl

@[simp] theorem stop_status : task.stop.status = .stopped := rfl

@[simp] theorem finish_status (failure : Option String) :
    (task.finish now failure).status = if failure.isSome then .failed else .completed :=
  left_calculateNextRun

@[simp] theorem giveUp_status : (task.giveUp now).status = task.status := left_calculateNextRun

@[simp] theorem update_status (intervalType : Option (Option IntervalType))
    (intervalValue : Option ℤ) (enabled : Option Bool) :
    (task.update intervalType intervalValue enabled now).status = task.status :=
  left_calculateNextRun

/-- A call of `run` with nothing else at work has the two parts. -/
theorem left_run (started finished : DateTime) (failure : Option String)
    (h : task.status ≠ .running) :
    left (task.run started finished failure) = (task.begin started).finish finished failure := by
  rw [run, if_neg h, finish, begin]
  cases failure <;> rfl

end Task

/-- The scheduler, the tasks made so far and the calls of `run`. -/
structure TaskScheduler where
  tasks : List Task := []
  registered : List ℕ := []
  handlers : List TaskMode := []
  active : Bool := false
  waiting : List ℕ := []
  handling : List ℕ := []
  interrupted : List ℕ := []
  abandoned : List ℕ := []
  deriving DecidableEq

/-- `begins` and `drop` are about a call that `create_task` has left waiting, `finish` and
`cancel` about one whose handler is awaited. -/
inductive Event
  | registerHandler (mode : TaskMode)
  | addTask (mode : TaskMode) (intervalType : Option IntervalType) (intervalValue : ℤ)
      (enabled : Bool) (now : DateTime)
  | updateTask (i : ℕ) (intervalType : Option (Option IntervalType)) (intervalValue : Option ℤ)
      (enabled : Option Bool) (now : DateTime)
  | deleteTask (i : ℕ)
  | runTaskImmediately (i : ℕ) (now : DateTime)
  | turn (now : DateTime)
  | begins (i : ℕ) (now : DateTime)
  | drop (i : ℕ)
  | finish (i : ℕ) (now : DateTime) (failure : Option String)
  | cancel (i : ℕ) (now : DateTime)
  | start
  | stop

namespace TaskScheduler
variable (s : TaskScheduler) (i j : ℕ) (now : DateTime)

def statusOf : Option TaskStatus := (s.tasks[i]?).map Task.status

def modifyTask (f : Task → Task) : TaskScheduler := { s with tasks := s.tasks.modify i f }

def handlerOf : Bool := (s.tasks[i]?).any fun task => task.mode ∈ s.handlers

def isDue : Bool := (s.tasks[i]?).any fun task => task.shouldRun now && task.mode ∈ s.handlers

/-- A call of `run` up to its handler. -/
def runTask : TaskScheduler :=
  match s.tasks[i]? with
  | none => s
  | some task =>
      if task.status = .running then s
      else { s.modifyTask i (·.begin now) with handling := i :: s.handling }

/-- `stop` of a task. -/
def stopTask : TaskScheduler :=
  { s.modifyTask i Task.stop with
    interrupted := if s.statusOf i = some .running then i :: s.interrupted else s.interrupted }

/-- `stop` of the tasks of a list. -/
def stopTasks (s : TaskScheduler) : List ℕ → TaskScheduler
  | [] => s
  | i :: rest => stopTasks (s.stopTask i) rest

/-- The constructor of a task. -/
def makeTask (mode : TaskMode) (intervalType : Option IntervalType) (intervalValue : ℤ)
    (enabled : Bool) (now : DateTime) : Except Task Task :=
  Task.calculateNextRun { mode, enabled, intervalType, intervalValue } now

def step (s : TaskScheduler) : Event → Option TaskScheduler
  | .registerHandler mode => some { s with handlers := mode :: s.handlers }
  | .addTask mode intervalType intervalValue enabled now =>
      match makeTask mode intervalType intervalValue enabled now with
      | .error _ => some s
      | .ok task => some { s with
          tasks := s.tasks ++ [task], registered := s.registered ++ [s.tasks.length] }
  | .updateTask i intervalType intervalValue enabled now =>
      if i ∈ s.registered then
        some (s.modifyTask i (·.update intervalType intervalValue enabled now))
      else some s
  | .deleteTask i =>
      if i ∈ s.registered then
        some { s.stopTask i with registered := s.registered.erase i }
      else some s
  | .runTaskImmediately i now =>
      if i ∈ s.registered ∧ s.handlerOf i then some (s.runTask i now) else some s
  | .turn now =>
      if s.active then
        some { s with waiting := s.waiting ++ s.registered.filter (s.isDue · now) }
      else none
  | .begins i now =>
      if i ∈ s.waiting then some { s.runTask i now with waiting := s.waiting.erase i } else none
  | .drop i => if i ∈ s.waiting then some { s with waiting := s.waiting.erase i } else none
  | .finish i now failure =>
      if i ∈ s.handling then
        some { s.modifyTask i (·.finish now failure) with handling := s.handling.erase i }
      else none
  | .cancel i now =>
      if i ∈ s.handling then
        some { s.modifyTask i (·.giveUp now) with
          handling := s.handling.erase i, abandoned := i :: s.abandoned }
      else none
  | .start => some { s with active := true }
  | .stop => some (if s.active then { s.stopTasks s.registered with active := false } else s)

/-- Whether the status of a task is `running`, as a number. -/
def runs : ℕ := if s.statusOf i = some .running then 1 else 0

/-- The event is a `stop` of the task. -/
def Stops (s : TaskScheduler) (i : ℕ) : Event → Prop
  | .deleteTask j => j = i ∧ i ∈ s.registered
  | .stop => s.active = true ∧ i ∈ s.registered
  | _ => False

instance (s : TaskScheduler) (i : ℕ) : DecidablePred (s.Stops i)
  | .deleteTask _ => inferInstanceAs (Decidable (_ ∧ _))
  | .stop => inferInstanceAs (Decidable (_ ∧ _))
  | .registerHandler _ | .addTask .. | .updateTask .. | .runTaskImmediately .. | .turn _
  | .begins .. | .drop _ | .finish .. | .cancel .. | .start => inferInstanceAs (Decidable False)

/-- All that a step can do to one task. -/
inductive Change (i : ℕ) (s : TaskScheduler) (e : Event) (s' : TaskScheduler) : Prop
  | kept (hruns : s'.runs i = s.runs i) (hhandling : s'.handling.count i = s.handling.count i)
      (hinterrupted : s'.interrupted.count i = s.interrupted.count i)
      (habandoned : s'.abandoned.count i = s.abandoned.count i)
  | began (hidle : s.runs i = 0) (hruns : s'.runs i = 1)
      (hhandling : s'.handling.count i = s.handling.count i + 1)
      (hinterrupted : s'.interrupted.count i = s.interrupted.count i)
      (habandoned : s'.abandoned.count i = s.abandoned.count i)
  | stopped (hevent : s.Stops i e) (hruns : s'.runs i = 0)
      (hhandling : s'.handling.count i = s.handling.count i)
      (hinterrupted : s'.interrupted.count i = s.interrupted.count i + s.runs i)
      (habandoned : s'.abandoned.count i = s.abandoned.count i)
  | ended (hruns : s'.runs i = 0) (hhandling : s'.handling.count i + 1 = s.handling.count i)
      (hinterrupted : s'.interrupted.count i = s.interrupted.count i)
      (habandoned : s'.abandoned.count i = s.abandoned.count i)
  | gaveUp (hruns : s'.runs i = s.runs i) (hhandling : s'.handling.count i + 1 = s.handling.count i)
      (hinterrupted : s'.interrupted.count i = s.interrupted.count i)
      (habandoned : s'.abandoned.count i = s.abandoned.count i + 1)

section Views
variable {s i j now} {f : Task → Task} {e : Event} {s' : TaskScheduler}

theorem statusOf_modify_ne (h : j ≠ i) : (s.modifyTask j f).statusOf i = s.statusOf i := by
  rw [statusOf, statusOf, modifyTask]
  dsimp only
  rw [List.getElem?_modify_ne f s.tasks h]

theorem statusOf_modify_self : (s.modifyTask i f).statusOf i = (s.tasks[i]?).map fun task => (f task).status := by
  rw [statusOf, modifyTask]
  dsimp only
  rw [List.getElem?_modify_eq]
  cases s.tasks[i]? <;> rfl

/-- Statements that leave the status of a task alone. -/
theorem runs_modify (hf : ∀ task, (f task).status = task.status) :
    (s.modifyTask j f).runs i = s.runs i := by
  rw [runs, runs]
  by_cases h : j = i
  · rw [h, statusOf_modify_self, statusOf]
    simp only [hf]
  · rw [statusOf_modify_ne h]

theorem runs_modify_ne (h : j ≠ i) : (s.modifyTask j f).runs i = s.runs i := by
  rw [runs, runs, statusOf_modify_ne h]

/-- Statements after which a task is not running. -/
theorem runs_modify_zero (hf : ∀ task, (f task).status ≠ .running) : (s.modifyTask i f).runs i = 0 := by
  rw [runs, if_neg]
  rw [statusOf_modify_self]
  cases s.tasks[i]? with
  | none => simp
  | some task => simpa using hf task

theorem runs_congr (h : s'.tasks = s.tasks) : s'.runs i = s.runs i := by
  rw [runs, runs, statusOf, statusOf, h]

/-- A step that is about no call of `run`. -/
theorem Change.of_tasks (htasks : s'.runs i = s.runs i) (hhandling : s'.handling = s.handling)
    (hinterrupted : s'.interrupted = s.interrupted) (habandoned : s'.abandoned = s.abandoned) :
    Change i s e s' :=
  .kept htasks (by rw [hhandling]) (by rw [hinterrupted]) (by rw [habandoned])

/-- What is not counted may differ. -/
theorem Change.congr {t : TaskScheduler} (h : Change i s e t) (htasks : s'.tasks = t.tasks)
    (hhandling : s'.handling = t.handling) (hinterrupted : s'.interrupted = t.interrupted)
    (habandoned : s'.abandoned = t.abandoned) : Change i s e s' := by
  have hruns : s'.runs i = t.runs i := runs_congr htasks
  cases h with
  | kept hr hh hi ha => exact .kept (hruns.trans hr) (hhandling ▸ hh) (hinterrupted ▸ hi) (habandoned ▸ ha)
  | began hidle hr hh hi ha =>
      exact .began hidle (hruns.trans hr) (hhandling ▸ hh) (hinterrupted ▸ hi) (habandoned ▸ ha)
  | stopped hevent hr hh hi ha =>
      exact .stopped hevent (hruns.trans hr) (hhandling ▸ hh) (hinterrupted ▸ hi) (habandoned ▸ ha)
  | ended hr hh hi ha => exact .ended (hruns.trans hr) (hhandling ▸ hh) (hinterrupted ▸ hi) (habandoned ▸ ha)
  | gaveUp hr hh hi ha => exact .gaveUp (hruns.trans hr) (hhandling ▸ hh) (hinterrupted ▸ hi) (habandoned ▸ ha)

theorem Change.runTask (now : DateTime) : Change i s e (s.runTask j now) := by
  rw [TaskScheduler.runTask]
  cases htask : s.tasks[j]? with
  | none => exact .of_tasks rfl rfl rfl rfl
  | some task =>
      dsimp only
      split_ifs with hstatus
      · exact .of_tasks rfl rfl rfl rfl
      · by_cases h : j = i
        · subst h
          refine .began ?_ ?_ List.count_cons_self rfl rfl
          · rw [runs, statusOf, htask, if_neg (by simpa using hstatus)]
          · rw [runs, if_pos]
            exact (statusOf_modify_self (f := (·.begin now))).trans (by rw [htask]; rfl)
        · exact .kept (runs_modify_ne h) (List.count_cons_of_ne h) rfl rfl

/-- What `stop` does to the tasks of a list. -/
theorem stopTasks_counts (l : List ℕ) : (s.stopTasks l).handling = s.handling ∧
    (s.stopTasks l).abandoned = s.abandoned ∧
      (i ∉ l ∧ (s.stopTasks l).runs i = s.runs i ∧
        (s.stopTasks l).interrupted.count i = s.interrupted.count i ∨
      i ∈ l ∧ (s.stopTasks l).runs i = 0 ∧
        (s.stopTasks l).interrupted.count i = s.interrupted.count i + s.runs i) := by
  induction l generalizing s with
  | nil => exact ⟨rfl, rfl, .inl ⟨List.not_mem_nil, rfl, rfl⟩⟩
  | cons j rest ih =>
      obtain ⟨hhandling, habandoned, hcounts⟩ := ih (s := s.stopTask j)
      refine ⟨hhandling, habandoned, ?_⟩
      rw [stopTasks]
      by_cases hji : j = i
      · subst hji
        have hzero : (s.stopTask j).runs j = 0 := runs_modify_zero fun task => by simp
        have hinterrupted : (s.stopTask j).interrupted.count j = s.interrupted.count j + s.runs j := by
          rw [stopTask, runs]
          dsimp only
          split_ifs
          · exact List.count_cons_self
          · rfl
        right
        refine ⟨List.mem_cons_self, ?_⟩
        rcases hcounts with ⟨-, hruns, hcount⟩ | ⟨-, hruns, hcount⟩
        · exact ⟨hruns.trans hzero, hcount.trans hinterrupted⟩
        · exact ⟨hruns, by rw [hcount, hzero, hinterrupted, Nat.add_zero]⟩
      · have hruns' : (s.stopTask j).runs i = s.runs i := runs_modify_ne hji
        have hinterrupted : (s.stopTask j).interrupted.count i = s.interrupted.count i := by
          rw [stopTask]
          dsimp only
          split_ifs
          · exact List.count_cons_of_ne hji
          · rfl
        rw [hruns', hinterrupted] at hcounts
        rcases hcounts with ⟨hmem, hrest⟩ | ⟨hmem, hrest⟩
        · exact .inl ⟨by simpa [Ne.symm hji] using hmem, hrest⟩
        · exact .inr ⟨List.mem_cons_of_mem j hmem, hrest⟩

theorem Change.stopTasks {l : List ℕ} (hstops : i ∈ l → s.Stops i e) :
    Change i s e (s.stopTasks l) := by
  obtain ⟨hhandling, habandoned, ⟨-, hruns, hcount⟩ | ⟨hmem, hruns, hcount⟩⟩ :=
    stopTasks_counts (s := s) (i := i) l
  · exact .kept hruns (by rw [hhandling]) hcount (by rw [habandoned])
  · exact .stopped (hstops hmem) hruns (by rw [hhandling]) hcount (by rw [habandoned])

/-- A call behind its handler. -/
theorem Change.finish (hmem : j ∈ s.handling) (failure : Option String) :
    Change i s e { s.modifyTask j (·.finish now failure) with handling := s.handling.erase j } := by
  by_cases h : j = i
  · subst h
    refine .ended (runs_modify_zero fun task => ?_) ?_ rfl rfl
    · rw [Task.finish_status]
      split_ifs <;> simp
    · have hpos := List.count_pos_iff.mpr hmem
      dsimp only
      rw [List.count_erase_self]
      omega
  · exact .kept (runs_modify_ne h) (List.count_erase_of_ne (Ne.symm h)) rfl rfl

theorem Change.cancel (hmem : j ∈ s.handling) : Change i s e { s.modifyTask j (·.giveUp now) with
    handling := s.handling.erase j, abandoned := j :: s.abandoned } := by
  have hruns : (s.modifyTask j (·.giveUp now)).runs i = s.runs i :=
    runs_modify fun task => Task.giveUp_status
  by_cases h : j = i
  · subst h
    refine .gaveUp hruns ?_ rfl List.count_cons_self
    have hpos := List.count_pos_iff.mpr hmem
    dsimp only
    rw [List.count_erase_self]
    omega
  · exact .kept hruns (List.count_erase_of_ne (Ne.symm h)) rfl (List.count_cons_of_ne h)

theorem step_change (h : s.step e = some s') : Change i s e s' := by
  cases e with
  | registerHandler mode =>
      cases h
      exact .of_tasks rfl rfl rfl rfl
  | addTask mode intervalType intervalValue enabled now =>
      rw [step] at h
      split at h
      · cases h
        exact .of_tasks rfl rfl rfl rfl
      · next task hmade =>
        cases h
        refine .of_tasks ?_ rfl rfl rfl
        have hpending : task.status = .pending := by
          have hleft : (Task.left (makeTask mode intervalType intervalValue enabled now)).status =
              .pending := Task.left_calculateNextRun
          rw [hmade] at hleft
          exact hleft
        rw [runs, runs, statusOf, statusOf]
        dsimp only
        rcases lt_trichotomy i s.tasks.length with hlt | rfl | hgt
        · rw [List.getElem?_append_left hlt]
        · simp [hpending]
        · rw [List.getElem?_eq_none (by simp; omega), List.getElem?_eq_none (by omega)]
  | updateTask j intervalType intervalValue enabled now =>
      rw [step] at h
      split_ifs at h
      · cases h
        exact .of_tasks (runs_modify fun task => Task.update_status _ _ _) rfl rfl rfl
      · cases h
        exact .of_tasks rfl rfl rfl rfl
  | deleteTask j =>
      rw [step] at h
      split_ifs at h with hmem
      · cases h
        have hchange : Change i s (.deleteTask j) (s.stopTasks [j]) := by
          apply Change.stopTasks
          intro hi
          obtain rfl := List.mem_singleton.mp hi
          exact ⟨rfl, hmem⟩
        exact hchange.congr rfl rfl rfl rfl
      · cases h
        exact .of_tasks rfl rfl rfl rfl
  | runTaskImmediately j now =>
      rw [step] at h
      split_ifs at h
      · cases h
        exact .runTask now
      · cases h
        exact .of_tasks rfl rfl rfl rfl
  | turn now =>
      rw [step] at h
      split_ifs at h
      cases h
      exact .of_tasks rfl rfl rfl rfl
  | begins j now =>
      rw [step] at h
      split_ifs at h
      cases h
      exact (Change.runTask now).congr rfl rfl rfl rfl
  | drop j =>
      rw [step] at h
      split_ifs at h
      cases h
      exact .of_tasks rfl rfl rfl rfl
  | finish j now failure =>
      rw [step] at h
      split_ifs at h with hmem
      cases h
      exact .finish hmem failure
  | cancel j now =>
      rw [step] at h
      split_ifs at h with hmem
      cases h
      exact .cancel hmem
  | start =>
      cases h
      exact .of_tasks rfl rfl rfl rfl
  | stop =>
      rw [step] at h
      split_ifs at h with hactive
      · cases h
        have hchange : Change i s .stop (s.stopTasks s.registered) :=
          .stopTasks fun hmem => ⟨hactive, hmem⟩
        exact hchange.congr rfl rfl rfl rfl
      · cases h
        exact .of_tasks rfl rfl rfl rfl

end Views

/-- Handlers at work are those of running tasks, but for the stops and the cancellations. -/
structure Accounted (s : TaskScheduler) (i : ℕ) : Prop where
  handling_le : s.handling.count i ≤ s.runs i + s.interrupted.count i
  runs_le : s.runs i ≤ s.handling.count i + s.abandoned.count i

section Runs
variable {s s' t u : TaskScheduler} {i : ℕ} {now : DateTime} {e : Event} {events before : List Event}

theorem runs_le_one : s.runs i ≤ 1 := by
  rw [runs]
  split_ifs
  · exact le_rfl
  · exact Nat.zero_le 1

theorem runs_eq_one : s.runs i = 1 ↔ s.statusOf i = some .running := by
  rw [runs]
  split_ifs with h
  · simpa using h
  · simpa using h

theorem Accounted.step (h : s.Accounted i) (hstep : s.step e = some s') : s'.Accounted i := by
  obtain ⟨hhandling, hruns⟩ := h
  have hone : s.runs i ≤ 1 := runs_le_one
  cases step_change (i := i) hstep with
  | kept => constructor <;> omega
  | began => constructor <;> omega
  | stopped => constructor <;> omega
  | ended => constructor <;> omega
  | gaveUp => constructor <;> omega

theorem accounted_run (hrun : PartialRun.exec step {} events = some s) (i : ℕ) : s.Accounted i :=
  PartialRun.invariant_of_step (I := (·.Accounted i)) (fun _ _ _ h hstep => h.step hstep)
    ⟨Nat.zero_le _, Nat.zero_le _⟩ hrun

/-- Handlers of one task are at work side by side only as often as a `stop` has found the task
running; without that and without a cancelled handler the status tells whether one is at work. -/
theorem handlers_overlap_after_stops (hrun : PartialRun.exec step {} events = some s) (i : ℕ) :
    s.handling.count i ≤ 1 + s.interrupted.count i ∧
      (i ∉ s.interrupted → i ∉ s.abandoned →
        s.handling.count i = if s.statusOf i = some .running then 1 else 0) := by
  obtain ⟨hhandling, hruns⟩ := accounted_run hrun i
  have hone : s.runs i ≤ 1 := runs_le_one
  refine ⟨by omega, fun hinterrupted habandoned => ?_⟩
  rw [List.count_eq_zero_of_not_mem hinterrupted] at hhandling
  rw [List.count_eq_zero_of_not_mem habandoned] at hruns
  exact le_antisymm hhandling hruns

/-- A task is run at once, and again after the scheduler has been stopped. -/
def runTwice : List Event :=
  [.registerHandler .strmCreation, .addTask .strmCreation none 1 true wednesday, .start,
    .runTaskImmediately 0 wednesday, .stop, .runTaskImmediately 0 wednesday]

theorem runTwice_overlaps : ∃ s, PartialRun.exec step {} runTwice = some s ∧
    s.handling.count 0 = 2 ∧ s.handling.count 0 ≤ 1 + s.interrupted.count 0 :=
  ⟨_, rfl, rfl, (handlers_overlap_after_stops
    (rfl : PartialRun.exec step {} runTwice = some _) 0).1⟩

/-- The task is running and no handler of it is at work. -/
structure Blocked (s : TaskScheduler) (i : ℕ) : Prop where
  running : s.runs i = 1
  idle : s.handling.count i = 0

theorem Blocked.step (h : s.Blocked i) (hstops : ¬ s.Stops i e) (hstep : s.step e = some s') :
    s'.Blocked i := by
  obtain ⟨hrunning, hidle⟩ := h
  cases step_change (i := i) hstep with
  | kept => constructor <;> omega
  | began => omega
  | stopped hevent => exact absurd hevent hstops
  | ended => omega
  | gaveUp => omega

theorem blocked_of_cancel (h : s.Accounted i) (hinterrupted : i ∉ s.interrupted)
    (hcancel : s.step (.cancel i now) = some s') : s'.Blocked i := by
  have hmem : i ∈ s.handling := by
    rw [TaskScheduler.step] at hcancel
    split_ifs at hcancel with hmem
    exact hmem
  have hpos := List.count_pos_iff.mpr hmem
  have hcount := List.count_eq_zero_of_not_mem hinterrupted
  have hone : s.runs i ≤ 1 := runs_le_one
  obtain ⟨hhandling, -⟩ := h
  have hcancelled : s' = { s.modifyTask i (·.giveUp now) with
      handling := s.handling.erase i, abandoned := i :: s.abandoned } := by
    rw [TaskScheduler.step, if_pos hmem] at hcancel
    exact (Option.some.inj hcancel).symm
  have hruns : s'.runs i = s.runs i := by
    rw [hcancelled]
    exact runs_modify fun task => Task.giveUp_status
  have herase : s'.handling.count i = s.handling.count i - 1 := by
    rw [hcancelled]
    exact List.count_erase_self
  exact ⟨by omega, by omega⟩

/-- What is done to the task after its handler has been cancelled. -/
def afterCancel : List Event :=
  [.updateTask 0 none (some 2) (some true) wednesday, .runTaskImmediately 0 wednesday]

end Runs

end TaskScheduler

end SmartMedia.Scheduler
