import SmartMedia.Platform.TaskQueue
import SmartMedia.Platform.TaskRunner

/-!
# `PersistentTaskWorker._run_claimed_task`

`app/services/platform/task_worker.py`: `run_task`, then in the `finally` clause the
clean-up `_clear_finished_lease` with a session of its own. `Run.advance` is one
step of the whole coroutine, and the lemmas below say what such a step can write.
-/
namespace SmartMedia.Platform

/-- What `_clear_finished_lease` assigns to the row it read, if anything. -/
def clearUpdate (now : Time) (copy : Task) : Option TaskUpdate :=
  if copy.status = .failed ∧ copy.attempt < copy.attemptLimit then
    some { releaseLease with
      status := some .retryScheduled
      nextRunAt := some (some (now + retryDelay 30 3600 copy.attempt)) }
  else if copy.status ∈ taskTerminalStates then some releaseLease
  else none

namespace Run

/-- `_clear_finished_lease` between its two database accesses. -/
def clearFinishedLease (now : Time) (row : Option Task) (r : Run) : Option (TaskUpdate × Run) :=
  match r.point with
  | .returned =>
      match row with
      | none => r.goto .finished
      | some t =>
          if t.leaseOwner ≠ some r.owner ∨ clearUpdate now t = none then r.goto .finished
          else some ({}, { r with copy := t, point := .commitClear })
  | .commitClear => r.commit ((clearUpdate now r.copy).getD {}) .finished
  | _ => none

/-- `_run_claimed_task` from one database access, or handler call, to the next. -/
def advance (now : Time) (row : Option Task) (ev : RunEvent) (r : Run) :
    Option (TaskUpdate × Run) :=
  match ev with
  | .go => r.runTask now row <|> r.clearFinishedLease now row
  | .interrupt => (interrupted r.point).bind fun p => r.goto p
  | .progress p m => match r.point with
      | .handler n => r.goto (.commitProgress n p m)
      | _ => none
  | .handlerReturn result => match r.point with
      | .handler _ => some ({}, { r with result, point := .checkExecuted })
      | _ => none
  | .handlerRaise e => match r.point with
      | .handler n | .handlerCancelled n => r.goto (.commitAttemptFailed n e)
      | _ => none

/-- The heartbeat loop lives until the `finally` clause cancels it. -/
def heartbeats (r : Run) : Bool := r.point ≠ .commitClear ∧ r.point ≠ .finished

end Run

/-- The status columns `run_task` commits at a point; elsewhere it commits none. -/
def RunPoint.statusWrites : RunPoint → List TaskStatus
  | .commitPlanning => [.planning]
  | .commitRunning => [.running]
  | .commitReviewing => [.reviewing]
  | .commitFinal => [.completed, .partialSuccess]
  | .commitCancelled => [.cancelled]
  | .commitFailed _ => [.failed]
  | .commitClear => [.retryScheduled]
  | _ => []

/-- What one step of a claimed run keeps and writes. -/
structure AdvanceSpec (row : Option Task) (r : Run) (u : TaskUpdate) (r' : Run) : Prop where
  taskId : r'.taskId = r.taskId
  owner : r'.owner = r.owner
  budget : r'.copy.maxAttempts = r.copy.maxAttempts ∨
    ∃ t, row = some t ∧ r'.copy.maxAttempts = t.maxAttempts
  attempt : u.attempt = none
  status : ∀ st, u.status = some st → st ∈ r.point.statusWrites
  lease : r.point ≠ .commitClear → u.leaseOwner = none ∧ u.leaseUntil = none ∧ u.heartbeatAt = none

namespace Run
variable {now : Time} {row : Option Task} {r r' : Run} {u : TaskUpdate} {p : RunPoint}

theorem goto_eq_some (h : r.goto p = some (u, r')) : u = {} ∧ r' = { r with point := p } := by
  cases h
  exact ⟨rfl, rfl⟩

theorem commit_eq_some {v : TaskUpdate} (h : r.commit v p = some (u, r')) :
    u = v ∧ r' = { r with copy := v.apply r.copy, point := p } := by
  cases h
  exact ⟨rfl, rfl⟩

theorem check_eq_some {q : RunPoint} (h : r.check row p q = some (u, r')) :
    ∃ t, row = some t ∧ u = {} ∧
      r' = { r with copy := t, point := if t.status ∈ cancelStates then p else q } := by
  cases row with
  | none => cases h
  | some t => cases h; exact ⟨t, rfl, rfl, rfl⟩

end Run

namespace AdvanceSpec
variable {now : Time} {row : Option Task} {r r' : Run} {u v : TaskUpdate} {p q : RunPoint}

theorem of_empty (h₁ : r'.taskId = r.taskId) (h₂ : r'.owner = r.owner)
    (h₃ : r'.copy.maxAttempts = r.copy.maxAttempts ∨
      ∃ t, row = some t ∧ r'.copy.maxAttempts = t.maxAttempts) : AdvanceSpec row r {} r' :=
  ⟨h₁, h₂, h₃, rfl, fun _ h => (by cases h), fun _ => ⟨rfl, rfl, rfl⟩⟩

theorem of_goto (h : r.goto p = some (u, r')) : AdvanceSpec row r u r' := by
  obtain ⟨rfl, rfl⟩ := Run.goto_eq_some h
  exact of_empty rfl rfl (.inl rfl)

theorem of_check (h : r.check row p q = some (u, r')) : AdvanceSpec row r u r' := by
  obtain ⟨t, ht, rfl, rfl⟩ := Run.check_eq_some h
  exact of_empty rfl rfl (.inr ⟨t, ht, rfl⟩)

theorem of_commit (h : r.commit v p = some (u, r')) (ha : v.attempt = none)
    (hs : ∀ st, v.status = some st → st ∈ r.point.statusWrites)
    (hl : r.point ≠ .commitClear → v.leaseOwner = none ∧ v.leaseUntil = none ∧
      v.heartbeatAt = none) : AdvanceSpec row r u r' := by
  obtain ⟨rfl, rfl⟩ := Run.commit_eq_some h
  exact ⟨rfl, rfl, .inl rfl, ha, hs, hl⟩

end AdvanceSpec

namespace Run
variable {now : Time} {row : Option Task} {ev : RunEvent} {r r' : Run} {u : TaskUpdate}

@[simp] theorem finalUpdate_attempt : (r.finalUpdate now).attempt = none := by
  unfold finalUpdate; split_ifs <;> rfl

theorem finalUpdate_status (r : Run) (now : Time) :
    (r.finalUpdate now).status = some .completed ∨
      (r.finalUpdate now).status = some .partialSuccess := by
  unfold finalUpdate; split_ifs <;> simp

theorem finalUpdate_lease : (r.finalUpdate now).leaseOwner = none ∧
    (r.finalUpdate now).leaseUntil = none ∧ (r.finalUpdate now).heartbeatAt = none := by
  unfold finalUpdate; split_ifs <;> exact ⟨rfl, rfl, rfl⟩

theorem runTask_spec (h : r.runTask now row = some (u, r')) : AdvanceSpec row r u r' := by
  cases hp : r.point <;> simp only [runTask, hp] at h
  case query =>
    rcases row with _ | t
    · exact .of_goto h
    · cases he : ensureOrchestrationParams r.taskId r.uuid t.params <;>
        (simp only [he] at h; cases h; exact .of_empty rfl rfl (.inr ⟨t, rfl, rfl⟩))
  case checkRouted =>
    cases he : attemptCount r.orchestration with
    | ok n =>
        simp only [he] at h
        obtain ⟨t, ht, rfl, rfl⟩ := check_eq_some h
        exact .of_empty rfl rfl (.inr ⟨t, ht, rfl⟩)
    | error e =>
        simp only [he] at h
        exact .of_check h
  case commitItem n i =>
    split_ifs at h
    · exact .of_commit h rfl (fun _ hs => by cases hs) (fun _ => ⟨rfl, rfl, rfl⟩)
    · obtain ⟨rfl, rfl⟩ := commit_eq_some h
      exact ⟨rfl, rfl, .inl rfl, rfl, fun _ hs => (by cases hs), fun _ => ⟨rfl, rfl, rfl⟩⟩
  case retryWait n e => split_ifs at h <;> exact .of_goto h
  case commitFinal =>
    refine .of_commit h finalUpdate_attempt (fun st hst => ?_) (fun _ => finalUpdate_lease)
    rcases finalUpdate_status r now with hf | hf <;>
      (rw [hf] at hst; cases hst; simp [hp, RunPoint.statusWrites])
  all_goals first
    | exact .of_goto h
    | exact .of_check h
    | exact .of_commit h rfl (fun _ hs => by cases hs <;> simp [hp, RunPoint.statusWrites])
        (fun _ => ⟨rfl, rfl, rfl⟩)
    | cases h

theorem clearUpdate_attempt {copy : Task} (h : clearUpdate now copy = some u) :
    u.attempt = none ∧ u.leaseOwner = some none ∧
      ∀ st, u.status = some st → st = .retryScheduled := by
  unfold clearUpdate at h
  split_ifs at h <;> cases h <;> simp [releaseLease]

/-- The clean-up's two steps, as steps of the whole coroutine. -/
theorem advance_returned (hp : r.point = .returned) :
    r.advance now row .go = r.clearFinishedLease now row := by
  simp only [advance, runTask, hp]
  rfl

theorem advance_commitClear (hp : r.point = .commitClear) :
    r.advance now row .go = r.commit ((clearUpdate now r.copy).getD {}) .finished := by
  simp only [advance, runTask, clearFinishedLease, hp]
  rfl

theorem clearFinishedLease_spec (h : r.clearFinishedLease now row = some (u, r')) :
    AdvanceSpec row r u r' := by
  cases hp : r.point <;> simp only [clearFinishedLease, hp] at h
  case returned =>
    rcases row with _ | t
    · exact .of_goto h
    · simp only at h
      split_ifs at h
      · exact .of_goto h
      · cases h; exact .of_empty rfl rfl (.inr ⟨t, rfl, rfl⟩)
  case commitClear =>
    cases hc : clearUpdate now r.copy with
    | none =>
        rw [hc] at h
        exact .of_commit h rfl (fun _ hs => by cases hs) (absurd hp)
    | some v =>
        rw [hc] at h
        have hv := clearUpdate_attempt hc
        refine .of_commit h hv.1 (fun st hst => ?_) (absurd hp)
        simp [hp, RunPoint.statusWrites, hv.2.2 st hst]
  all_goals cases h

/-- Letting the code go on is a step of `run_task` or of the clean-up. -/
theorem advance_go (h : r.advance now row .go = some (u, r')) :
    r.runTask now row = some (u, r') ∨ r.clearFinishedLease now row = some (u, r') := by
  simp only [advance] at h
  cases hr : r.runTask now row with
  | none => rw [hr] at h; exact .inr h
  | some v => rw [hr] at h; exact .inl h

/-- One step of a claimed run: its identity stays, and what it may write depends on
the point only. -/
theorem advance_spec (h : r.advance now row ev = some (u, r')) : AdvanceSpec row r u r' := by
  cases ev with
  | go => exact (advance_go h).elim runTask_spec clearFinishedLease_spec
  | interrupt =>
      obtain ⟨p, -, hp⟩ := Option.bind_eq_some_iff.mp h
      exact .of_goto hp
  | progress p m => simp only [advance] at h; split at h <;> first | exact .of_goto h | cases h
  | handlerReturn result =>
      simp only [advance] at h
      split at h
      · cases h; exact .of_empty rfl rfl (.inl rfl)
      · cases h
  | handlerRaise e => simp only [advance] at h; split at h <;> first | exact .of_goto h | cases h

end Run

end SmartMedia.Platform
