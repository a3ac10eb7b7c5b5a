import Mathlib.Algebra.Group.Nat.Defs
import SmartMedia.Platform.Task

/-!
# `TaskService`

`app/services/platform/task_queue.py`. Each method is cut at its database
accesses: a guard or a selection evaluated where the method reads, and the update
its commit flushes. A guarded bulk UPDATE (claim, heartbeat) evaluates its WHERE
clause on the current row and is one atomic step; the other methods read ORM
copies first and decide on those.
-/
namespace SmartMedia.Platform

/-- `_coerce_positive_int`. -/
def coercePositiveInt (value : JsonField ℤ) (default : ℕ) : ℕ :=
  match value with
  | .given n => (max 1 n).toNat
  | .absent => default
  | .invalid _ => default

structure TaskCreate where
  taskType : String
  priority : String := "normal"
  params : Params := {}
  deriving DecidableEq, Repr

/-- `create_task`; `now` is the server default of `created_at`. -/
def createTask (taskIn : TaskCreate) (now : Time) : Task where
  taskType := taskIn.taskType
  priority := taskIn.priority
  params := taskIn.params
  status := .pending
  maxAttempts := coercePositiveInt taskIn.params.maxAttempts 3
  idempotencyKey := taskIn.params.idempotencyKey
  createdAt := now

/-- The filter `claim_next_task` puts on both its SELECT and its UPDATE. -/
def claimable (now : Time) (t : Task) : Bool :=
  t.status ∈ taskLeaseableStates && t.nextRunAt.all (· ≤ now)

/-- First row of `order_by(created_at.asc(), id.asc())`. -/
def firstCreated : List (Task × ℕ) → Option ℕ
  | [] => none
  | (t, id) :: rest =>
      if rest.all fun r => t.createdAt ≤ r.1.createdAt then some id else firstCreated rest

/-- The SELECT of `claim_next_task`. -/
def claimCandidate (now : Time) (tasks : Table) : Option ℕ :=
  firstCreated (tasks.zipIdx.filter fun r => claimable now r.1)

/-- The SET clause of `claim_next_task`; the attempt is counted on the current row. -/
def claimUpdate (leaseOwner : String) (leaseSeconds : ℕ) (now : Time) (row : Task) : TaskUpdate where
  status := some .leased
  leaseOwner := some (some leaseOwner)
  leaseUntil := some (some (now + leaseSeconds))
  heartbeatAt := some (some now)
  startedAt := some (some now)
  attempt := some (row.attempt + 1)

/-- The WHERE clause of `heartbeat_task`. -/
def heartbeatable (leaseOwner : String) (row : Task) : Bool :=
  row.leaseOwner = some leaseOwner && row.status ∈ taskActiveStates ++ [.leased]

def heartbeatUpdate (leaseSeconds : ℕ) (now : Time) : TaskUpdate where
  heartbeatAt := some (some now)
  leaseUntil := some (some (now + leaseSeconds))

/-- The SELECT filter of `recover_expired_leases`. -/
def expired (now : Time) (t : Task) : Bool :=
  t.status ∈ taskActiveStates ++ [.leased, .cancelRequested] && t.leaseUntil.any (· ≤ now)

/-- The three assignments that give a lease back. -/
def releaseLease : TaskUpdate where
  leaseOwner := some none
  leaseUntil := some none
  heartbeatAt := some none

/-- What `recover_expired_leases` assigns to one selected ORM copy. -/
def recoverUpdate (now : Time) (copy : Task) : TaskUpdate :=
  if copy.status = .cancelRequested then
    { releaseLease with
      status := some .cancelled
      completedAt := some (some now)
      errorMessage := some (some "Cancelled after worker lease expired") }
  else if copy.attemptLimit ≤ copy.attempt then
    { releaseLease with
      status := some .failed
      completedAt := some (some now)
      errorMessage := some (some "Task lease expired after max attempts") }
  else
    { releaseLease with
      status := some .retryScheduled
      nextRunAt := some (some now)
      errorMessage := some (some "Task lease expired; retry scheduled") }

/-- `min(base * 2 ** max(int(attempt or 1) - 1, 0), max_delay)`. -/
def retryDelay (baseDelay maxDelay attempt : ℕ) : ℕ :=
  min (baseDelay * 2 ^ (attempt - 1)) maxDelay

/-- `record_task_failure` goes on only for the owner of an unfinished task. -/
def failureAccepted (leaseOwner : String) (copy : Task) : Bool :=
  copy.leaseOwner = some leaseOwner && copy.status ∉ taskTerminalStates

/-- What `record_task_failure` assigns. -/
def failureUpdate (errorMessage : String) (baseDelay maxDelay : ℕ) (now : Time)
    (copy : Task) : TaskUpdate :=
  if copy.attemptLimit ≤ copy.attempt then
    { releaseLease with
      status := some .failed
      completedAt := some (some now)
      errorMessage := some (some errorMessage) }
  else
    { releaseLease with
      status := some .retryScheduled
      nextRunAt := some (some (now + retryDelay baseDelay maxDelay copy.attempt))
      errorMessage := some (some errorMessage) }

/-- What `cancel_task` assigns to the copy it read; `none` where it returns `False`. -/
def cancelUpdate (now : Time) (copy : Task) : Option TaskUpdate :=
  if copy.status ∈ taskTerminalStates then none
  else if copy.status ∈ taskActiveStates ++ [.leased] then
    some { status := some .cancelRequested
           errorMessage := some (some "Cancel requested by user") }
  else if copy.status ≠ .cancelRequested then
    some { status := some .cancelled
           completedAt := some (some now)
           errorMessage := some (some "Cancelled by user") }
  else some {}

@[simp] theorem claimUpdate_status (o : String) (l : ℕ) (now : Time) (t : Task) :
    (claimUpdate o l now t).status = some .leased := rfl
@[simp] theorem claimUpdate_leaseOwner (o : String) (l : ℕ) (now : Time) (t : Task) :
    (claimUpdate o l now t).leaseOwner = some (some o) := rfl
@[simp] theorem claimUpdate_attempt (o : String) (l : ℕ) (now : Time) (t : Task) :
    (claimUpdate o l now t).attempt = some (t.attempt + 1) := rfl
@[simp] theorem heartbeatUpdate_status (l : ℕ) (now : Time) :
    (heartbeatUpdate l now).status = none := rfl
@[simp] theorem heartbeatUpdate_leaseOwner (l : ℕ) (now : Time) :
    (heartbeatUpdate l now).leaseOwner = none := rfl
@[simp] theorem heartbeatUpdate_attempt (l : ℕ) (now : Time) :
    (heartbeatUpdate l now).attempt = none := rfl

theorem claimable_status {now : Time} {t : Task} (h : claimable now t = true) :
    t.status ∈ taskLeaseableStates := by
  simp only [claimable, Bool.and_eq_true, decide_eq_true_eq] at h
  exact h.1

theorem coercePositiveInt_pos (value : JsonField ℤ) {default : ℕ} (h : 0 < default) :
    0 < coercePositiveInt value default := by
  cases value with
  | absent => exact h
  | given n => simp only [coercePositiveInt]; omega
  | invalid _ => exact h

/-- Recovery always gives the lease back and leaves the attempt count alone. -/
@[simp] theorem recoverUpdate_leaseOwner (now : Time) (copy : Task) :
    (recoverUpdate now copy).leaseOwner = some none := by
  unfold recoverUpdate; split_ifs <;> rfl
@[simp] theorem recoverUpdate_attempt (now : Time) (copy : Task) :
    (recoverUpdate now copy).attempt = none := by
  unfold recoverUpdate; split_ifs <;> rfl
@[simp] theorem failureUpdate_leaseOwner (e : String) (b m : ℕ) (now : Time) (copy : Task) :
    (failureUpdate e b m now copy).leaseOwner = some none := by
  unfold failureUpdate; split_ifs <;> rfl
@[simp] theorem failureUpdate_attempt (e : String) (b m : ℕ) (now : Time) (copy : Task) :
    (failureUpdate e b m now copy).attempt = none := by
  unfold failureUpdate; split_ifs <;> rfl

/-- A recovered copy without a cancel request goes back to work or fails. -/
theorem recoverUpdate_status (now : Time) (copy : Task) :
    (recoverUpdate now copy).status =
      some (if copy.status = .cancelRequested then .cancelled
        else if copy.attemptLimit ≤ copy.attempt then .failed else .retryScheduled) := by
  unfold recoverUpdate; split_ifs <;> rfl

theorem failureUpdate_status (e : String) (b m : ℕ) (now : Time) (copy : Task) :
    (failureUpdate e b m now copy).status =
      some (if copy.attemptLimit ≤ copy.attempt then .failed else .retryScheduled) := by
  unfold failureUpdate; split_ifs <;> rfl

/-- A cancel writes no status but the two cancel statuses, and no lease column. -/
theorem cancelUpdate_spec {now : Time} {copy : Task} {u : TaskUpdate}
    (h : cancelUpdate now copy = some u) :
    (∀ st, u.status = some st → st ∈ cancelStates) ∧ u.leaseOwner = none ∧
      u.leaseUntil = none ∧ u.heartbeatAt = none ∧ u.attempt = none := by
  unfold cancelUpdate at h
  split_ifs at h <;> cases h <;> simp [cancelStates]

/-- A cancel that assigns nothing read the row as already `cancel_requested`. -/
theorem cancelUpdate_status_none {now : Time} {copy : Task} {u : TaskUpdate}
    (h : cancelUpdate now copy = some u) (hu : u.status = none) :
    copy.status = .cancelRequested := by
  unfold cancelUpdate at h
  split_ifs at h with h₁ h₂ h₃ <;> cases h
  · exact absurd hu (by simp)
  · exact absurd hu (by simp)
  · simpa using h₃

end SmartMedia.Platform
