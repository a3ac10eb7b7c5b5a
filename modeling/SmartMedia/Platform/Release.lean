import SmartMedia.Platform.TaskSystem

/-!
# Does a worker release what it finishes?

When `_run_claimed_task` ends, the clean-up has released the lease of a task it read
in a terminal state. It has no case for `cancel_requested`: a run that returned early
because a check saw the request, or a request that lands behind the last check, leaves
the row as it is. The theorem below follows every path of `run_task`, with any number
of `cancel_task` calls in between, to the end of the clean-up.
-/
namespace SmartMedia.Platform

/-- The statuses a row can show once `run_task` has nothing more to decide. -/
def settledStates : List TaskStatus := taskTerminalStates ++ [.cancelRequested]

/-- Behind these points the row shows a settled status. -/
def RunPoint.afterOutcome : RunPoint → Bool
  | .commitDoneLog | .announceDone | .commitFailLog _ | .returned | .commitClear => true
  | _ => false

namespace System

/-- What the claim about a finished worker asks of the row. -/
def Released (s : System) (id : ℕ) : Prop :=
  ∃ t, s.tasks[id]? = some t ∧ t.status ∈ taskTerminalStates ++ [.retryScheduled] ∧
    t.leaseOwner = none ∧ t.leaseUntil = none ∧ t.heartbeatAt = none

def RunFinished (s : System) (k : ℕ) : Prop :=
  ∃ r, s.runs[k]? = some r ∧ r.point = .finished

/-- Somebody else commits to the row of run `k`: a recovery, a recorded failure or
another run. While this does not happen the worker still owns its task. -/
def Disturbs (s : System) (k id : ℕ) : Action → Prop
  | .recoverCommit j => ∃ rec copy, s.recoveries[j]?.join = some rec ∧ (id, copy) ∈ rec.selected
  | .failureCommit j => ∃ f, s.failures[j]?.join = some f ∧ f.id = id
  | .runStep j _ _ => j ≠ k ∧ ∃ r, s.runs[j]? = some r ∧ r.taskId = id
  | _ => False

/-- The action ends run `k` without the release: the worker is cancelled while it
waits for its heartbeat task, or the clean-up meets `cancel_requested` when it reads
the row or when it commits the release of a row it read in a terminal state. -/
def SkipsRelease (s : System) (k : ℕ) : Action → Prop
  | .runStep j _ ev => j = k ∧ ∃ r t, s.runs[k]? = some r ∧ s.tasks[r.taskId]? = some t ∧
      (ev = .interrupt ∧ r.point = .returned ∨
        ev = .go ∧ t.status = .cancelRequested ∧
          (r.point = .returned ∨ r.point = .commitClear ∧
            ¬ (r.copy.status = .failed ∧ r.copy.attempt < r.copy.attemptLimit)))
  | _ => False

/-- Run `k` is under way and its worker holds the lease of its row. -/
structure Held (s : System) (k id : ℕ) (owner : String) (r : Run) (t : Task) : Prop where
  run : s.runs[k]? = some r
  taskId : r.taskId = id
  worker : r.owner = owner
  row : s.tasks[id]? = some t
  lease : t.leaseOwner = some owner
  busy : t.status ∉ taskLeaseableStates
  settled : r.point.afterOutcome = true → t.status ∈ settledStates
  copy : r.point = .commitClear → r.copy.status ∈ taskTerminalStates
  open_ : r.point ≠ .finished

end System

namespace Run
variable {now : Time} {row : Option Task} {t : Task} {ev : RunEvent} {r r' : Run} {u : TaskUpdate}

theorem settled_of_cancelStates (h : t.status ∈ cancelStates) : t.status ∈ settledStates := by
  revert h
  cases t.status <;> decide

/-- Inside `run_task` a settled row stays settled, and the ways out settle it. -/
theorem runTask_settled (h : r.runTask now (some t) = some (u, r'))
    (hs : r.point.afterOutcome = true → t.status ∈ settledStates)
    (hr : r'.point.afterOutcome = true) : (u.apply t).status ∈ settledStates := by
  have hcheck : ∀ {q : Run} {p p' : RunPoint}, p'.afterOutcome = false →
      q.check (some t) p p' = some (u, r') → (u.apply t).status ∈ settledStates := by
    intro q p p' hp' hq
    obtain ⟨t', ht', rfl, rfl⟩ := check_eq_some hq
    cases ht'
    by_cases hc : t.status ∈ cancelStates
    · exact settled_of_cancelStates hc
    · rw [if_neg hc, hp'] at hr
      cases hr
  cases hp : r.point <;> simp only [runTask, hp] at h
  case query =>
    cases he : ensureOrchestrationParams r.taskId r.uuid t.params <;>
      (simp only [he] at h; cases h; cases hr)
  case checkPlanning | checkPlanned | checkProgress | checkItem | checkExecuted =>
    exact hcheck rfl h
  case checkRouted =>
    cases he : attemptCount r.orchestration <;> (simp only [he] at h; exact hcheck rfl h)
  case commitAttemptLog n =>
    obtain ⟨rfl, rfl⟩ := commit_eq_some h
    simp only [attemptBody] at hr
    split_ifs at hr <;> cases hr
  case commitItem n i =>
    split_ifs at h <;> (obtain ⟨rfl, rfl⟩ := commit_eq_some h; cases hr)
  case retryWait n e =>
    split_ifs at h <;> (obtain ⟨rfl, rfl⟩ := goto_eq_some h; cases hr)
  case commitFinal =>
    obtain ⟨rfl, rfl⟩ := commit_eq_some h
    rw [TaskUpdate.apply_status]
    rcases finalUpdate_status r now with hf | hf <;>
      (rw [hf]; simp [settledStates, taskTerminalStates])
  case commitCancelled | commitFailed =>
    obtain ⟨rfl, rfl⟩ := commit_eq_some h
    simp [settledStates, taskTerminalStates]
  case commitDoneLog | commitFailLog =>
    obtain ⟨rfl, rfl⟩ := commit_eq_some h
    exact hs (by rw [hp]; rfl)
  case announceDone =>
    obtain ⟨rfl, rfl⟩ := goto_eq_some h
    exact hs (by rw [hp]; rfl)
  all_goals first
    | (obtain ⟨rfl, rfl⟩ := goto_eq_some h; cases hr)
    | (obtain ⟨rfl, rfl⟩ := commit_eq_some h; cases hr)
    | cases h

/-- The clean-up's read goes on to a commit only for a row its worker owns and that
is in a terminal state; otherwise the run is over. -/
theorem clear_returned (hp : r.point = .returned)
    (h : r.clearFinishedLease now (some t) = some (u, r')) :
    u = {} ∧ (r'.point = .finished ∧ (t.leaseOwner ≠ some r.owner ∨ t.status ∉ taskTerminalStates) ∨
      r'.point = .commitClear ∧ r'.copy = t ∧ t.status ∈ taskTerminalStates) := by
  have hnone : clearUpdate now t = none ↔ t.status ∉ taskTerminalStates := by
    unfold clearUpdate
    split_ifs with h₁ h₂
    · simp [h₁.1, taskTerminalStates]
    · simp [h₂]
    · simp [h₂]
  simp only [clearFinishedLease, hp] at h
  split_ifs at h with hc
  · obtain ⟨rfl, rfl⟩ := goto_eq_some h
    exact ⟨rfl, .inl ⟨rfl, hc.imp id hnone.mp⟩⟩
  · cases h
    rw [not_or] at hc
    exact ⟨rfl, .inr ⟨rfl, rfl, not_not.mp (mt hnone.mpr hc.2)⟩⟩

/-- Behind the outcome the row is settled, whichever way the run got there. -/
theorem advance_settled (h : r.advance now (some t) ev = some (u, r'))
    (hs : r.point.afterOutcome = true → t.status ∈ settledStates)
    (hr : r'.point.afterOutcome = true) : (u.apply t).status ∈ settledStates := by
  cases ev with
  | go =>
      rcases advance_go h with h | h
      · exact runTask_settled h hs hr
      · cases hp : r.point <;> simp only [clearFinishedLease, hp] at h
        case returned =>
          obtain ⟨rfl, -⟩ := clear_returned hp (by simpa only [clearFinishedLease, hp] using h)
          exact hs (by rw [hp]; rfl)
        case commitClear =>
          obtain ⟨rfl, rfl⟩ := commit_eq_some h
          cases hr
        all_goals cases h
  | interrupt =>
      obtain ⟨p, hp, hg⟩ := Option.bind_eq_some_iff.mp h
      obtain ⟨rfl, rfl⟩ := goto_eq_some hg
      cases hq : r.point <;> rw [hq] at hp <;> cases hp <;> cases hr
  | progress p m | handlerRaise e =>
      simp only [advance] at h
      split at h <;> first | (obtain ⟨rfl, rfl⟩ := goto_eq_some h; cases hr) | cases h
  | handlerReturn result =>
      simp only [advance] at h
      split at h <;> (cases h; try cases hr)

/-- The clean-up's points are behind `run_task`. -/
theorem runTask_heartbeats (h : r.runTask now row = some (u, r')) : r'.heartbeats = true := by
  have hcheck : ∀ {q : Run} {p p' : RunPoint}, (p ≠ .commitClear ∧ p ≠ .finished) →
      (p' ≠ .commitClear ∧ p' ≠ .finished) →
      q.check row p p' = some (u, r') → r'.heartbeats = true := by
    intro q p p' hp hp' hq
    obtain ⟨t', -, -, rfl⟩ := check_eq_some hq
    simp only [heartbeats, decide_eq_true_eq]
    split_ifs
    exacts [hp, hp']
  cases hp : r.point <;> simp only [runTask, hp] at h
  case query =>
    rcases row with _ | t
    · cases h
      simp [heartbeats]
    · cases he : ensureOrchestrationParams r.taskId r.uuid t.params <;>
        (simp only [he] at h; cases h; simp [heartbeats])
  case checkPlanning | checkPlanned | checkProgress | checkItem | checkExecuted =>
    exact hcheck (by simp) (by simp) h
  case checkRouted =>
    cases he : attemptCount r.orchestration <;>
      (simp only [he] at h; exact hcheck (by simp) (by simp) h)
  case commitAttemptLog n =>
    obtain ⟨rfl, rfl⟩ := commit_eq_some h
    simp only [heartbeats, attemptBody]
    split_ifs <;> simp
  case commitItem n i =>
    split_ifs at h <;> (obtain ⟨rfl, rfl⟩ := commit_eq_some h; simp [heartbeats])
  case retryWait n e =>
    split_ifs at h <;> (obtain ⟨rfl, rfl⟩ := goto_eq_some h; simp [heartbeats])
  case queryCancelled | queryFailed =>
    obtain ⟨rfl, rfl⟩ := goto_eq_some h
    simp only [heartbeats]
    split_ifs <;> simp
  all_goals first
    | (obtain ⟨rfl, rfl⟩ := goto_eq_some h; simp [heartbeats])
    | (obtain ⟨rfl, rfl⟩ := commit_eq_some h; simp [heartbeats])
    | cases h

/-- The steps that end a run: the worker is cancelled behind `run_task`, the clean-up
finds nothing to release, or it commits its release. -/
theorem advance_finishes (h : r.advance now (some t) ev = some (u, r'))
    (hf : r'.point = .finished) :
    (u = {} ∧ r.point = .returned ∧ (ev = .interrupt ∨
        ev = .go ∧ (t.leaseOwner ≠ some r.owner ∨ t.status ∉ taskTerminalStates))) ∨
      (u = (clearUpdate now r.copy).getD {} ∧ r.point = .commitClear ∧ ev = .go) := by
  cases ev with
  | go =>
      rcases advance_go h with h | h
      · have hb := runTask_heartbeats h
        simp [heartbeats, hf] at hb
      · cases hp : r.point
        case returned =>
          rcases clear_returned hp h with ⟨rfl, ⟨-, hc⟩ | ⟨hc, -⟩⟩
          · exact .inl ⟨rfl, rfl, .inr ⟨rfl, hc⟩⟩
          · rw [hc] at hf
            cases hf
        case commitClear =>
          simp only [clearFinishedLease, hp] at h
          exact .inr ⟨(commit_eq_some h).1, rfl, rfl⟩
        all_goals
          simp only [clearFinishedLease, hp] at h
          cases h
  | interrupt =>
      obtain ⟨p, hp, hg⟩ := Option.bind_eq_some_iff.mp h
      obtain ⟨rfl, rfl⟩ := goto_eq_some hg
      obtain rfl : p = .finished := hf
      cases hq : r.point <;> rw [hq] at hp <;> cases hp
      exact .inl ⟨rfl, rfl, .inl rfl⟩
  | progress p m | handlerRaise e =>
      simp only [advance] at h
      split at h <;> first | (obtain ⟨rfl, rfl⟩ := goto_eq_some h; cases hf) | cases h
  | handlerReturn result =>
      simp only [advance] at h
      split at h <;> (cases h; try cases hf)

/-- A finished run takes no step. -/
theorem advance_finished (hp : r.point = .finished) : r.advance now row ev = none := by
  cases ev <;> simp [advance, runTask, clearFinishedLease, interrupted, hp]

/-- The clean-up enters its commit with a terminal copy only. -/
theorem advance_copy (h : r.advance now (some t) ev = some (u, r'))
    (hp : r'.point = .commitClear) : r'.copy.status ∈ taskTerminalStates := by
  cases ev with
  | go =>
      rcases advance_go h with h | h
      · have hb := runTask_heartbeats h
        simp [heartbeats, hp] at hb
      · cases hq : r.point
        case returned =>
          rcases clear_returned hq h with ⟨-, ⟨hc, -⟩ | ⟨-, hc, hs⟩⟩
          · rw [hp] at hc
            cases hc
          · rw [hc]
            exact hs
        all_goals
          simp only [clearFinishedLease, hq] at h
          cases h
          try cases hp
  | interrupt =>
      obtain ⟨p, hi, hg⟩ := Option.bind_eq_some_iff.mp h
      obtain ⟨rfl, rfl⟩ := goto_eq_some hg
      obtain rfl : p = .commitClear := hp
      cases hq : r.point <;> rw [hq] at hi <;> cases hi
  | progress p m | handlerRaise e =>
      simp only [advance] at h
      split at h <;> first | (obtain ⟨rfl, rfl⟩ := goto_eq_some h; cases hp) | cases h
  | handlerReturn result =>
      simp only [advance] at h
      split at h <;> (cases h; try cases hp)

/-- No step before the clean-up makes the row leaseable. -/
theorem advance_busy (h : r.advance now (some t) ev = some (u, r'))
    (hp : r.point ≠ .commitClear) (hb : t.status ∉ taskLeaseableStates) :
    (u.apply t).status ∉ taskLeaseableStates := by
  rw [TaskUpdate.apply_status]
  cases hu : u.status with
  | none => exact hb
  | some st =>
      have hst := (advance_spec h).status st hu
      cases hq : r.point <;> simp_all [RunPoint.statusWrites, taskLeaseableStates]
      all_goals rcases hst with rfl | rfl <;> simp

end Run

namespace System
variable {s s' : System} {a : Action} {k id : ℕ} {owner : String} {r : Run} {t : Task}

/-- A freshly claimed run holds its task. -/
theorem held_of_claim {j : ℕ} (h : s.step (.claimUpdate j) = some s')
    (hr : s'.runs = s.runs ++ [r]) : ∃ t, s'.Held s.runs.length r.taskId r.owner r t := by
  cases stepped h with
  | idle _ hne => exact absurd rfl (hne j)
  | claimMiss _ => simp at hr
  | @claimUpdate _ c row copy hc hrow hg hcopy =>
      obtain rfl := (List.cons.inj (List.append_cancel_left hr)).1
      have hnew := step_row_of_writes h (.claim hc hrow hg) hrow
      refine ⟨_, ⟨by simp, rfl, rfl, hnew, rfl, ?_, fun h => ?_, fun h => ?_, by simp⟩⟩
      · simp [taskLeaseableStates]
      · cases h
      · cases h

/-- What somebody else may commit to a held row changes neither the lease nor a
settled status. -/
theorem Held.writes_other {u : TaskUpdate} (hh : s.Held k id owner r t)
    (hd : ¬ s.Disturbs k id a) (ha : ∀ now ev, a ≠ .runStep k now ev) (hw : s.Writes a id u) :
    u.leaseOwner = none ∧ (u.status = none ∨ ∃ st, u.status = some st ∧ st ∈ cancelStates) := by
  cases hw with
  | claim hc hrow hg =>
      cases hrow.symm.trans hh.row
      exact absurd (claimable_status hg) hh.busy
  | heartbeat => exact ⟨rfl, .inl rfl⟩
  | recover hrec hm => exact absurd ⟨_, _, hrec, hm⟩ hd
  | failure hf => exact absurd ⟨_, hf, rfl⟩ hd
  | @run j now ev q q' u hq _ =>
      by_cases hj : j = k
      · subst hj
        exact absurd rfl (ha now ev)
      · exact absurd ⟨hj, q, hq, rfl⟩ hd
  | @cancel _ w _ =>
      have hspec := cancelUpdate_spec w.made
      refine ⟨hspec.2.1, ?_⟩
      cases hu : w.update.status with
      | none => exact .inl rfl
      | some st => exact .inr ⟨st, rfl, hspec.1 st hu⟩

/-- A step of the run itself, seen from its row. -/
theorem Held.own_step {now : Time} {ev : RunEvent} (hh : s.Held k id owner r t)
    (h : s.step (.runStep k now ev) = some s') :
    ∃ u r', r.advance now (some t) ev = some (u, r') ∧ s'.runs[k]? = some r' ∧
      s'.tasks[id]? = some (u.apply t) := by
  rcases step_run h hh.run with ⟨_, _, u, r', he, hadv, hr'⟩ | ⟨hne, -⟩
  · cases he
    have hnew := step_row_of_writes h (.run hh.run hadv) (by rw [hh.taskId, hh.row])
    rw [hh.taskId] at hadv hnew
    rw [hh.row] at hadv
    exact ⟨u, r', hadv, hr', hnew⟩
  · exact absurd rfl (hne now ev)

/-- A step of the run itself keeps the hold, unless it is the last one. -/
theorem Held.step_self {now : Time} {ev : RunEvent} (hh : s.Held k id owner r t)
    (h : s.step (.runStep k now ev) = some s') :
    (∃ r' t', s'.Held k id owner r' t') ∨ s'.RunFinished k := by
  obtain ⟨u, r', hadv, hr', hnew⟩ := hh.own_step h
  have hspec := Run.advance_spec hadv
  by_cases hf : r'.point = .finished
  · exact .inr ⟨r', hr', hf⟩
  · have hp : r.point ≠ .commitClear := by
      intro hp
      cases ev with
      | go =>
          rw [Run.advance_commitClear hp] at hadv
          obtain ⟨-, rfl⟩ := Run.commit_eq_some hadv
          exact hf rfl
      | _ => simp [Run.advance, Run.interrupted, hp] at hadv
    refine .inl ⟨r', _, ⟨hr', ?_, ?_, hnew, ?_, ?_, ?_, ?_, hf⟩⟩
    · rw [hspec.taskId, hh.taskId]
    · rw [hspec.owner, hh.worker]
    · rw [TaskUpdate.apply_leaseOwner, (hspec.lease hp).1, Option.getD_none, hh.lease]
    · exact Run.advance_busy hadv hp hh.busy
    · exact Run.advance_settled hadv hh.settled
    · exact Run.advance_copy hadv

/-- A step of somebody else keeps the hold. -/
theorem Held.step_other (hh : s.Held k id owner r t) (hd : ¬ s.Disturbs k id a)
    (ha : ∀ now ev, a ≠ .runStep k now ev) (hr : s'.runs[k]? = some r)
    (h : s.step a = some s') : ∃ t', s'.Held k id owner r t' := by
  rcases step_row h hh.row with ⟨u, hw, hnew⟩ | ⟨-, hnew⟩
  · obtain ⟨hl, hst⟩ := hh.writes_other hd ha hw
    refine ⟨_, ⟨hr, hh.taskId, hh.worker, hnew, ?_, ?_, ?_, hh.copy, hh.open_⟩⟩
    · rw [TaskUpdate.apply_leaseOwner, hl, Option.getD_none, hh.lease]
    · rw [TaskUpdate.apply_status]
      rcases hst with hst | ⟨st, hst, hmem⟩
      · rw [hst]
        exact hh.busy
      · rw [hst]
        show st ∉ taskLeaseableStates
        revert hmem
        cases st <;> decide
    · intro ho
      rcases hst with hst | ⟨st, hst, hmem⟩
      · rw [TaskUpdate.apply_status, hst]
        exact hh.settled ho
      · refine Run.settled_of_cancelStates ?_
        rw [TaskUpdate.apply_status, hst]
        exact hmem
  · exact ⟨t, ⟨hr, hh.taskId, hh.worker, hnew, hh.lease, hh.busy, hh.settled, hh.copy,
      hh.open_⟩⟩

/-- One step of the platform: the run still holds its task, or has come to its end. -/
theorem Held.step (hh : s.Held k id owner r t) (hd : ¬ s.Disturbs k id a)
    (h : s.step a = some s') :
    (∃ r' t', s'.Held k id owner r' t') ∨ s'.RunFinished k := by
  rcases step_run h hh.run with ⟨now, ev, -, -, rfl, -, -⟩ | ⟨hne, hr'⟩
  · exact hh.step_self h
  · exact .inl ⟨r, hh.step_other hd hne hr' h⟩

/-- A finished run stays finished. -/
theorem RunFinished.step (hf : s.RunFinished k) (h : s.step a = some s') : s'.RunFinished k := by
  obtain ⟨r, hr, hp⟩ := hf
  rcases step_run h hr with ⟨now, ev, u, r', -, hadv, -⟩ | ⟨-, hr'⟩
  · rw [Run.advance_finished hp] at hadv
    cases hadv
  · exact ⟨r, hr', hp⟩

theorem not_released_of_lease (ht : s.tasks[id]? = some t) (hl : t.leaseOwner = some owner) :
    ¬ s.Released id := by
  rintro ⟨t', ht', -, hn, -⟩
  cases ht.symm.trans ht'
  rw [hl] at hn
  cases hn

/-- Skipping the release ends the run, with the lease or `cancel_requested` left. -/
theorem Held.skips (hh : s.Held k id owner r t) (hk : s.SkipsRelease k a)
    (h : s.step a = some s') : s'.RunFinished k ∧ ¬ s'.Released id := by
  cases a with
  | runStep j now ev =>
      obtain ⟨rfl, q, t', hq, ht', hc⟩ := hk
      obtain rfl := Option.some.inj (hh.run.symm.trans hq)
      rw [hh.taskId, hh.row] at ht'
      obtain rfl := Option.some.inj ht'
      obtain ⟨u, r', hadv, hr', hnew⟩ := hh.own_step h
      rcases hc with ⟨rfl, hp⟩ | ⟨rfl, hst, hp | ⟨hp, hcopy⟩⟩
      · -- the clean-up never ran
        simp only [Run.advance, Run.interrupted, hp, Option.bind_some] at hadv
        obtain ⟨rfl, rfl⟩ := Run.goto_eq_some hadv
        exact ⟨⟨_, hr', rfl⟩, not_released_of_lease hnew hh.lease⟩
      · -- the clean-up read `cancel_requested` and returned
        rw [Run.advance_returned hp] at hadv
        rcases Run.clear_returned hp hadv with ⟨rfl, ⟨hf, -⟩ | ⟨-, -, hterm⟩⟩
        · exact ⟨⟨_, hr', hf⟩, not_released_of_lease hnew hh.lease⟩
        · rw [hst] at hterm
          exact absurd hterm (by decide)
      · -- the release does not write the status
        rw [Run.advance_commitClear hp] at hadv
        obtain ⟨rfl, rfl⟩ := Run.commit_eq_some hadv
        refine ⟨⟨_, hr', rfl⟩, ?_⟩
        rintro ⟨t', ht', hs, -⟩
        cases hnew.symm.trans ht'
        have hu : ((clearUpdate now r.copy).getD {}).status = none := by
          rw [clearUpdate, if_neg hcopy, if_pos (hh.copy hp)]
          rfl
        rw [TaskUpdate.apply_status, hu, Option.getD_none, hst] at hs
        exact absurd hs (by decide)
  | _ => exact hk.elim

/-- The step that ends the run releases the row, unless it is a skip. -/
theorem Held.releases {now : Time} {ev : RunEvent} (hh : s.Held k id owner r t)
    (h : s.step (.runStep k now ev) = some s') (hf : s'.RunFinished k)
    (hk : ¬ s.SkipsRelease k (.runStep k now ev)) : s'.Released id := by
  obtain ⟨u, r', hadv, hr', hnew⟩ := hh.own_step h
  obtain ⟨q, hq, hp'⟩ := hf
  obtain rfl := Option.some.inj (hr'.symm.trans hq)
  have hrow : s.tasks[r.taskId]? = some t := by rw [hh.taskId, hh.row]
  rcases Run.advance_finishes hadv hp' with ⟨-, hp, rfl | ⟨rfl, hc⟩⟩ | ⟨rfl, hp, rfl⟩
  · exact absurd ⟨rfl, r, t, hh.run, hrow, .inl ⟨rfl, hp⟩⟩ hk
  · -- the row is settled and not terminal, so the clean-up met a cancel request
    have hset := hh.settled (by rw [hp]; rfl)
    have hst : t.status = .cancelRequested := by
      rcases hc with hl | hn
      · exact absurd (hh.worker.symm ▸ hh.lease) hl
      · simpa [settledStates, hn] using hset
    exact absurd ⟨rfl, r, t, hh.run, hrow, .inr ⟨rfl, hst, .inl hp⟩⟩ hk
  · have hset := hh.settled (by rw [hp]; rfl)
    have hcopy := hh.copy hp
    refine ⟨_, hnew, ?_⟩
    by_cases hretry : r.copy.status = .failed ∧ r.copy.attempt < r.copy.attemptLimit
    · rw [clearUpdate, if_pos hretry]
      simp [releaseLease]
    · have hst : t.status ≠ .cancelRequested := fun hst =>
        hk ⟨rfl, r, t, hh.run, hrow, .inr ⟨rfl, hst, .inr ⟨hp, hretry⟩⟩⟩
      have hterm : t.status ∈ taskTerminalStates := by simpa [settledStates, hst] using hset
      rw [clearUpdate, if_neg hretry, if_pos hcopy]
      simp [releaseLease, hterm]

/-- As long as the run is not over, no release was skipped and the hold stands. -/
theorem Held.run_open {as : List Action} (hh : s.Held k id owner r t)
    (hd : PartialRun.Along System.step (fun s a => ¬ s.Disturbs k id a) s as)
    (hrun : exec s as = some s') (hopen : ¬ s'.RunFinished k) :
    PartialRun.Along System.step (fun s a => ¬ s.SkipsRelease k a) s as ∧
      ∃ r' t', s'.Held k id owner r' t' := by
  induction as generalizing s r t with
  | nil =>
      cases hrun
      exact ⟨trivial, r, t, hh⟩
  | cons a as ih =>
      obtain ⟨u, hu, hrest⟩ := PartialRun.exec_cons_eq_some.mp hrun
      have hopen_u : ¬ u.RunFinished k := fun hf =>
        hopen (PartialRun.invariant_of_step (fun _ _ _ hf h => RunFinished.step hf h) hf hrest)
      rcases hh.step hd.1 hu with ⟨r', t', hh'⟩ | hf
      · have hih := ih hh' (hd.2 u hu) hrest
        refine ⟨⟨fun hk => hopen_u (hh.skips hk hu).1, fun v hv => ?_⟩, hih.2⟩
        obtain rfl := Option.some.inj (hu.symm.trans hv)
        exact hih.1
      · exact absurd hf hopen_u

/-- From the claim to the end of the run, with nobody else committing to the row but
`cancel_task` and the worker's own heartbeats: the row is released exactly when no
step skipped the release. -/
theorem finished_run_releases_iff {s₀ s₁ s₂ : System} {j : ℕ} {r : Run} {as : List Action}
    {now : Time} {ev : RunEvent} (hclaim : s₀.step (.claimUpdate j) = some s₁)
    (hr : s₁.runs = s₀.runs ++ [r])
    (hrun : exec s₁ (as ++ [.runStep s₀.runs.length now ev]) = some s₂)
    (hd : PartialRun.Along step (fun s a => ¬ s.Disturbs s₀.runs.length r.taskId a) s₁ as)
    (hf : s₂.RunFinished s₀.runs.length) :
    s₂.Released r.taskId ↔
      PartialRun.Along step (fun s a => ¬ s.SkipsRelease s₀.runs.length a) s₁
        (as ++ [.runStep s₀.runs.length now ev]) := by
  obtain ⟨t, hheld⟩ := held_of_claim hclaim hr
  obtain ⟨u, hu, hlast⟩ := PartialRun.exec_append_eq_some.mp hrun
  obtain ⟨v, hstep, hv⟩ := PartialRun.exec_cons_eq_some.mp hlast
  obtain rfl : v = s₂ := Option.some.inj hv
  have hopen : ¬ u.RunFinished s₀.runs.length := by
    rintro ⟨q, hq, hp⟩
    rcases step_run hstep hq with ⟨_, _, _, _, -, hadv, -⟩ | ⟨hne, -⟩
    · rw [Run.advance_finished hp] at hadv
      cases hadv
    · exact hne now ev rfl
  obtain ⟨halong, r', t', hheld'⟩ := hheld.run_open hd hu hopen
  rw [PartialRun.along_append]
  constructor
  · intro hrel
    refine ⟨halong, fun w hw => ⟨fun hk => (hheld'.skips ?_ hstep).2 hrel, fun _ _ => trivial⟩⟩
    obtain rfl := Option.some.inj (hu.symm.trans hw)
    exact hk
  · rintro ⟨-, h⟩
    exact hheld'.releases hstep hf (h u hu).1

/-- A run left to itself is not disturbed. -/
theorem own_steps_undisturbed {as : List Action}
    (h : ∀ a ∈ as, ∃ now ev, a = .runStep k now ev) :
    PartialRun.Along step (fun s a => ¬ s.Disturbs k id a) s as := by
  refine PartialRun.along_iff_split.mpr fun pre a post he u _ hd => ?_
  obtain ⟨now, ev, rfl⟩ := h a (by rw [he]; simp)
  exact hd.1 rfl

/-- A task whose parameters cannot be read, created and selected by a worker. -/
def malformedSelected : List Action :=
  [.create { taskType := "sync", params := { orchestration := .invalid "malformed" } } 0,
    .claimSelect "worker-a" 300 1 "00000000"]

/-- Its run fails in the planning phase and the clean-up schedules the retry. -/
theorem failed_run_releases :
    ∃ s₀ s₁ s₂, exec {} malformedSelected = some s₀ ∧ s₀.step (.claimUpdate 0) = some s₁ ∧
      exec s₁ [.runStep 0 2 .go, .runStep 0 3 .go, .runStep 0 4 .go, .runStep 0 5 .go,
        .runStep 0 6 .go, .runStep 0 7 .go] = some s₂ ∧ s₂.Released 0 ∧
      PartialRun.Along step (fun s a => ¬ s.SkipsRelease 0 a) s₁ [.runStep 0 2 .go,
        .runStep 0 3 .go, .runStep 0 4 .go, .runStep 0 5 .go, .runStep 0 6 .go,
        .runStep 0 7 .go] := by
  refine ⟨_, _, _, rfl, rfl, rfl, ⟨_, rfl, by decide, rfl, rfl, rfl⟩, ?_⟩
  have hclaim : ((exec {} malformedSelected).get rfl).step (.claimUpdate 0) = some _ := rfl
  have hundisturbed : ∀ a ∈ [Action.runStep 0 2 .go, .runStep 0 3 .go, .runStep 0 4 .go,
      .runStep 0 5 .go, .runStep 0 6 .go], ∃ now ev, a = .runStep 0 now ev := by simp
  exact (finished_run_releases_iff hclaim rfl rfl (own_steps_undisturbed hundisturbed)
    ⟨_, rfl, rfl⟩).mp ⟨_, rfl, by decide, rfl, rfl, rfl⟩

/-- A task whose run has committed its planning log when the cancel comes. -/
def cancelBeforeCheck : List Action :=
  [.runStep 0 2 .go, .runStep 0 2 .go, .runStep 0 2 .go, .runStep 0 2 .go, .cancelRead 0 3,
    .cancelCommit 0]

/-- The check sees the request, the run returns, and the clean-up leaves the row with
`cancel_requested` and the lease. -/
theorem cancelled_run_keeps_lease :
    ∃ s₀ s₁ s₂ s₃ t, exec {} [.create { taskType := "sync" } 0,
        .claimSelect "worker-a" 300 1 "00000000"] = some s₀ ∧
      s₀.step (.claimUpdate 0) = some s₁ ∧ exec s₁ cancelBeforeCheck = some s₂ ∧
      exec s₂ [.runStep 0 4 .go, .runStep 0 5 .go] = some s₃ ∧ s₃.RunFinished 0 ∧
      s₃.tasks[0]? = some t ∧ t.status = .cancelRequested ∧ t.leaseOwner = some "worker-a" ∧
      ¬ s₃.Released 0 :=
  ⟨_, _, _, _, _, rfl, rfl, rfl, rfl, ⟨_, rfl, rfl⟩, rfl, rfl, rfl,
    not_released_of_lease rfl rfl⟩

end System

end SmartMedia.Platform
