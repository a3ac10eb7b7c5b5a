import SmartMedia.Platform.TaskSystem

/-!
# Is a cancel ever lost?

`cancel_task` writes `cancel_requested` (or `cancelled` for a task nobody works on)
and returns `True`. Afterwards the status can be overwritten: `run_task` commits
planning, running, reviewing, the final status and failed without looking at the
row, recovery and `record_task_failure` commit what they decided on copies, and the
clean-up may put a failed copy back to `retry_scheduled`. The guarded claim, the
heartbeat, the logs and progress commits and the `CancelledError` path never do.
So a cancel stands exactly in the runs in which none of those unguarded status
commits lands on it.
-/
namespace SmartMedia.Platform

/-- The next commit of this run puts a status other than a cancel status. -/
def Run.Overwrites (r : Run) : Prop :=
  match r.point with
  | .commitPlanning | .commitRunning | .commitReviewing | .commitFinal | .commitFailed _ => True
  | .commitClear => r.copy.status = .failed ∧ r.copy.attempt < r.copy.attemptLimit
  | _ => False

namespace System

/-- The row shows one of the statuses `_check_cancelled` stops for. -/
def CancelStands (s : System) (id : ℕ) : Prop :=
  ∃ t, s.tasks[id]? = some t ∧ t.status ∈ cancelStates

/-- The action is an unguarded commit of another status to the row: one of the
status commits of `run_task`, the clean-up's retry, the recovery of a copy that was
not `cancel_requested`, or a recorded failure. -/
def OverwritesCancel (s : System) (id : ℕ) : Action → Prop
  | .runStep k _ .go => ∃ r, s.runs[k]? = some r ∧ r.taskId = id ∧ r.Overwrites
  | .recoverCommit k => ∃ rec copy, s.recoveries[k]?.join = some rec ∧
      (id, copy) ∈ rec.selected ∧ copy.status ≠ .cancelRequested
  | .failureCommit k => ∃ f, s.failures[k]?.join = some f ∧ f.id = id
  | _ => False

end System

namespace Run
variable {now : Time} {row : Option Task} {ev : RunEvent} {r r' : Run} {u : TaskUpdate}

/-- Only the code itself commits; the handler's events and interrupts do not. -/
theorem advance_not_go (h : r.advance now row ev = some (u, r')) (hev : ev ≠ .go) : u = {} := by
  cases ev with
  | go => exact absurd rfl hev
  | interrupt =>
      obtain ⟨p, -, hp⟩ := Option.bind_eq_some_iff.mp h
      exact (goto_eq_some hp).1
  | progress p m =>
      simp only [advance] at h
      split at h <;> first | exact (goto_eq_some h).1 | cases h
  | handlerReturn result =>
      simp only [advance] at h
      split at h <;> (cases h; try rfl)
  | handlerRaise e =>
      simp only [advance] at h
      split at h <;> first | exact (goto_eq_some h).1 | cases h

theorem clear_status {copy : Task} (h : clearUpdate now copy = some u) :
    u.status = if copy.status = .failed ∧ copy.attempt < copy.attemptLimit
      then some .retryScheduled else none := by
  unfold clearUpdate at h
  split_ifs at h <;> cases h <;> simp_all [releaseLease]

/-- At an overwriting point the commit carries a status outside the cancel states. -/
theorem advance_overwrites (h : r.advance now row .go = some (u, r')) (ho : r.Overwrites) :
    ∃ st, u.status = some st ∧ st ∉ cancelStates := by
  cases hp : r.point <;> simp only [Overwrites, hp] at ho
  case commitFinal =>
    simp only [advance, runTask, hp] at h
    obtain ⟨rfl, -⟩ := commit_eq_some h
    rcases finalUpdate_status r now with hf | hf <;>
      exact ⟨_, hf, by decide⟩
  case commitClear =>
    rw [advance_commitClear hp] at h
    obtain ⟨rfl, -⟩ := commit_eq_some h
    refine ⟨.retryScheduled, ?_, by decide⟩
    rw [clearUpdate, if_pos ho]
    rfl
  all_goals
    simp only [advance, runTask, hp] at h
    obtain ⟨rfl, -⟩ := commit_eq_some h
    exact ⟨_, rfl, by decide⟩

/-- Every other step of a run writes no status, or `cancelled`. -/
theorem advance_keeps_cancel (h : r.advance now row ev = some (u, r'))
    (hn : ev = .go → ¬ r.Overwrites) {st : TaskStatus} (hst : u.status = some st) :
    st ∈ cancelStates := by
  by_cases hev : ev = .go
  · subst hev
    have hno := hn rfl
    have hmem := (advance_spec h).status st hst
    cases hp : r.point <;> simp only [Overwrites, hp, not_true_eq_false] at hno <;>
      simp only [RunPoint.statusWrites, hp, List.mem_singleton, List.not_mem_nil] at hmem
    case commitCancelled => subst hmem; decide
    case commitClear =>
      rw [advance_commitClear hp] at h
      obtain ⟨rfl, -⟩ := commit_eq_some h
      rcases hc : clearUpdate now r.copy with _ | v
      · rw [hc] at hst; cases hst
      · rw [hc, Option.getD_some, clear_status hc, if_neg hno] at hst
        cases hst
  · rw [advance_not_go h hev] at hst
    cases hst

end Run

namespace System
variable {s s' : System} {a : Action} {id : ℕ} {u : TaskUpdate} {t : Task}

/-- An overwriting action does write the row, and with a status that is not a cancel. -/
theorem OverwritesCancel.writes (ho : s.OverwritesCancel id a) (h : s.step a = some s') :
    ∃ u st, s.Writes a id u ∧ u.status = some st ∧ st ∉ cancelStates := by
  cases a with
  | runStep k now ev =>
      cases ev with
      | go =>
          obtain ⟨r, hr, rfl, hov⟩ := ho
          simp only [step, Option.bind_eq_bind, Option.bind_eq_some_iff] at h
          obtain ⟨q, hq, ⟨u, r'⟩, ha, -⟩ := h
          obtain rfl : q = r := Option.some.inj (hq.symm.trans hr)
          obtain ⟨st, hst, hne⟩ := Run.advance_overwrites ha hov
          exact ⟨u, st, .run hr ha, hst, hne⟩
      | _ => exact ho.elim
  | recoverCommit k =>
      obtain ⟨rec, copy, hrec, hm, hc⟩ := ho
      refine ⟨_, _, .recover hrec hm, recoverUpdate_status _ _, ?_⟩
      rw [if_neg hc]
      split_ifs <;> decide
  | failureCommit k =>
      obtain ⟨f, hf, rfl⟩ := ho
      refine ⟨_, _, .failure hf, failureUpdate_status _ _ _ _ _, ?_⟩
      split_ifs <;> decide
  | _ => exact ho.elim

/-- Every other action leaves a standing cancel standing. -/
theorem Writes.keeps_cancel (hw : s.Writes a id u) (hn : ¬ s.OverwritesCancel id a)
    (ht : s.tasks[id]? = some t) (hst : t.status ∈ cancelStates) :
    (u.apply t).status ∈ cancelStates := by
  rw [TaskUpdate.apply_status]
  cases hu : u.status with
  | none => exact hst
  | some st =>
      rw [Option.getD_some]
      cases hw with
      | @claim k c row hc hrow hg =>
          obtain rfl : row = t := Option.some.inj (hrow.symm.trans ht)
          have hl := claimable_status hg
          -- a leaseable row shows no cancel status
          exfalso
          revert hl hst
          cases row.status <;> decide
      | heartbeat => cases hu
      | @recover k id rec copy hrec hm =>
          have hc : copy.status = .cancelRequested := by
            by_contra hc
            exact hn ⟨rec, copy, hrec, hm, hc⟩
          rw [recoverUpdate_status, if_pos hc] at hu
          cases hu
          decide
      | run hr ha =>
          refine Run.advance_keeps_cancel ha (fun hev ho => hn ?_) hu
          subst hev
          exact ⟨_, hr, rfl, ho⟩
      | @cancel k w hwc => exact (cancelUpdate_spec w.made).1 st hu
      | failure hf => exact (hn ⟨_, hf, rfl⟩).elim

/-- One step: a standing cancel stays exactly if the step does not overwrite it. -/
theorem cancelStands_step_iff (hs : s.CancelStands id) (h : s.step a = some s') :
    s'.CancelStands id ↔ ¬ s.OverwritesCancel id a := by
  obtain ⟨t, ht, hst⟩ := hs
  constructor
  · rintro ⟨t', ht', hst'⟩ ho
    obtain ⟨u, st, hw, hu, hne⟩ := ho.writes h
    rw [step_row_of_writes h hw ht] at ht'
    obtain rfl := Option.some.inj ht'
    rw [TaskUpdate.apply_status, hu] at hst'
    exact hne hst'
  · intro hn
    rcases step_row h ht with ⟨u, hw, ht'⟩ | ⟨-, ht'⟩
    · exact ⟨_, ht', hw.keeps_cancel hn ht hst⟩
    · exact ⟨t, ht', hst⟩

/-- `cancel_task` leaves a standing cancel behind, unless it assigned nothing
because its copy was already `cancel_requested` and the row no longer is. -/
theorem cancelStands_commit_iff {k : ℕ} {w : Cancel} (hs : s.Sound)
    (hw : s.cancels[k]?.join = some w) (h : s.step (.cancelCommit k) = some s') :
    s'.CancelStands w.id ↔ (w.copy.status = .cancelRequested → s.CancelStands w.id) := by
  obtain ⟨t, ht, -⟩ := hs.cancels k w hw
  have hrow := step_row_of_writes h (.cancel hw) ht
  rcases hu : w.update.status with _ | st
  · have hcopy := cancelUpdate_status_none w.made hu
    have hstat : (w.update.apply t).status = t.status := by simp [hu]
    constructor
    · rintro ⟨t', ht', hst⟩ -
      obtain rfl := Option.some.inj (hrow.symm.trans ht')
      exact ⟨t, ht, hstat ▸ hst⟩
    · intro hc
      obtain ⟨t', ht', hst⟩ := hc hcopy
      obtain rfl := Option.some.inj (ht.symm.trans ht')
      exact ⟨_, hrow, hstat ▸ hst⟩
  · have hst : (w.update.apply t).status ∈ cancelStates := by
      simpa [hu] using (cancelUpdate_spec w.made).1 st hu
    have hnot : w.copy.status ≠ .cancelRequested := by
      intro hc
      have hmade := w.made
      simp only [cancelUpdate, hc] at hmade
      rw [← Option.some.inj hmade] at hu
      cases hu
    exact ⟨fun _ hc => absurd hc hnot, fun _ => ⟨_, hrow, hst⟩⟩

/-- A task is created, claimed and cancelled before its run has read it. -/
def cancelBeforeRun : List Action :=
  [.create { taskType := "sync" } 0, .claimSelect "worker-a" 300 1 "00000000", .claimUpdate 0,
    .cancelRead 0 2]

/-- The query of `run_task` and its commits up to `planning`. -/
def runToPlanning : List Action :=
  [.runStep 0 3 .go, .runStep 0 3 .go, .runStep 0 3 .go]

end System

end SmartMedia.Platform
