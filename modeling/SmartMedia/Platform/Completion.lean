import SmartMedia.Platform.Cancellation
import SmartMedia.Platform.Release
import SmartMedia.Platform.RetryBudget

/-!
# The completion time

Whoever ends a task writes the terminal status and `completed_at` in one commit, and
nobody ever clears the column. So it agrees with the status exactly as long as no commit
puts another status over a terminal one. The clean-up does this by design whenever a
failed attempt is to be repeated.
-/
namespace SmartMedia.Platform

/-- The update ends the task and says when. -/
def TaskUpdate.Ends (u : TaskUpdate) : Prop :=
  (∃ st ∈ taskTerminalStates, u.status = some st) ∧ ∃ now, u.completedAt = some (some now)

/-- The update does not end the task and leaves the completion time alone. -/
def TaskUpdate.GoesOn (u : TaskUpdate) : Prop :=
  (∀ st, u.status = some st → st ∉ taskTerminalStates) ∧ u.completedAt = none

/-- Neither terminal nor leaseable: one of the three progress statuses. -/
theorem RunPoint.progress_of_status {p : RunPoint} {st : TaskStatus} (h : st ∈ p.statusWrites)
    (hne : st ∉ taskTerminalStates) (hlease : st ∉ taskLeaseableStates) :
    p = .commitPlanning ∨ p = .commitRunning ∨ p = .commitReviewing := by
  cases p <;> simp_all [statusWrites, taskTerminalStates, taskLeaseableStates]

namespace Run
variable {now : Time} {row : Option Task} {ev : RunEvent} {r r' : Run} {u v : TaskUpdate}
  {p q : RunPoint}

theorem goesOn_empty : ({} : TaskUpdate).GoesOn := ⟨fun _ h => (by cases h), rfl⟩

theorem goesOn_goto (h : r.goto p = some (u, r')) : u.GoesOn := by
  obtain ⟨rfl, -⟩ := goto_eq_some h
  exact goesOn_empty

theorem goesOn_check (h : r.check row p q = some (u, r')) : u.GoesOn := by
  obtain ⟨t, -, rfl, -⟩ := check_eq_some h
  exact goesOn_empty

theorem finalUpdate_ends (r : Run) (now : Time) : (r.finalUpdate now).Ends := by
  unfold finalUpdate
  split_ifs
  · exact ⟨⟨.partialSuccess, by decide, rfl⟩, now, rfl⟩
  · exact ⟨⟨.completed, by decide, rfl⟩, now, rfl⟩

theorem runTask_ends (h : r.runTask now row = some (u, r')) : u.Ends ∨ u.GoesOn := by
  have hcommit : ∀ {q : Run} {v : TaskUpdate} {p : RunPoint}, v.Ends ∨ v.GoesOn →
      q.commit v p = some (u, r') → u.Ends ∨ u.GoesOn := by
    intro q v p hv hq
    obtain ⟨rfl, -⟩ := commit_eq_some hq
    exact hv
  have hsilent : ∀ {q : Run} {v : TaskUpdate} {p : RunPoint}, v.status = none →
      v.completedAt = none → q.commit v p = some (u, r') → u.Ends ∨ u.GoesOn := by
    intro q v p hst hc
    exact hcommit (.inr ⟨fun st h => (by rw [hst] at h; cases h), hc⟩)
  have hactive : ∀ {q : Run} {v : TaskUpdate} {p : RunPoint} {st : TaskStatus},
      v.status = some st → st ∉ taskTerminalStates → v.completedAt = none →
      q.commit v p = some (u, r') → u.Ends ∨ u.GoesOn := by
    intro q v p st hst hne hc
    exact hcommit (.inr ⟨fun st' h => Option.some.inj (hst.symm.trans h) ▸ hne, hc⟩)
  cases hp : r.point <;> simp only [runTask, hp] at h
  case query =>
    rcases row with _ | t
    · exact .inr (goesOn_goto h)
    · cases he : ensureOrchestrationParams r.taskId r.uuid t.params <;>
        (simp only [he] at h; cases h; exact .inr goesOn_empty)
  case commitPlanning => exact hactive rfl (by decide) rfl h
  case commitRunning => exact hactive rfl (by decide) rfl h
  case commitReviewing => exact hactive rfl (by decide) rfl h
  case commitFinal => exact hcommit (.inl (finalUpdate_ends r now)) h
  case commitCancelled => exact hcommit (.inl ⟨⟨.cancelled, by decide, rfl⟩, now, rfl⟩) h
  case commitFailed e => exact hcommit (.inl ⟨⟨.failed, by decide, rfl⟩, now, rfl⟩) h
  case checkRouted =>
    cases he : attemptCount r.orchestration with
    | ok n =>
        simp only [he] at h
        exact .inr (goesOn_check h)
    | error e =>
        simp only [he] at h
        exact .inr (goesOn_check h)
  case commitItem n i => split_ifs at h <;> exact hsilent rfl rfl h
  case retryWait n e => split_ifs at h <;> exact .inr (goesOn_goto h)
  all_goals first
    | exact .inr (goesOn_goto h)
    | exact .inr (goesOn_check h)
    | exact hsilent rfl rfl h
    | cases h

theorem clear_goesOn (now : Time) (copy : Task) : ((clearUpdate now copy).getD {}).GoesOn := by
  unfold clearUpdate
  split_ifs
  · exact ⟨fun st h => (by cases h; decide), rfl⟩
  · exact ⟨fun st h => (by cases h), rfl⟩
  · exact goesOn_empty

/-- A step of a claimed run ends the task or leaves the completion time alone. -/
theorem advance_ends (h : r.advance now row ev = some (u, r')) : u.Ends ∨ u.GoesOn := by
  by_cases hev : ev = .go
  · subst hev
    rcases advance_go h with h | h
    · exact runTask_ends h
    · cases hp : r.point <;> simp only [clearFinishedLease, hp] at h
      case returned =>
        rcases row with _ | t
        · exact .inr (goesOn_goto h)
        · simp only at h
          split_ifs at h
          · exact .inr (goesOn_goto h)
          · cases h
            exact .inr goesOn_empty
      case commitClear =>
        obtain ⟨rfl, -⟩ := commit_eq_some h
        exact .inr (clear_goesOn now r.copy)
      all_goals cases h
  · rw [advance_not_go h hev]
    exact .inr goesOn_empty

end Run

namespace System
variable {s s' : System} {a : Action} {id : ℕ} {t : Task} {u : TaskUpdate}

/-- `completed_at` is set for the terminal statuses and for no other. -/
def Truthful (s : System) : Prop :=
  ∀ (id : ℕ) (t : Task), s.tasks[id]? = some t →
    (t.completedAt ≠ none ↔ t.status ∈ taskTerminalStates)

/-- The action is an unguarded commit of a status that is not terminal: a retry, one of
the progress statuses of `run_task`, or a cancel request. -/
def Reopens (s : System) (id : ℕ) (a : Action) : Prop :=
  s.SchedulesRetry id a ∨
    match a with
    | .runStep k _ .go => ∃ r, s.runs[k]? = some r ∧ r.taskId = id ∧
        (r.point = .commitPlanning ∨ r.point = .commitRunning ∨ r.point = .commitReviewing)
    | .cancelCommit k => ∃ w, s.cancels[k]?.join = some w ∧ w.id = id ∧
        w.copy.status ∈ taskActiveStates ++ [.leased]
    | _ => False

/-- It does so to a task that has ended. -/
def ReopensEnded (s : System) (id : ℕ) (a : Action) : Prop :=
  s.Reopens id a ∧ ∃ t, s.tasks[id]? = some t ∧ t.status ∈ taskTerminalStates

theorem recoverUpdate_ends (now : Time) (copy : Task) :
    (recoverUpdate now copy).Ends ∨ (recoverUpdate now copy).GoesOn := by
  unfold recoverUpdate
  split_ifs
  · exact .inl ⟨⟨.cancelled, by decide, rfl⟩, now, rfl⟩
  · exact .inl ⟨⟨.failed, by decide, rfl⟩, now, rfl⟩
  · exact .inr ⟨fun st h => (by cases h; decide), rfl⟩

theorem failureUpdate_ends (e : String) (b m : ℕ) (now : Time) (copy : Task) :
    (failureUpdate e b m now copy).Ends ∨ (failureUpdate e b m now copy).GoesOn := by
  unfold failureUpdate
  split_ifs
  · exact .inl ⟨⟨.failed, by decide, rfl⟩, now, rfl⟩
  · exact .inr ⟨fun st h => (by cases h; decide), rfl⟩

theorem cancelUpdate_ends {now : Time} {copy : Task} (h : cancelUpdate now copy = some u) :
    u.Ends ∨ u.GoesOn := by
  unfold cancelUpdate at h
  split_ifs at h <;> cases h
  · exact .inr ⟨fun st h => (by cases h; decide), rfl⟩
  · exact .inl ⟨⟨.cancelled, by decide, rfl⟩, now, rfl⟩
  · exact .inr Run.goesOn_empty

/-- No commit sets the one column without the other. -/
theorem Writes.ends_or_goesOn (hw : s.Writes a id u) : u.Ends ∨ u.GoesOn := by
  cases hw with
  | claim => exact .inr ⟨fun st h => (by cases h; decide), rfl⟩
  | heartbeat => exact .inr ⟨fun st h => (by cases h), rfl⟩
  | recover => exact recoverUpdate_ends _ _
  | run _ hadv => exact Run.advance_ends hadv
  | @cancel _ w => exact cancelUpdate_ends w.made
  | failure => exact failureUpdate_ends _ _ _ _ _

/-- A status that is not terminal is written over a leaseable one, or unguarded. -/
theorem Writes.reopens (hw : s.Writes a id u) {st : TaskStatus} (hst : u.status = some st)
    (hne : st ∉ taskTerminalStates) (ht : s.tasks[id]? = some t) :
    t.status ∈ taskLeaseableStates ∨ s.Reopens id a := by
  by_cases hlease : st ∈ taskLeaseableStates
  · exact .inr (.inl (hw.schedules hst hlease))
  · refine Or.imp_right .inr ?_
    cases hw with
    | claim hc hrow hg =>
        cases ht.symm.trans hrow
        exact .inl (claimable_status hg)
    | heartbeat => cases hst
    | @recover k id rec copy hrec hm =>
        rw [recoverUpdate_status] at hst
        cases hst
        exfalso
        revert hne hlease
        split_ifs <;> decide
    | @run k now ev r r' u hr hadv =>
        have hgo : ev = .go := by
          by_contra hev
          rw [Run.advance_not_go hadv hev] at hst
          cases hst
        subst hgo
        have hmem := (Run.advance_spec hadv).status st hst
        exact .inr ⟨r, hr, rfl, RunPoint.progress_of_status hmem hne hlease⟩
    | @cancel k w hw =>
        refine .inr ⟨w, hw, rfl, ?_⟩
        have hmade := w.made
        unfold cancelUpdate at hmade
        split_ifs at hmade with h₁ h₂ h₃
        · exact h₂
        · rw [← Option.some.inj hmade] at hst
          cases hst
          exact absurd (by decide) hne
        · rw [← Option.some.inj hmade] at hst
          cases hst
    | @failure k f hf =>
        rw [FailureRecord.update, failureUpdate_status] at hst
        cases hst
        exfalso
        revert hne hlease
        split_ifs <;> decide

/-- An unguarded commit does reach the row. -/
theorem Reopens.writes (hr : s.Reopens id a) (h : s.step a = some s') :
    ∃ u st, s.Writes a id u ∧ u.status = some st ∧ st ∉ taskTerminalStates := by
  rcases hr with hr | hr
  · obtain ⟨u, hw, hu, -⟩ := hr.writes h
    exact ⟨u, _, hw, hu, by decide⟩
  · cases a with
    | runStep k now ev =>
        cases ev with
        | go =>
            obtain ⟨r, hr, rfl, hp⟩ := hr
            obtain ⟨u, r', hadv⟩ : ∃ u r', r.advance now s.tasks[r.taskId]? .go = some (u, r') := by
              simp only [step, Option.bind_eq_bind, Option.bind_eq_some_iff] at h
              obtain ⟨q, hq, ⟨u, r'⟩, hadv, -⟩ := h
              cases hr.symm.trans hq
              exact ⟨u, r', hadv⟩
            refine ⟨u, ?_⟩
            have hrun := hadv
            simp only [Run.advance] at hrun
            rcases hp with hp | hp | hp
            · simp only [Run.runTask, hp] at hrun
              cases hrun
              exact ⟨.planning, .run hr hadv, rfl, by decide⟩
            · simp only [Run.runTask, hp] at hrun
              cases hrun
              exact ⟨.running, .run hr hadv, rfl, by decide⟩
            · simp only [Run.runTask, hp] at hrun
              cases hrun
              exact ⟨.reviewing, .run hr hadv, rfl, by decide⟩
        | _ => exact hr.elim
    | cancelCommit k =>
        obtain ⟨w, hw, rfl, hactive⟩ := hr
        have hmade := w.made
        have hopen : w.copy.status ∉ taskTerminalStates := by
          revert hactive
          cases w.copy.status <;> decide
        rw [cancelUpdate, if_neg hopen, if_pos hactive] at hmade
        refine ⟨w.update, .cancelRequested, .cancel hw, ?_, by decide⟩
        rw [← Option.some.inj hmade]
    | _ => exact hr.elim

theorem truthful_apply (hu : u.Ends ∨ u.GoesOn)
    (ht : t.completedAt ≠ none ↔ t.status ∈ taskTerminalStates)
    (hover : ∀ st, u.status = some st → st ∉ taskTerminalStates → t.status ∉ taskTerminalStates) :
    (u.apply t).completedAt ≠ none ↔ (u.apply t).status ∈ taskTerminalStates := by
  rcases hu with ⟨⟨st, hst, hu⟩, now, hc⟩ | ⟨hst, hc⟩
  · simp [TaskUpdate.apply, hu, hc, hst]
  · cases hu : u.status with
    | none => simpa [TaskUpdate.apply, hu, hc] using ht
    | some st =>
        have hne := hst st hu
        have hrow := hover st hu hne
        simp only [TaskUpdate.apply, hu, hc, Option.getD_some, Option.getD_none]
        exact iff_of_false (fun h => hrow (ht.mp h)) hne

theorem truthful_step_iff (hs : s.Truthful) (h : s.step a = some s') :
    s'.Truthful ↔ ∀ id, ¬ s.ReopensEnded id a := by
  constructor
  · rintro hs' id ⟨hr, t, ht, hend⟩
    obtain ⟨u, st, hw, hst, hne⟩ := hr.writes h
    have hc : u.completedAt = none := by
      rcases hw.ends_or_goesOn with ⟨⟨st', hterminal, hst'⟩, -⟩ | hgo
      · cases hst.symm.trans hst'
        exact absurd hterminal hne
      · exact hgo.2
    have htruth := hs' id _ (step_row_of_writes h hw ht)
    simp only [TaskUpdate.apply, hst, hc, Option.getD_some, Option.getD_none] at htruth
    exact hne (htruth.mp ((hs id t ht).mpr hend))
  · intro hover id t' ht'
    cases ht : s.tasks[id]? with
    | none =>
        obtain ⟨taskIn, now, rfl⟩ := step_row_new h ht ht'
        have hpending : (createTask taskIn now).status ∉ taskTerminalStates := by
          simp [createTask, taskTerminalStates]
        exact iff_of_false (fun hc => hc rfl) hpending
    | some t =>
        rcases step_row h ht with ⟨u, hw, hrow⟩ | ⟨-, hrow⟩
        · cases ht'.symm.trans hrow
          refine truthful_apply hw.ends_or_goesOn (hs id t ht) fun st hst hne hend => ?_
          rcases hw.reopens hst hne ht with hlease | hr
          · revert hlease hend
            cases t.status <;> decide
          · exact hover id ⟨hr, t, ht, hend⟩
        · cases ht'.symm.trans hrow
          exact hs id _ ht

/-- In every run from the empty table: the completion time agrees with the status in every
state exactly if no unguarded commit reaches a task that has ended. -/
theorem completed_at_truthful_iff {as : List Action} (hrun : exec {} as = some s) :
    PartialRun.Throughout step Truthful {} as ↔
      PartialRun.Along step (fun s a => ∀ id, ¬ s.ReopensEnded id a) {} as :=
  PartialRun.throughout_iff_along (fun _ _ _ hs h => truthful_step_iff hs h)
    (fun _ _ h => by simp at h) hrun

/-- A task that is cancelled before any worker takes it. -/
def cancelledPending : List Action :=
  [.create { taskType := "sync" } 0, .cancelRead 0 1, .cancelCommit 0]

theorem cancelled_pending_truthful :
    PartialRun.Throughout step Truthful {} cancelledPending := by
  refine (completed_at_truthful_iff (rfl : exec {} cancelledPending = some _)).mpr ?_
  refine ⟨fun _ h => h.1.elim id id, fun s₁ h₁ => ⟨fun _ h => h.1.elim id id,
    fun s₂ h₂ => ⟨fun id h => ?_, fun _ _ => trivial⟩⟩⟩
  cases h₁
  cases h₂
  rcases h.1 with hr | ⟨w, hw, -, hactive⟩
  · exact hr
  · cases hw
    revert hactive
    decide

/-- The clean-up reschedules a failed attempt and keeps its completion time. -/
theorem retry_keeps_completed_at :
    ∃ s t, exec {} (malformedSelected ++ [.claimUpdate 0, .runStep 0 2 .go, .runStep 0 3 .go,
        .runStep 0 4 .go, .runStep 0 5 .go, .runStep 0 6 .go, .runStep 0 7 .go]) = some s ∧
      s.tasks[0]? = some t ∧ t.status = .retryScheduled ∧ t.completedAt = some 4 ∧
      ¬ s.Truthful := by
  refine ⟨_, _, rfl, rfl, rfl, rfl, fun htruth => ?_⟩
  exact absurd ((htruth 0 _ rfl).mp nofun) (by decide)

end System

end SmartMedia.Platform
