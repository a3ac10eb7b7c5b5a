import SmartMedia.Platform.Completion
import SmartMedia.Platform.Leases

/-!
# Who cancelled the task?

A cancel of the user and a shutdown of the worker reach `run_task` as the same
`CancelledError`, and its handler commits `cancelled` for both. A run gets there after a
check that saw a cancel request, or because it was interrupted. So a task is cancelled by
accident exactly when the handler commits for an interrupted run whose task nobody
cancelled. An interrupt behind `run_task` skips the clean-up instead.
-/
namespace SmartMedia.Platform

/-- On the way to the handler's commit. -/
def RunPoint.cancelling : RunPoint → Bool
  | .handlerCancelled _ | .queryCancelled | .commitCancelled => true
  | _ => false

/-- A failed task with attempts left, or an active one that nobody holds. -/
def Task.Stuck (t : Task) : Prop :=
  t.status = .failed ∧ t.attempt < t.attemptLimit ∨
    t.status ∈ taskActiveStates ∧ t.leaseUntil = none

namespace Run
variable {now : Time} {row : Option Task} {ev : RunEvent} {r r' : Run} {u : TaskUpdate}

/-- A step brings the copy up to date with its own commit, or reloads it. -/
theorem advance_reloads (h : r.advance now row ev = some (u, r')) :
    r'.copy = u.apply r.copy ∨ ∃ t, row = some t ∧ r'.copy.status = t.status := by
  have hgoto : ∀ {p : RunPoint}, r.goto p = some (u, r') → r'.copy = u.apply r.copy := by
    intro p hg
    obtain ⟨rfl, rfl⟩ := goto_eq_some hg
    rfl
  have hcommit : ∀ {v : TaskUpdate} {p : RunPoint},
      r.commit v p = some (u, r') → r'.copy = u.apply r.copy := by
    intro v p hv
    obtain ⟨rfl, rfl⟩ := commit_eq_some hv
    rfl
  have hcheck : ∀ {q : Run} {p p' : RunPoint}, q.check row p p' = some (u, r') →
      ∃ t, row = some t ∧ r'.copy.status = t.status := by
    intro q p p' hq
    obtain ⟨t, ht, -, rfl⟩ := check_eq_some hq
    exact ⟨t, ht, rfl⟩
  cases ev with
  | go =>
      rcases advance_go h with h | h
      · cases hp : r.point <;> simp only [runTask, hp] at h
        case query =>
          rcases row with _ | t
          · exact .inl (hgoto h)
          · cases he : ensureOrchestrationParams r.taskId r.uuid t.params <;>
              (simp only [he] at h; cases h; exact .inr ⟨t, rfl, rfl⟩)
        case checkRouted =>
          cases he : attemptCount r.orchestration <;>
            (simp only [he] at h; exact .inr (hcheck h))
        case commitItem n i => split_ifs at h <;> (obtain ⟨rfl, rfl⟩ := commit_eq_some h; exact .inl rfl)
        case retryWait n e => split_ifs at h <;> exact .inl (hgoto h)
        all_goals first
          | exact .inl (hgoto h)
          | exact .inr (hcheck h)
          | exact .inl (hcommit h)
          | cases h
      · cases hp : r.point <;> simp only [clearFinishedLease, hp] at h
        case returned =>
          rcases row with _ | t
          · exact .inl (hgoto h)
          · simp only at h
            split_ifs at h
            · exact .inl (hgoto h)
            · cases h
              exact .inr ⟨t, rfl, rfl⟩
        case commitClear => exact .inl (hcommit h)
        all_goals cases h
  | interrupt =>
      obtain ⟨p, -, hp⟩ := Option.bind_eq_some_iff.mp h
      exact .inl (hgoto hp)
  | progress p m =>
      simp only [advance] at h
      split at h <;> first | exact .inl (hgoto h) | cases h
  | handlerReturn result =>
      simp only [advance] at h
      split at h <;> (cases h; try exact .inl rfl)
  | handlerRaise e =>
      simp only [advance] at h
      split at h <;> first | exact .inl (hgoto h) | cases h

/-- Only the handler of `CancelledError` writes a cancel status. -/
theorem advance_status_cancel (h : r.advance now row ev = some (u, r')) {st : TaskStatus}
    (hu : u.status = some st) (hst : st ∈ cancelStates) :
    ev = .go ∧ r.point = .commitCancelled := by
  constructor
  · by_contra hev
    rw [advance_not_go h hev] at hu
    cases hu
  · have hmem := (advance_spec h).status st hu
    cases hp : r.point <;> simp_all [RunPoint.statusWrites, cancelStates]
    rcases hmem with rfl | rfl <;> simp at hst

/-- Where the copy of a run may get a cancel status from. -/
theorem advance_copy_cancel (h : r.advance now row ev = some (u, r'))
    (hst : r'.copy.status ∈ cancelStates) :
    r.copy.status ∈ cancelStates ∨ (∃ t, row = some t ∧ t.status ∈ cancelStates) ∨
      ev = .go ∧ r.point = .commitCancelled := by
  rcases advance_reloads h with hcopy | ⟨t, ht, hsame⟩
  · rw [hcopy, TaskUpdate.apply_status] at hst
    cases hu : u.status with
    | none =>
        rw [hu] at hst
        exact .inl hst
    | some st =>
        rw [hu] at hst
        exact .inr (.inr (advance_status_cancel h hu hst))
  · exact .inr (.inl ⟨t, ht, hsame ▸ hst⟩)

/-- A run turns to its cancellation by an interrupt or by what it read. -/
theorem advance_cancelling (h : r.advance now row ev = some (u, r'))
    (hc : r'.point.cancelling = true) :
    ev = .interrupt ∨ r'.copy.status ∈ cancelStates ∨
      r.point.cancelling = true ∧ r'.copy = r.copy := by
  have hcheck : ∀ {q : Run} {p p' : RunPoint}, p'.cancelling = false →
      q.check row p p' = some (u, r') → r'.copy.status ∈ cancelStates := by
    intro q p p' hp' hq
    obtain ⟨t, -, -, rfl⟩ := check_eq_some hq
    by_contra hst
    simp only at hst hc
    rw [if_neg hst, hp'] at hc
    cases hc
  cases ev with
  | go =>
      rcases advance_go h with h | h
      · cases hp : r.point <;> simp only [runTask, hp] at h
        case query =>
          rcases row with _ | t
          · cases h
            cases hc
          · cases he : ensureOrchestrationParams r.taskId r.uuid t.params <;>
              (simp only [he] at h; cases h; cases hc)
        case checkRouted =>
          cases he : attemptCount r.orchestration <;>
            (simp only [he] at h; exact .inr (.inl (hcheck rfl h)))
        case commitAttemptLog n =>
          obtain ⟨-, rfl⟩ := commit_eq_some h
          simp only [attemptBody] at hc
          split_ifs at hc <;> cases hc
        case commitItem n i => split_ifs at h <;> (cases h; cases hc)
        case retryWait n e => split_ifs at h <;> (cases h; cases hc)
        case handlerCancelled n =>
          cases h
          exact .inr (.inr ⟨rfl, rfl⟩)
        case queryCancelled =>
          cases h
          exact .inr (.inr ⟨rfl, rfl⟩)
        case queryFailed e =>
          obtain ⟨-, rfl⟩ := goto_eq_some h
          simp only at hc
          split_ifs at hc <;> cases hc
        all_goals first
          | exact .inr (.inl (hcheck rfl h))
          | (cases h; cases hc)
          | cases h
      · cases hp : r.point <;> simp only [clearFinishedLease, hp] at h
        case returned =>
          rcases row with _ | t
          · cases h
            cases hc
          · simp only at h
            split_ifs at h <;> (cases h; cases hc)
        case commitClear =>
          cases h
          cases hc
        all_goals cases h
  | interrupt => exact .inl rfl
  | progress p m | handlerRaise e =>
      simp only [advance] at h
      split at h <;> first | (cases h; cases hc) | cases h
  | handlerReturn result =>
      simp only [advance] at h
      split at h <;> (cases h; try cases hc)

/-- The step that ends the coroutine leaves the row as it is, or without its lease, though
the task is neither done nor in anybody's hands. -/
def EndsStuck (r : Run) (t : Task) (ev : RunEvent) : Prop :=
  r.point = .returned ∧ (ev = .interrupt ∨
      ev = .go ∧ (t.leaseOwner ≠ some r.owner ∨ t.status ∉ taskTerminalStates)) ∧ t.Stuck ∨
    r.point = .commitClear ∧ ev = .go ∧
      ¬ (r.copy.status = .failed ∧ r.copy.attempt < r.copy.attemptLimit) ∧
      (t.status = .failed ∧ t.attempt < t.attemptLimit ∨ t.status ∈ taskActiveStates)

/-- Such a step is an end. -/
theorem EndsStuck.finishes {t : Task} (hend : r.EndsStuck t ev)
    (h : r.advance now (some t) ev = some (u, r')) : r'.point = .finished := by
  rcases hend with ⟨hp, hev, -⟩ | ⟨hp, rfl, -, -⟩
  · rcases hev with rfl | ⟨rfl, hdecline⟩
    · rw [advance, hp] at h
      exact (congrArg Run.point (goto_eq_some h).2).trans rfl
    · have hskip : t.leaseOwner ≠ some r.owner ∨ clearUpdate now t = none :=
        hdecline.imp_right clearUpdate_none
      rw [advance_returned hp, clearFinishedLease, hp] at h
      simp only [if_pos hskip] at h
      exact (congrArg Run.point (goto_eq_some h).2).trans rfl
  · rw [advance_commitClear hp] at h
    exact (congrArg Run.point (commit_eq_some h).2).trans rfl

/-- What the step that ends the coroutine leaves of the row. -/
theorem stuck_after_iff {t : Task} (h : r.advance now (some t) ev = some (u, r'))
    (hf : r'.point = .finished) (hcopy : r.point = .commitClear → r.copy.status ∈ taskTerminalStates) :
    (u.apply t).Stuck ↔ r.EndsStuck t ev := by
  rcases advance_finishes h hf with ⟨rfl, hp, hev⟩ | ⟨rfl, hp, rfl⟩
  · rw [TaskUpdate.apply_empty]
    simp [EndsStuck, hp, hev]
  · have hterminal := hcopy hp
    by_cases hretry : r.copy.status = .failed ∧ r.copy.attempt < r.copy.attemptLimit
    · rw [clearUpdate, if_pos hretry]
      simp [EndsStuck, Task.Stuck, hp, hretry, releaseLease, taskActiveStates]
    · rw [clearUpdate, if_neg hretry, if_pos hterminal]
      have hleft : r.EndsStuck t .go ↔
          t.status = .failed ∧ t.attempt < t.attemptLimit ∨ t.status ∈ taskActiveStates := by
        simp only [EndsStuck, hp]
        tauto
      rw [hleft]
      simp [Task.Stuck, releaseLease]

end Run

/-- `cancel_task` was called on the task. -/
def CancelCalled (as : List Action) (id : ℕ) : Prop := ∃ now, Action.cancelRead id now ∈ as

/-- The shutdown interrupted the run. -/
def Interrupted (as : List Action) (k : ℕ) : Prop := ∃ now, Action.runStep k now .interrupt ∈ as

theorem CancelCalled.mono {as bs : List Action} {id : ℕ} (h : CancelCalled as id) :
    CancelCalled (as ++ bs) id :=
  h.imp fun _ hmem => List.mem_append_left bs hmem

theorem Interrupted.mono {as bs : List Action} {k : ℕ} (h : Interrupted as k) :
    Interrupted (as ++ bs) k :=
  h.imp fun _ hmem => List.mem_append_left bs hmem

namespace System
variable {s s' : System} {a : Action} {k id : ℕ} {t : Task} {u : TaskUpdate} {pre : List Action}

/-- Whatever shows a cancel goes back to a call of `cancel_task`, and a run on its way to
the handler's commit saw one or was interrupted. -/
structure Asked (pre : List Action) (s : System) : Prop where
  rows : ∀ (id : ℕ) (t : Task), s.tasks[id]? = some t → t.status ∈ cancelStates →
    CancelCalled pre id
  copies : ∀ (k : ℕ) (r : Run), s.runs[k]? = some r → r.copy.status ∈ cancelStates →
    CancelCalled pre r.taskId
  cancelling : ∀ (k : ℕ) (r : Run), s.runs[k]? = some r → r.point.cancelling = true →
    r.copy.status ∈ cancelStates ∨ Interrupted pre k
  recoveries : ∀ (k : ℕ) (rec : Recovery), s.recoveries[k]?.join = some rec →
    ∀ id copy, (id, copy) ∈ rec.selected → copy.status = .cancelRequested → CancelCalled pre id
  cancels : ∀ (k : ℕ) (w : Cancel), s.cancels[k]?.join = some w → CancelCalled pre w.id

/-- The handler of `CancelledError` commits for a run that was interrupted, on a task that
nobody cancelled. -/
def CancelsByAccident (pre : List Action) (s : System) (a : Action) : Prop :=
  ∃ k now r, a = .runStep k now .go ∧ s.runs[k]? = some r ∧ r.point = .commitCancelled ∧
    Interrupted pre k ∧ ¬ CancelCalled pre r.taskId

theorem asked_init : Asked [] {} := by
  constructor <;> simp

/-- A commit of a cancel status, unless it is an accident. -/
theorem Asked.writes (h : Asked pre s) (hacc : ¬ CancelsByAccident pre s a)
    (hw : s.Writes a id u) {st : TaskStatus} (hu : u.status = some st) (hst : st ∈ cancelStates) :
    CancelCalled pre id := by
  cases hw with
  | claim =>
      cases hu
      exact absurd hst (by decide)
  | heartbeat => cases hu
  | @recover k id rec copy hrec hm =>
      rw [recoverUpdate_status] at hu
      by_cases hc : copy.status = .cancelRequested
      · exact h.recoveries k rec hrec id copy hm hc
      · rw [if_neg hc] at hu
        cases hu
        split_ifs at hst
        · exact absurd hst (by decide)
        · exact absurd hst (by decide)
  | @run k now ev r r' u hr hadv =>
      obtain ⟨rfl, hp⟩ := Run.advance_status_cancel hadv hu hst
      rcases h.cancelling k r hr (by rw [hp]; rfl) with hcopy | hint
      · exact h.copies k r hr hcopy
      · by_contra hno
        exact hacc ⟨k, now, r, rfl, hr, hp, hint, hno⟩
  | @cancel k w hw => exact h.cancels k w hw
  | @failure k f hf =>
      rw [FailureRecord.update, failureUpdate_status] at hu
      cases hu
      split_ifs at hst
      · exact absurd hst (by decide)
      · exact absurd hst (by decide)

theorem Asked.rows_step (h : Asked pre s) (hacc : ¬ CancelsByAccident pre s a)
    (hs : s.step a = some s') (t' : Task) (ht' : s'.tasks[id]? = some t')
    (hst : t'.status ∈ cancelStates) : CancelCalled pre id := by
  cases ht : s.tasks[id]? with
  | none =>
      obtain ⟨taskIn, now, rfl⟩ := step_row_new hs ht ht'
      exact absurd hst (by simp [createTask, cancelStates])
  | some t =>
      rcases step_row hs ht with ⟨u, hw, hrow⟩ | ⟨-, hrow⟩
      · cases ht'.symm.trans hrow
        rw [TaskUpdate.apply_status] at hst
        cases hu : u.status with
        | none =>
            rw [hu] at hst
            exact h.rows id t ht hst
        | some st =>
            rw [hu] at hst
            exact h.writes hacc hw hu hst
      · cases ht'.symm.trans hrow
        exact h.rows id _ ht hst

/-- The claimed copy is `leased`, and nobody is on the way to a cancel. -/
theorem claimed_run {j : ℕ} {c : Claim} {copy : Task} (hs : s.step (.claimUpdate j) = some s')
    (hc : s.claims[j]?.join = some c)
    (hruns : s'.runs = s.runs ++
      [{ taskId := c.candidate, owner := c.owner, uuid := c.uuid, copy }]) :
    copy.status = .leased := by
  cases stepped hs with
  | claimMiss _ => simp at hruns
  | idle _ hne => exact absurd rfl (hne j)
  | @claimUpdate _ c' row copy' hc' hrow hg hcopy =>
      cases hc.symm.trans hc'
      cases (List.cons.inj (List.append_cancel_left hruns)).1
      have hw : s.Writes (.claimUpdate j) c.candidate
          (Platform.claimUpdate c.owner c.leaseSeconds c.now row) := .claim hc hrow hg
      have hnew := Table.get_updateAll_of_mem (s.commits_nodup (.claimUpdate j))
        (mem_of_writes hw) hrow
      cases hcopy.symm.trans hnew
      rfl

theorem Asked.runs_step (h : Asked pre s) (hacc : ¬ CancelsByAccident pre s a)
    (hs : s.step a = some s') (r' : Run) (hr' : s'.runs[k]? = some r') :
    (r'.copy.status ∈ cancelStates → CancelCalled pre r'.taskId) ∧
      (r'.point.cancelling = true →
        r'.copy.status ∈ cancelStates ∨ Interrupted (pre ++ [a]) k) := by
  have hkeep : s.runs[k]? = some r' →
      (r'.copy.status ∈ cancelStates → CancelCalled pre r'.taskId) ∧
        (r'.point.cancelling = true →
          r'.copy.status ∈ cancelStates ∨ Interrupted (pre ++ [a]) k) := fun hr =>
    ⟨h.copies k r' hr, fun hc => (h.cancelling k r' hr hc).imp_right Interrupted.mono⟩
  rcases step_runs hs with ⟨j, c, copy, rfl, hc, hruns⟩ | ⟨j, now, ev, q, u, r, rfl, hq, ha, hruns⟩ |
    ⟨-, hruns⟩
  · rw [hruns] at hr'
    by_cases hk : k < s.runs.length
    · rw [List.getElem?_append_left hk] at hr'
      exact hkeep hr'
    · rw [List.getElem?_append_right (not_lt.mp hk)] at hr'
      cases List.mem_singleton.mp (List.mem_of_getElem? hr')
      have hleased := claimed_run hs hc hruns
      refine ⟨fun hst => ?_, fun hcancelling => (by cases hcancelling)⟩
      rw [hleased] at hst
      exact absurd hst (by decide)
  · rw [hruns] at hr'
    by_cases hjk : j = k
    · subst hjk
      rw [List.getElem?_set_self (List.getElem?_eq_some_iff.mp hq).1] at hr'
      cases hr'
      rw [(Run.advance_spec ha).taskId]
      constructor
      · intro hst
        rcases Run.advance_copy_cancel ha hst with hcopy | ⟨t, ht, hrow⟩ | ⟨rfl, hp⟩
        · exact h.copies j q hq hcopy
        · exact h.rows q.taskId t ht hrow
        · rcases h.cancelling j q hq (by rw [hp]; rfl) with hcopy | hint
          · exact h.copies j q hq hcopy
          · by_contra hno
            exact hacc ⟨j, now, q, rfl, hq, hp, hint, hno⟩
      · intro hc
        rcases Run.advance_cancelling ha hc with rfl | hst | ⟨hc, hcopy⟩
        · exact .inr ⟨now, List.mem_append_right pre (List.mem_singleton_self _)⟩
        · exact .inl hst
        · rw [hcopy]
          exact (h.cancelling j q hq hc).imp_right Interrupted.mono
    · rw [List.getElem?_set_ne hjk] at hr'
      exact hkeep hr'
  · rw [hruns] at hr'
    exact hkeep hr'

theorem Asked.step (h : Asked pre s) (hacc : ¬ CancelsByAccident pre s a)
    (hs : s.step a = some s') : Asked (pre ++ [a]) s' where
  rows id t ht hst := (h.rows_step hacc hs t ht hst).mono
  copies k r hr hst := ((h.runs_step hacc hs r hr).1 hst).mono
  cancelling k r hr hc := (h.runs_step hacc hs r hr).2 hc
  recoveries k rec hrec id copy hm hst := by
    refine CancelCalled.mono ?_
    cases stepped hs with
    | recoverSelect now =>
        rcases join_of_append hrec with hrec | rfl
        · exact h.recoveries k rec hrec id copy hm hst
        · refine h.rows id copy (mem_expiredRows hm).1 ?_
          rw [hst]
          decide
    | recoverCommit _ => exact h.recoveries k rec (join_of_set_none hrec) id copy hm hst
    | heartbeat j leaseSeconds now =>
        simp only [List.getElem?_map] at hrec
        obtain ⟨rec', hrec', rfl⟩ : ∃ rec', s.recoveries[k]?.join = some rec' ∧ rec = { rec' with
            renewed := (s.commits (.heartbeat j leaseSeconds now)).map Prod.fst ++
              rec'.renewed } := by
          rcases hk : s.recoveries[k]? with _ | _ | rec' <;> simp_all
        exact h.recoveries k rec' hrec' id copy hm hst
    | _ => exact h.recoveries k rec hrec id copy hm hst
  cancels k w hw := by
    cases stepped hs with
    | cancelRead hrow =>
        rcases join_of_append hw with hw | rfl
        · exact (h.cancels k w hw).mono
        · exact ⟨_, List.mem_append_right pre (List.mem_singleton_self _)⟩
    | cancelCommit _ => exact (h.cancels k w (join_of_set_none hw)).mono
    | _ => exact (h.cancels k w hw).mono


/-- A recovery that comes once the lease has expired takes the task up again, or fails it
when its attempts are used up. -/
def RecoveredOnExpiry (s : System) (id : ℕ) : Prop :=
  ∃ t lease, s.tasks[id]? = some t ∧ t.leaseUntil = some lease ∧ ∀ now, lease ≤ now →
    ∃ s' t', exec s [.recoverSelect now, .recoverCommit s.recoveries.length] = some s' ∧
      s'.tasks[id]? = some t' ∧ (t'.status ∈ taskLeaseableStates ∨
        t'.status = .failed ∧ t'.attemptLimit ≤ t'.attempt)

/-- The task is done, goes back to work, or has failed for good. -/
def Resumable (s : System) (id : ℕ) : Prop :=
  ∃ t, s.tasks[id]? = some t ∧ (t.status ∈ taskLeaseableStates ∨
    t.status ∈ taskActiveStates ∧ s.RecoveredOnExpiry id ∨
    t.status ∈ [TaskStatus.completed, .partialSuccess] ∨
    t.status = .failed ∧ t.attemptLimit ≤ t.attempt)

theorem recoveredOnExpiry_iff (ht : s.tasks[id]? = some t) (hst : t.status ∈ taskActiveStates) :
    s.RecoveredOnExpiry id ↔ t.leaseUntil ≠ none := by
  constructor
  · rintro ⟨t', lease, ht', hlease, -⟩ hnone
    cases ht.symm.trans ht'
    rw [hnone] at hlease
    cases hlease
  · intro hne
    obtain ⟨lease, hlease⟩ := Option.ne_none_iff_exists'.mp hne
    refine ⟨t, lease, ht, hlease, fun now hnow => ?_⟩
    have hexp : expired now t = true := by
      rw [expired, hlease, Bool.and_eq_true]
      refine ⟨?_, ?_⟩
      · simp [hst]
      · simp [hnow]
    have hsel : (id, t) ∈ expiredRows now s.tasks := by
      refine List.mem_map.mpr ⟨(t, id), List.mem_filter.mpr ⟨?_, hexp⟩, rfl⟩
      exact List.mem_zipIdx_iff_getElem?.mpr ht
    -- the recovery that has just selected the row
    let recovery : Recovery := ⟨now, expiredRows now s.tasks, [], expiredRows_nodup now s.tasks⟩
    let s₁ : System := { s with recoveries := s.recoveries ++ [some recovery] }
    have hrec : s₁.recoveries[s.recoveries.length]?.join = some recovery := by
      simp [s₁]
    obtain ⟨s₂, hcommit⟩ : ∃ s₂, s₁.step (.recoverCommit s.recoveries.length) = some s₂ :=
      ⟨_, by simp only [step, hrec]; rfl⟩
    have hrow := step_row_of_writes hcommit (.recover hrec hsel) (ht : s₁.tasks[id]? = some t)
    refine ⟨s₂, _, ?_, hrow, ?_⟩
    · have hselect : s.step (.recoverSelect now) = some s₁ := rfl
      rw [exec, PartialRun.exec_cons, hselect, Option.bind_some, PartialRun.exec_cons, hcommit]
      rfl
    · have hnot : t.status ≠ .cancelRequested := by
        intro hc
        rw [hc] at hst
        exact absurd hst (by decide)
      rw [TaskUpdate.apply_status, recoverUpdate_status, if_neg hnot, TaskUpdate.apply_attemptLimit,
        TaskUpdate.apply_attempt, recoverUpdate_attempt]
      by_cases hlimit : t.attemptLimit ≤ t.attempt
      · rw [if_pos hlimit]
        exact .inr ⟨rfl, hlimit⟩
      · rw [if_neg hlimit]
        exact .inl (List.mem_cons_of_mem _ (List.mem_singleton_self _))

/-- Of a task that nobody cancelled. -/
theorem resumable_iff (ht : s.tasks[id]? = some t) (hst : t.status ∉ cancelStates) :
    s.Resumable id ↔ ¬ t.Stuck := by
  have hrecover : t.status ∈ taskActiveStates → (s.RecoveredOnExpiry id ↔ t.leaseUntil ≠ none) :=
    recoveredOnExpiry_iff ht
  have hres : s.Resumable id ↔ (t.status ∈ taskLeaseableStates ∨
      t.status ∈ taskActiveStates ∧ t.leaseUntil ≠ none ∨
      t.status ∈ [TaskStatus.completed, .partialSuccess] ∨
      t.status = .failed ∧ t.attemptLimit ≤ t.attempt) := by
    constructor
    · rintro ⟨t', ht', h⟩
      cases ht.symm.trans ht'
      exact h.imp_right (Or.imp_left fun h => ⟨h.1, (hrecover h.1).mp h.2⟩)
    · intro h
      exact ⟨t, ht, h.imp_right (Or.imp_left fun h => ⟨h.1, (hrecover h.1).mpr h.2⟩)⟩
  rw [hres]
  revert hst
  cases hstatus : t.status <;>
    simp [Task.Stuck, hstatus, cancelStates, taskLeaseableStates, taskActiveStates]

/-- A run in its clean-up holds a terminal copy. -/
def Closing (s : System) : Prop :=
  ∀ (k : ℕ) (r : Run), s.runs[k]? = some r → r.point = .commitClear →
    r.copy.status ∈ taskTerminalStates

theorem Closing.step (h : s.Closing) (hsound : s.Sound) (hs : s.step a = some s') :
    s'.Closing := by
  intro k r' hr' hp
  rcases step_runs hs with ⟨j, c, copy, rfl, -, hruns⟩ | ⟨j, now, ev, q, u, r, rfl, hq, ha, hruns⟩ |
    ⟨-, hruns⟩
  · rw [hruns] at hr'
    by_cases hk : k < s.runs.length
    · rw [List.getElem?_append_left hk] at hr'
      exact h k r' hr' hp
    · rw [List.getElem?_append_right (not_lt.mp hk)] at hr'
      cases List.mem_singleton.mp (List.mem_of_getElem? hr')
      cases hp
  · rw [hruns] at hr'
    by_cases hjk : j = k
    · subst hjk
      rw [List.getElem?_set_self (List.getElem?_eq_some_iff.mp hq).1] at hr'
      cases hr'
      obtain ⟨t, ht, -⟩ := hsound.runs j q hq
      rw [ht] at ha
      exact Run.advance_copy ha hp
    · rw [List.getElem?_set_ne hjk] at hr'
      exact h k r' hr' hp
  · rw [hruns] at hr'
    exact h k r' hr' hp

/-- A coroutine that the shutdown interrupted ends, nobody cancelled its task, and the task
is stuck. -/
def StrandsInterrupted (pre : List Action) (s : System) (a : Action) : Prop :=
  ∃ k now ev r t, a = .runStep k now ev ∧ s.runs[k]? = some r ∧ s.tasks[r.taskId]? = some t ∧
    Interrupted (pre ++ [a]) k ∧ ¬ CancelCalled pre r.taskId ∧ r.EndsStuck t ev

/-- Every cancelled task was cancelled by a call of `cancel_task`, and a task whose coroutine
ends after an interrupt is done, goes back to work or has failed for good. -/
structure ShutdownSafe (as : List Action) : Prop where
  cancelled : ∀ pre, pre <+: as → ∀ u, exec {} pre = some u → ∀ id t, u.tasks[id]? = some t →
    t.status = .cancelled → CancelCalled pre id
  interrupted : ∀ pre k now ev post, as = pre ++ .runStep k now ev :: post →
    ∀ u u', exec {} pre = some u → u.step (.runStep k now ev) = some u' →
    ∀ r', u'.runs[k]? = some r' → r'.point = .finished →
    Interrupted (pre ++ [.runStep k now ev]) k →
    ¬ CancelCalled (pre ++ [.runStep k now ev]) r'.taskId → u'.Resumable r'.taskId

theorem cancelCalled_snoc {now : Time} {ev : RunEvent} :
    CancelCalled (pre ++ [.runStep k now ev]) id ↔ CancelCalled pre id := by
  simp [CancelCalled]

/-- An accident shows in the row. -/
theorem CancelsByAccident.cancelled (h : CancelsByAccident pre s a) (hsound : s.Sound)
    (hs : s.step a = some s') : ∃ (k : ℕ) (now : Time) (id : ℕ) (t : Task),
      a = .runStep k now .go ∧ s'.tasks[id]? = some t ∧ t.status = .cancelled ∧
        ¬ CancelCalled pre id := by
  obtain ⟨k, now, r, rfl, hr, hp, -, hno⟩ := h
  obtain ⟨t, ht, -⟩ := hsound.runs k r hr
  have hadv : r.advance now s.tasks[r.taskId]? .go = r.commit
      { status := some .cancelled
        completedAt := some (some now)
        errorMessage := some (some "Cancelled by user") } .returned := by
    simp only [Run.advance, Run.runTask, hp]
    rfl
  exact ⟨k, now, r.taskId, _, rfl, step_row_of_writes hs (.run hr hadv) ht, rfl, hno⟩

/-- The end of an interrupted coroutine, from the row before it. -/
theorem resumable_after_iff {now : Time} {ev : RunEvent} {r r' : Run}
    (hclosing : s.Closing) (hasked : Asked (pre ++ [.runStep k now ev]) s')
    (hs : s.step (.runStep k now ev) = some s') (hr : s.runs[k]? = some r)
    (hr' : s'.runs[k]? = some r') (hf : r'.point = .finished)
    (hno : ¬ CancelCalled (pre ++ [.runStep k now ev]) r.taskId)
    (ht : s.tasks[r.taskId]? = some t) : s'.Resumable r.taskId ↔ ¬ r.EndsStuck t ev := by
  obtain ⟨now', ev', u, q, he, hadv, hq⟩ := (step_run hs hr).resolve_right
    fun hother => hother.1 now ev rfl
  cases he
  cases hr'.symm.trans hq
  have hrow := step_row_of_writes hs (.run hr hadv) ht
  have hst : (u.apply t).status ∉ cancelStates := fun hc => hno (hasked.rows _ _ hrow hc)
  rw [ht] at hadv
  rw [resumable_iff hrow hst, Run.stuck_after_iff hadv hf (hclosing k r hr)]

/-- What holds of a run without accidents. -/
theorem asked_of_exec (hacc : ∀ pre' a post, pre = pre' ++ a :: post → ∀ u,
    exec {} pre' = some u → ¬ CancelsByAccident pre' u a) (hrun : exec {} pre = some s) :
    Asked pre s :=
  PartialRun.invariant_of_history (P := fun pre s a => ¬ CancelsByAccident pre s a)
    (fun _ _ _ _ h hacc hs => h.step hacc hs) asked_init hacc hrun

theorem closing_of_exec (hrun : exec {} pre = some s) : s.Closing := by
  have hinv : s.Sound ∧ s.Closing := by
    refine PartialRun.invariant_of_step (I := fun s => s.Sound ∧ s.Closing)
      (fun _ _ _ h hs => ⟨h.1.step hs, h.2.step h.1 hs⟩) ⟨sound_init, ?_⟩ hrun
    intro k r hr
    simp at hr
  exact hinv.2

/-- In every run from the empty table: nobody is cancelled by accident and no interrupted
task is left stuck, exactly if the handler of `CancelledError` commits for no interrupted
run of a task that nobody cancelled, and no interrupted coroutine ends over a stuck row. -/
theorem shutdown_safe_iff {as : List Action} (hrun : exec {} as = some s) :
    ShutdownSafe as ↔ ∀ pre a post, as = pre ++ a :: post → ∀ u, exec {} pre = some u →
      ¬ CancelsByAccident pre u a ∧ ¬ StrandsInterrupted pre u a := by
  have hnext : ∀ pre a post, as = pre ++ a :: post → ∀ u, exec {} pre = some u →
      ∃ u', u.step a = some u' ∧ exec {} (pre ++ [a]) = some u' := by
    intro pre a post has u hu
    rw [has, PartialRun.exec_append_eq_some] at hrun
    obtain ⟨v, hv, hrest⟩ := hrun
    cases hu.symm.trans hv
    obtain ⟨u', hu', -⟩ := PartialRun.exec_cons_eq_some.mp hrest
    refine ⟨u', hu', PartialRun.exec_append_eq_some.mpr ⟨u, hu, ?_⟩⟩
    rw [PartialRun.exec_cons, hu', Option.bind_some, PartialRun.exec_nil]
  have hpart : ∀ pre a post, as = pre ++ a :: post → pre ++ [a] <+: as := by
    intro pre a post has
    exact ⟨post, by rw [has, List.append_assoc, List.singleton_append]⟩
  constructor
  · intro hsafe
    have hacc : ∀ pre a post, as = pre ++ a :: post → ∀ u, exec {} pre = some u →
        ¬ CancelsByAccident pre u a := by
      intro pre a post has u hu hbad
      obtain ⟨u', hstep, hu'⟩ := hnext pre a post has u hu
      obtain ⟨k, now, id, t, rfl, ht, hst, hno⟩ := hbad.cancelled (sound_of_exec hu) hstep
      have hcalled := hsafe.cancelled _ (hpart pre _ post has) u' hu' id t ht hst
      exact hno (cancelCalled_snoc.mp hcalled)
    intro pre a post has u hu
    refine ⟨hacc pre a post has u hu, fun hbad => ?_⟩
    obtain ⟨k, now, ev, r, t, rfl, hr, ht, hint, hno, hend⟩ := hbad
    obtain ⟨u', hstep, hu'⟩ := hnext pre _ post has u hu
    obtain ⟨now', ev', v, r', he, hadv, hr'⟩ := (step_run hstep hr).resolve_right
      fun hother => hother.1 now ev rfl
    cases he
    rw [ht] at hadv
    have hf := hend.finishes hadv
    have hid := (Run.advance_spec hadv).taskId
    have hno' : ¬ CancelCalled (pre ++ [.runStep k now ev]) r.taskId :=
      fun hc => hno (cancelCalled_snoc.mp hc)
    have hasked : Asked (pre ++ [.runStep k now ev]) u' := by
      refine asked_of_exec (fun pre' b post' hsplit => hacc pre' b (post' ++ post) ?_) hu'
      rw [has, ← List.singleton_append, ← List.append_assoc, hsplit, List.append_assoc]
      rfl
    have hres := hsafe.interrupted pre k now ev post has u u' hu hstep r' hr' hf hint (hid ▸ hno')
    rw [hid] at hres
    exact (resumable_after_iff (closing_of_exec hu) hasked hstep hr hr' hf hno' ht).mp hres hend
  · intro hcond
    have hasked : ∀ pre, pre <+: as → ∀ u, exec {} pre = some u → Asked pre u := by
      rintro pre ⟨post, has⟩ u hu
      refine asked_of_exec (fun pre' a post' hsplit v hv => ?_) hu
      refine (hcond pre' a (post' ++ post) ?_ v hv).1
      rw [← has, hsplit, List.append_assoc]
      rfl
    refine ⟨fun pre hpre u hu id t ht hst => ?_, ?_⟩
    · refine (hasked pre hpre u hu).rows id t ht ?_
      rw [hst]
      decide
    · intro pre k now ev post has u u' hu hstep r' hr' hf hint hno
      obtain ⟨v, hv, hu'⟩ := hnext pre _ post has u hu
      cases hstep.symm.trans hv
      obtain ⟨r, hr⟩ : ∃ r, u.runs[k]? = some r := by
        simp only [step, Option.bind_eq_bind, Option.bind_eq_some_iff] at hstep
        obtain ⟨r, hr, -⟩ := hstep
        exact ⟨r, hr⟩
      obtain ⟨now', ev', w, q, he, hadv, hq⟩ := (step_run hstep hr).resolve_right
        fun hother => hother.1 now ev rfl
      cases he
      cases hr'.symm.trans hq
      have hid := (Run.advance_spec hadv).taskId
      rw [hid] at hno ⊢
      obtain ⟨t, ht, -⟩ := (sound_of_exec hu).runs k r hr
      have hall := hasked _ (hpart pre _ post has) u' hu'
      refine (resumable_after_iff (closing_of_exec hu) hall hstep hr hr' hf hno ht).mpr fun hend => ?_
      exact (hcond pre _ post has u hu).2
        ⟨k, now, ev, r, t, rfl, hr, ht, hint, fun hc => hno hc.mono, hend⟩

/-- A worker that is shut down while its task is planned, and its handler. -/
def shutDownPlanning : List Action :=
  [.create { taskType := "sync" } 0, .claimSelect "worker-a" 300 1 "00000000", .claimUpdate 0,
    .runStep 0 2 .go, .runStep 0 2 .go, .runStep 0 2 .go, .runStep 0 2 .go,
    .runStep 0 3 .interrupt, .runStep 0 3 .go, .runStep 0 3 .go]

/-- A worker that dies in the same place, and the recovery after its lease. -/
def diedPlanning : List Action :=
  [.create { taskType := "sync" } 0, .claimSelect "worker-a" 300 1 "00000000", .claimUpdate 0,
    .runStep 0 2 .go, .runStep 0 2 .go, .runStep 0 2 .go, .runStep 0 2 .go,
    .recoverSelect 400, .recoverCommit 0]

theorem died_planning_safe : ShutdownSafe diedPlanning := by
  refine (shutdown_safe_iff (rfl : exec {} diedPlanning = some _)).mpr fun pre a post has u hu => ?_
  have hno : ∀ k, ¬ Interrupted (pre ++ [a]) k := by
    rintro k ⟨now, hmem⟩
    have hin : Action.runStep k now .interrupt ∈ diedPlanning := by
      rw [has, ← List.singleton_append, ← List.append_assoc]
      exact List.mem_append_left post hmem
    simp [diedPlanning] at hin
  constructor
  · rintro ⟨k, now, r, -, -, -, hint, -⟩
    exact hno k hint.mono
  · rintro ⟨k, now, ev, r, t, -, -, -, hint, -⟩
    exact hno k hint

/-- Nobody called `cancel_task`, and the row says it was cancelled by the user. -/
theorem cancelled_by_shutdown :
    ∃ s t, exec {} shutDownPlanning = some s ∧ s.tasks[0]? = some t ∧ t.status = .cancelled ∧
      t.errorMessage = some "Cancelled by user" ∧ ¬ CancelCalled shutDownPlanning 0 ∧
      ¬ ShutdownSafe shutDownPlanning := by
  have hno : ¬ CancelCalled shutDownPlanning 0 := by simp [CancelCalled, shutDownPlanning]
  refine ⟨_, _, rfl, rfl, rfl, rfl, hno, fun hsafe => ?_⟩
  exact hno (hsafe.cancelled _ (List.prefix_refl _) _ rfl 0 _ rfl rfl)

end System

end SmartMedia.Platform
