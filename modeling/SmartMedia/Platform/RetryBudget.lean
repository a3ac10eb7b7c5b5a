import SmartMedia.Platform.TaskSystem

/-!
# The retry budget and the owner of a renewed lease

A claim re-checks the row in its UPDATE; a recovery, a recorded failure and the
clean-up decide on a copy and write by primary key. The budget is therefore kept in
every state exactly when no such commit schedules a retry for a row that has no
attempt left, though the copy it decided on had. The owner of a renewed lease is kept
exactly when no recovery commits to a row that got a heartbeat since its SELECT.
-/
namespace SmartMedia.Platform

namespace System

/-- The attempts of every row are within its budget, with one to spare where the row
can be claimed. -/
def WithinBudget (s : System) : Prop :=
  ∀ (id : ℕ) (t : Task), s.tasks[id]? = some t →
    t.attempt ≤ t.maxAttempts ∧ (t.status ∈ taskLeaseableStates → t.attempt < t.maxAttempts)

/-- The action puts the row back to `retry_scheduled`, going by a copy with an attempt left. -/
def SchedulesRetry (s : System) (id : ℕ) : Action → Prop
  | .recoverCommit k => ∃ rec copy, s.recoveries[k]?.join = some rec ∧
      (id, copy) ∈ rec.selected ∧ copy.status ≠ .cancelRequested ∧
      copy.attempt < copy.attemptLimit
  | .failureCommit k => ∃ f, s.failures[k]?.join = some f ∧ f.id = id ∧
      f.copy.attempt < f.copy.attemptLimit
  | .runStep k _ .go => ∃ r, s.runs[k]? = some r ∧ r.taskId = id ∧ r.point = .commitClear ∧
      r.copy.status = .failed ∧ r.copy.attempt < r.copy.attemptLimit
  | _ => False

/-- It does so although the row itself has used up its attempts. -/
def Overspends (s : System) (id : ℕ) (a : Action) : Prop :=
  s.SchedulesRetry id a ∧ ∃ t, s.tasks[id]? = some t ∧ t.maxAttempts ≤ t.attempt

/-- A recovery commits to an owned row that got a heartbeat since its SELECT. -/
def TakesRenewed (s : System) (id : ℕ) : Action → Prop
  | .recoverCommit k => ∃ rec copy, s.recoveries[k]?.join = some rec ∧
      (id, copy) ∈ rec.selected ∧ id ∈ rec.renewed ∧
      ∃ t owner, s.tasks[id]? = some t ∧ t.leaseOwner = some owner
  | _ => False

/-- A successful claim, which starts a run, counts one attempt on its row. -/
def CountsClaim (s : System) (a : Action) : Prop :=
  ∀ k s' r, a = .claimUpdate k → s.step a = some s' → s'.runs = s.runs ++ [r] →
    ∃ t t', s.tasks[r.taskId]? = some t ∧ s'.tasks[r.taskId]? = some t' ∧
      t'.attempt = t.attempt + 1

/-- A recovery leaves the owner of the rows that got a heartbeat since its SELECT. -/
def KeepsRenewed (s : System) (a : Action) : Prop :=
  ∀ k rec s', a = .recoverCommit k → s.recoveries[k]?.join = some rec → s.step a = some s' →
    ∀ id ∈ rec.renewed, ∀ t owner, s.tasks[id]? = some t → t.leaseOwner = some owner →
      ∃ t', s'.tasks[id]? = some t' ∧ t'.leaseOwner = some owner

variable {s s' : System} {a : Action} {id : ℕ} {t : Task} {u : TaskUpdate}

theorem createTask_maxAttempts_pos (taskIn : TaskCreate) (now : Time) :
    0 < (createTask taskIn now).maxAttempts :=
  coercePositiveInt_pos taskIn.params.maxAttempts (by decide)

/-- A write that offers the row to the workers again schedules a retry. -/
theorem Writes.schedules (hw : s.Writes a id u) {st : TaskStatus} (hu : u.status = some st)
    (hst : st ∈ taskLeaseableStates) : s.SchedulesRetry id a := by
  cases hw with
  | claim =>
      cases hu
      exact absurd hst (by decide)
  | heartbeat => cases hu
  | @recover k id rec copy hrec hm =>
      rw [recoverUpdate_status] at hu
      have hne : copy.status ≠ .cancelRequested := by
        intro hc
        rw [if_pos hc] at hu
        cases hu
        exact absurd hst (by decide)
      have hlt : copy.attempt < copy.attemptLimit := by
        by_contra hge
        rw [if_neg hne, if_pos (not_lt.mp hge)] at hu
        cases hu
        exact absurd hst (by decide)
      exact ⟨rec, copy, hrec, hm, hne, hlt⟩
  | @failure k f hf =>
      have hlt : f.copy.attempt < f.copy.attemptLimit := by
        by_contra hge
        rw [FailureRecord.update, failureUpdate_status, if_pos (not_lt.mp hge)] at hu
        cases hu
        exact absurd hst (by decide)
      exact ⟨f, hf, rfl, hlt⟩
  | @run k now ev r r' u hr hadv =>
      have hp : r.point = .commitClear := by
        have hmem := (Run.advance_spec hadv).status st hu
        cases hq : r.point <;> simp_all [RunPoint.statusWrites, taskLeaseableStates]
        rcases hmem with rfl | rfl <;> simp at hst
      cases ev with
      | go =>
          rw [Run.advance_commitClear hp] at hadv
          obtain ⟨rfl, -⟩ := Run.commit_eq_some hadv
          have hretry : r.copy.status = .failed ∧ r.copy.attempt < r.copy.attemptLimit := by
            by_contra hn
            rw [clearUpdate, if_neg hn] at hu
            split_ifs at hu <;> cases hu
          exact ⟨r, hr, rfl, hp, hretry⟩
      | _ => simp [Run.advance, Run.interrupted, hp] at hadv
  | @cancel _ w _ =>
      have hmem := (cancelUpdate_spec w.made).1 st hu
      exfalso
      revert hmem hst
      cases st <;> decide

/-- Scheduling a retry writes `retry_scheduled` and leaves the attempt count. -/
theorem SchedulesRetry.writes (hr : s.SchedulesRetry id a) (h : s.step a = some s') :
    ∃ u, s.Writes a id u ∧ u.status = some .retryScheduled ∧ u.attempt = none := by
  cases a with
  | recoverCommit k =>
      obtain ⟨rec, copy, hrec, hm, hne, hlt⟩ := hr
      refine ⟨_, .recover hrec hm, ?_, recoverUpdate_attempt _ _⟩
      rw [recoverUpdate_status, if_neg hne, if_neg (not_le.mpr hlt)]
  | failureCommit k =>
      obtain ⟨f, hf, rfl, hlt⟩ := hr
      refine ⟨_, .failure hf, ?_, failureUpdate_attempt _ _ _ _ _⟩
      rw [FailureRecord.update, failureUpdate_status, if_neg (not_le.mpr hlt)]
  | runStep k now ev =>
      cases ev with
      | go =>
          obtain ⟨r, hrun, rfl, hp, hretry⟩ := hr
          simp only [System.step, Option.bind_eq_bind, Option.bind_eq_some_iff] at h
          obtain ⟨q, hq, ⟨u, r'⟩, hadv, -⟩ := h
          obtain rfl := Option.some.inj (hq.symm.trans hrun)
          refine ⟨u, .run hrun hadv, ?_, (Run.advance_spec hadv).attempt⟩
          rw [Run.advance_commitClear hp] at hadv
          rw [(Run.commit_eq_some hadv).1, clearUpdate, if_pos hretry]
          rfl
      | _ => exact hr.elim
  | _ => exact hr.elim

/-- Only a claim counts an attempt, and it finds a row with one left. -/
theorem Writes.attempt (hw : s.Writes a id u) (ht : s.tasks[id]? = some t) :
    u.attempt = none ∨ u.attempt = some (t.attempt + 1) ∧ u.status = some .leased ∧
      t.status ∈ taskLeaseableStates := by
  cases hw with
  | claim hc hrow hg =>
      cases hrow.symm.trans ht
      exact .inr ⟨rfl, rfl, claimable_status hg⟩
  | heartbeat => exact .inl rfl
  | recover _ _ => exact .inl (recoverUpdate_attempt _ _)
  | failure _ => exact .inl (failureUpdate_attempt _ _ _ _ _)
  | run _ hadv => exact .inl (Run.advance_spec hadv).attempt
  | @cancel _ w _ => exact .inl (cancelUpdate_spec w.made).2.2.2.2

/-- One step keeps the budget exactly if it does not overspend. -/
theorem withinBudget_step_iff (hs : s.WithinBudget) (h : s.step a = some s') :
    s'.WithinBudget ↔ ∀ id, ¬ s.Overspends id a := by
  constructor
  · intro hs' id hover
    obtain ⟨hretry, t, ht, hle⟩ := hover
    obtain ⟨u, hw, hu, hatt⟩ := hretry.writes h
    have hnew := (hs' id _ (step_row_of_writes h hw ht)).2
    rw [TaskUpdate.apply_status, hu, TaskUpdate.apply_attempt, hatt,
      TaskUpdate.apply_maxAttempts] at hnew
    have hlt : t.attempt < t.maxAttempts := hnew (by simp [taskLeaseableStates])
    omega
  · intro hno id t' ht'
    cases ht : s.tasks[id]? with
    | none =>
        obtain ⟨taskIn, now, rfl⟩ := step_row_new h ht ht'
        have hpos := createTask_maxAttempts_pos taskIn now
        exact ⟨Nat.zero_le _, fun _ => hpos⟩
    | some t =>
        obtain ⟨hle, hlt⟩ := hs id t ht
        rcases step_row h ht with ⟨u, hw, hnew⟩ | ⟨-, hnew⟩
        · obtain rfl := Option.some.inj (ht'.symm.trans hnew)
          rw [TaskUpdate.apply_attempt, TaskUpdate.apply_maxAttempts, TaskUpdate.apply_status]
          rcases hw.attempt ht with hu | ⟨hu, hst, hleaseable⟩
          · -- the attempt count stays, so only a retry could break the budget
            rw [hu, Option.getD_none]
            refine ⟨hle, fun hmem => ?_⟩
            cases hst : u.status with
            | none =>
                rw [hst] at hmem
                exact hlt hmem
            | some st =>
                rw [hst] at hmem
                have hretry := hw.schedules hst hmem
                by_contra hge
                exact hno id ⟨hretry, t, ht, not_lt.mp hge⟩
          · -- a claim takes the attempt the row had to spare
            have hspare := hlt hleaseable
            rw [hu, hst, Option.getD_some]
            exact ⟨hspare, fun hmem => absurd hmem (by simp [taskLeaseableStates])⟩
        · rw [Option.some.inj (ht'.symm.trans hnew)]
          exact ⟨hle, hlt⟩

theorem countsClaim (s : System) (a : Action) : s.CountsClaim a := by
  intro k s' r ha h hr
  subst ha
  cases stepped h with
  | idle _ hne => exact absurd rfl (hne k)
  | claimMiss _ => simp at hr
  | @claimUpdate _ c row copy hc hrow hg hcopy =>
      obtain rfl := (List.cons.inj (List.append_cancel_left hr)).1
      exact ⟨row, _, hrow, step_row_of_writes h (.claim hc hrow hg) hrow, rfl⟩

/-- The owner of a renewed lease survives a recovery exactly if it is not selected. -/
theorem keepsRenewed_iff : s.KeepsRenewed a ↔ ∀ id, ¬ s.TakesRenewed id a := by
  constructor
  · intro hkeep id htake
    cases a with
    | recoverCommit k =>
        obtain ⟨rec, copy, hrec, hm, hren, t, owner, ht, ho⟩ := htake
        have hstep : s.step (.recoverCommit k) = some { s with
            tasks := s.flushed (.recoverCommit k), recoveries := s.recoveries.set k none } := by
          simp [System.step, hrec]
        obtain ⟨t', ht', ho'⟩ := hkeep k rec _ rfl hrec hstep id hren t owner ht ho
        rw [step_row_of_writes hstep (.recover hrec hm) ht] at ht'
        obtain rfl := Option.some.inj ht'
        rw [TaskUpdate.apply_leaseOwner, recoverUpdate_leaseOwner] at ho'
        cases ho'
    | _ => exact htake.elim
  · intro hno k rec s' ha hrec h id hren t owner ht ho
    subst ha
    refine ⟨t, step_row_of_not_writes h (fun u hw => ?_) ht, ho⟩
    cases hw with
    | @recover _ _ rec' copy hrec' hm =>
        obtain rfl := Option.some.inj (hrec.symm.trans hrec')
        exact hno id ⟨rec, copy, hrec, hm, hren, t, owner, ht, ho⟩

/-- Over a whole run from the empty table: the budget holds in every state, every claim
counts one attempt and no recovery takes a renewed lease, exactly when no step schedules
a retry over the budget and none commits a recovery to a renewed row. -/
theorem budget_and_ownership_iff {as : List Action} (hrun : exec {} as = some s) :
    PartialRun.Throughout step WithinBudget {} as ∧
        PartialRun.Along step (fun s a => s.CountsClaim a ∧ s.KeepsRenewed a) {} as ↔
      PartialRun.Along step (fun s a => (∀ id, ¬ s.Overspends id a) ∧
        ∀ id, ¬ s.TakesRenewed id a) {} as := by
  have hbudget := PartialRun.throughout_iff_along
    (I := WithinBudget) (P := fun s a => ∀ id, ¬ s.Overspends id a)
    (fun s a s' hs h => withinBudget_step_iff hs h) (fun id t ht => by simp at ht) hrun
  have hkeep : (fun (s : System) a => s.CountsClaim a ∧ s.KeepsRenewed a) =
      fun s a => ∀ id, ¬ s.TakesRenewed id a := by
    funext s a
    rw [keepsRenewed_iff]
    exact propext ⟨fun h => h.2, fun h => ⟨countsClaim s a, h⟩⟩
  rw [hbudget, hkeep, PartialRun.along_and]

/-- A claim, its lease running out, and one recovery. -/
def recoveredOnce : List Action :=
  [.create { taskType := "sync" } 0, .claimSelect "worker-a" 10 1 "00000000", .claimUpdate 0,
    .recoverSelect 20, .recoverCommit 0]

/-- A single recovery finds two of the three attempts left and no heartbeat. -/
theorem recovered_once_within_budget :
    PartialRun.Throughout step WithinBudget {} recoveredOnce ∧
      PartialRun.Along step (fun s a => s.CountsClaim a ∧ s.KeepsRenewed a) {} recoveredOnce := by
  refine (budget_and_ownership_iff (rfl : exec {} recoveredOnce = some _)).mpr ?_
  refine ⟨⟨fun _ h => h.1, fun _ h => h⟩, fun s₁ h₁ => ⟨⟨fun _ h => h.1, fun _ h => h⟩,
    fun s₂ h₂ => ⟨⟨fun _ h => h.1, fun _ h => h⟩, fun s₃ h₃ => ⟨⟨fun _ h => h.1, fun _ h => h⟩,
    fun s₄ h₄ => ⟨⟨fun id h => ?_, fun id h => ?_⟩, fun _ _ => trivial⟩⟩⟩⟩⟩
  · cases h₁
    cases h₂
    cases h₃
    cases h₄
    obtain ⟨⟨rec, copy, hrec, hm, -⟩, t, ht, hle⟩ := h
    cases hrec
    cases List.mem_singleton.mp hm
    cases ht
    revert hle
    decide
  · cases h₁
    cases h₂
    cases h₃
    cases h₄
    obtain ⟨rec, copy, hrec, -, hren, -⟩ := h
    cases hrec
    cases hren

/-- Two workers start and both select the expired row; the second commits its recovery
after the first recovery and another claim. -/
def recoveredTwice : List Action :=
  [.create { taskType := "sync", params := { maxAttempts := .given 2 } } 0,
    .claimSelect "worker-a" 10 1 "00000000", .claimUpdate 0,
    .recoverSelect 20, .recoverSelect 20, .recoverCommit 0,
    .claimSelect "worker-b" 10 21 "00000001", .claimUpdate 1, .recoverCommit 1]

/-- The second recovery offers a task on its second of two attempts for a third. -/
theorem third_attempt_of_two :
    ∃ s s' t t', exec {} recoveredTwice = some s ∧
      exec s [.claimSelect "worker-c" 10 22 "00000002", .claimUpdate 2] = some s' ∧
      s.tasks[0]? = some t ∧ t.status = .retryScheduled ∧ t.attempt = 2 ∧ t.maxAttempts = 2 ∧
      s'.tasks[0]? = some t' ∧ t'.attempt = 3 ∧ t'.maxAttempts = 2 ∧
      ¬ s.WithinBudget ∧ ¬ s'.WithinBudget := by
  refine ⟨_, _, _, _, rfl, rfl, rfl, rfl, rfl, rfl, rfl, rfl, rfl, fun h => ?_, fun h => ?_⟩
  · exact absurd ((h 0 _ rfl).2 (by decide)) (by decide)
  · exact absurd (h 0 _ rfl).1 (by decide)

end System

end SmartMedia.Platform
