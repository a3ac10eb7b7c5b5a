import SmartMedia.Scrape.JobService

/-!
# What starts and stops promise

A `start_job` that finds a task for its job answers `True` without asking whether the task
is being cancelled. And a verdict can be replaced through a `stop_job` that had read the
row before it: by its commit, or by the task's own handler of the cancellation. Neither
happens when every task found is not being cancelled and no verdict falls into a stop.
-/
namespace SmartMedia.Scrape
open Media (Path ScrapeJob ScrapeJobStatus)

/-- The read of a `stop_job` that has not returned. -/
def Call.readNo (call : Call) : Option ℕ :=
  match call.stage with
  | .reading no _ | .stored no | .joining no _ => some no
  | _ => none

def Final (status : ScrapeJobStatus) : Prop := status = .completed ∨ status = .failed

namespace JobService

/-- A task that runs for the job and is not being cancelled. -/
def Runs (s : JobService) (job : ℕ) : Prop :=
  ∃ t ∈ s.tasks, t.jobId = job ∧ t.done = false ∧ t.cancelling = false

/-- For whom the step writes `cancelled`. -/
def author (s : JobService) : Action → Option ℕ
  | .storeCancelled i _ => s.calls[i]?.bind Call.readNo
  | .run i (.cancel _) => s.cancelledBy i
  | _ => none

/-- The step replaces a verdict on the job. -/
def Replaces (s s' : JobService) (job : ℕ) : Prop :=
  ∃ row row', s.jobs[job]? = some row ∧ s'.jobs[job]? = some row' ∧ Final row.status ∧
    row'.status = .cancelled

/-- A `start_job` that answers `True` in this step leaves a task that runs, and no verdict
is replaced for a `stop_job` that had read the row before it. -/
structure Agrees (s : JobService) (a : Action) (s' : JobService) : Prop where
  starts : ∀ i job : ℕ, s'.calls[i]? = some (Call.mk job (.started true)) →
    s.calls[i]? ≠ some (Call.mk job (.started true)) → s'.Runs job
  stops : ∀ job no, s.author a = some no → s.Replaces s' job → s.verdictAt job ≤ no

/-- No `stop_job` is under way for the job, and none of its tasks is being cancelled. -/
structure Undisturbed (s : JobService) (job : ℕ) : Prop where
  calls : ∀ call ∈ s.calls, call.job = job → call.readNo = none
  tasks : ∀ t ∈ s.tasks, t.jobId = job → t.done = false → t.cancelling = false

/-- The task found by a `start_job` is not being cancelled, and a verdict falls into no
stop. -/
def Orderly (s : JobService) : Action → Prop
  | .startJob job => ∀ i t, s.running job = some i → s.tasks[i]? = some t → t.cancelling = false
  | .run i event => ∀ t row row' t', s.tasks[i]? = some t → s.jobs[t.jobId]? = some row →
      t.step row event = some (row', t') → givesVerdict t' = true → s.Undisturbed t.jobId
  | _ => True

instance (s : JobService) (job : ℕ) : Decidable (s.Undisturbed job) :=
  decidable_of_iff ((∀ call ∈ s.calls, call.job = job → call.readNo = none) ∧
      ∀ t ∈ s.tasks, t.jobId = job → t.done = false → t.cancelling = false)
    ⟨fun h => ⟨h.1, h.2⟩, fun h => ⟨h.calls, h.tasks⟩⟩

instance (s : JobService) (job : ℕ) : Decidable (s.Runs job) :=
  inferInstanceAs (Decidable (∃ t ∈ s.tasks, t.jobId = job ∧ t.done = false ∧ t.cancelling = false))

instance (s : JobService) : ∀ a, Decidable (s.Orderly a)
  | .startJob job =>
      decidable_of_iff (∀ i ∈ s.running job, ∀ t ∈ s.tasks[i]?, t.cancelling = false)
        ⟨fun h i t hi ht => h i hi t ht, fun h i hi t ht => h i t hi ht⟩
  | .run i event =>
      decidable_of_iff (∀ t ∈ s.tasks[i]?, ∀ row ∈ s.jobs[t.jobId]?, ∀ p ∈ t.step row event,
          givesVerdict p.2 = true → s.Undisturbed t.jobId)
        ⟨fun h t row row' t' ht hrow hrun => h t ht row hrow (row', t') hrun,
          fun h t ht row hrow p hrun => h t row p.1 p.2 ht hrow hrun⟩
  | .acquire _ | .openRow _ _ | .createTask _ | .stopJob _ _ | .storeCancelled _ _
  | .cancelTask _ | .stopReturns _ => .isTrue trivial

/-- Whoever is about to write `cancelled` for a stop has read the row since the verdict. -/
structure Ordered (s : JobService) : Prop where
  active : ∀ job i, s.active job = some i → ∃ t, s.tasks[i]? = some t ∧ t.jobId = job
  reads : ∀ job, s.verdictAt job ≤ s.reads
  calls : ∀ call ∈ s.calls, ∀ no, call.readNo = some no → s.verdictAt call.job ≤ no
  tasks : ∀ i t, s.tasks[i]? = some t → t.done = false → ∀ no, s.cancelledBy i = some no →
    t.cancelling = true ∧ s.verdictAt t.jobId ≤ no
  fresh : ∀ i, s.tasks.length ≤ i → s.cancelledBy i = none

section Calls
variable {s : JobService} {job i : ℕ} {stage : CallStage}

theorem Ordered.addCall (h : s.Ordered) (hno : ∀ no, Call.readNo ⟨job, stage⟩ = some no →
    s.verdictAt job ≤ no) : (s.addCall job stage).Ordered := by
  refine ⟨h.active, h.reads, fun call hcall no hread => ?_, h.tasks, h.fresh⟩
  rcases List.mem_append.mp hcall with hcall | hcall
  · exact h.calls call hcall no hread
  · rw [List.mem_singleton.mp hcall] at hread ⊢
    exact hno no hread

theorem Ordered.setCall (h : s.Ordered) (hno : ∀ no, Call.readNo ⟨job, stage⟩ = some no →
    s.verdictAt job ≤ no) : (s.setCall i job stage).Ordered := by
  refine ⟨h.active, h.reads, fun call hcall no hread => ?_, h.tasks, h.fresh⟩
  rcases List.mem_or_eq_of_mem_set hcall with hcall | rfl
  · exact h.calls call hcall no hread
  · exact hno no hread

theorem Ordered.setRow (h : s.Ordered) (row : ScrapeJob) : (s.setRow job row).Ordered :=
  ⟨h.active, h.reads, h.calls, h.tasks, h.fresh⟩

theorem Ordered.setPermits (h : s.Ordered) (n : ℕ) : { s with permits := n }.Ordered :=
  ⟨h.active, h.reads, h.calls, h.tasks, h.fresh⟩

theorem Ordered.create (h : s.Ordered) (job : ℕ) : (s.create job).Ordered := by
  refine ⟨fun j i hi => ?_, h.reads, h.calls, fun i t ht hdone no hno => ?_, fun i hi => ?_⟩
  · by_cases hj : j = job
    · subst hj
      have hself : (s.create j).active j = some s.tasks.length := Function.update_self ..
      rw [hself] at hi
      cases hi
      exact ⟨{ jobId := j }, List.getElem?_concat_length, rfl⟩
    · have hother : (s.create job).active j = s.active j := Function.update_of_ne hj ..
      rw [hother] at hi
      obtain ⟨t, ht, hjob⟩ := h.active j i hi
      refine ⟨t, ?_, hjob⟩
      exact (List.getElem?_append_left (List.getElem?_eq_some_iff.mp ht).1).trans ht
  · by_cases hi : i < s.tasks.length
    · have hold : s.tasks[i]? = some t := by
        rw [← ht]
        exact (List.getElem?_append_left hi).symm
      exact h.tasks i t hold hdone no hno
    · rw [show (s.create job).cancelledBy i = none from h.fresh i (by omega)] at hno
      cases hno
  · refine h.fresh i ?_
    have hlength : (s.create job).tasks.length = s.tasks.length + 1 := List.length_append
    omega

theorem Ordered.cancel {t : Task} {author : Option ℕ} (h : s.Ordered)
    (ht : s.tasks[i]? = some t) (hno : ∀ no, author = some no → s.verdictAt t.jobId ≤ no) :
    (s.cancel i author).Ordered := by
  have hself : (s.cancel i author).tasks[i]? = some { t with cancelling := true } := by
    rw [JobService.cancel, List.getElem?_modify_eq, ht]
    rfl
  have hother : ∀ k, k ≠ i → (s.cancel i author).tasks[k]? = s.tasks[k]? := fun k hk =>
    List.getElem?_modify_ne _ _ (Ne.symm hk)
  have hauthor : (s.cancel i author).cancelledBy i = (s.cancelledBy i <|> author) :=
    Function.update_self ..
  have hauthors : ∀ k, k ≠ i → (s.cancel i author).cancelledBy k = s.cancelledBy k := fun k hk =>
    Function.update_of_ne hk ..
  refine ⟨fun j k hk => ?_, h.reads, h.calls, fun k u hu hdone no hread => ?_, fun k hk => ?_⟩
  · obtain ⟨u, hu, hjob⟩ := h.active j k hk
    by_cases hki : k = i
    · subst hki
      cases hu.symm.trans ht
      exact ⟨_, hself, hjob⟩
    · exact ⟨u, (hother k hki).trans hu, hjob⟩
  · by_cases hki : k = i
    · subst hki
      cases hself.symm.trans hu
      refine ⟨rfl, ?_⟩
      rw [hauthor] at hread
      cases hold : s.cancelledBy k with
      | some old =>
          rw [hold] at hread
          cases hread
          exact (h.tasks k t ht hdone _ hold).2
      | none =>
          rw [hold] at hread
          exact hno no hread
    · rw [hauthors k hki] at hread
      exact h.tasks k u ((hother k hki).symm.trans hu) hdone no hread
  · have hlength : (s.cancel i author).tasks.length = s.tasks.length := List.length_modify ..
    have hlt := (List.getElem?_eq_some_iff.mp ht).1
    rw [hauthors k (by omega)]
    exact h.fresh k (by omega)

theorem running_spec (h : s.Ordered) (hrunning : s.running job = some i) :
    ∃ t, s.tasks[i]? = some t ∧ t.jobId = job ∧ t.done = false := by
  obtain ⟨hactive, hdone⟩ := Option.filter_eq_some_iff.mp hrunning
  obtain ⟨t, ht, hjob⟩ := h.active job i hactive
  rw [ht] at hdone
  exact ⟨t, ht, hjob, by simpa using hdone⟩

theorem Ordered.cleanUp (h : s.Ordered) (job : ℕ) : (s.cleanUp job).Ordered := by
  have hunregistered : { s with active := Function.update s.active job none }.Ordered := by
    refine ⟨fun j i hi => ?_, h.reads, h.calls, h.tasks, h.fresh⟩
    by_cases hj : j = job
    · subst hj
      have hself : Function.update s.active j none j = none := Function.update_self ..
      cases hself.symm.trans hi
    · exact h.active j i ((Function.update_of_ne hj ..).symm.trans hi)
  rw [JobService.cleanUp]
  cases hrunning : s.running job with
  | none => exact hunregistered
  | some other =>
      obtain ⟨t, ht, -, -⟩ := running_spec h hrunning
      exact hunregistered.cancel ht fun no hno => (by cases hno)

/-- What a step of a task leaves besides the effect of its `finally` clause. -/
theorem runTask_cases {event : Event} {s' : JobService} (hstep : s.runTask i event = some s') :
    ∃ t row row' t', s.tasks[i]? = some t ∧ s.jobs[t.jobId]? = some row ∧
      t.step row event = some (row', t') ∧
      let s₁ := { s.setRow t.jobId row' with
        tasks := s.tasks.set i t'
        verdictAt :=
          if givesVerdict t' then Function.update s.verdictAt t.jobId s.reads else s.verdictAt }
      s' = s₁ ∨ t'.done = true ∧ s' = s₁.cleanUp t.jobId := by
  obtain ⟨t, ht, hstep⟩ := Option.bind_eq_some_iff.mp hstep
  obtain ⟨row, hrow, hstep⟩ := Option.bind_eq_some_iff.mp hstep
  obtain ⟨⟨row', t'⟩, hrun, hstep⟩ := Option.bind_eq_some_iff.mp hstep
  refine ⟨t, row, row', t', ht, hrow, hrun, ?_⟩
  cases hend : t'.done && leavesTry t event with
  | false =>
      simp only [hend] at hstep
      exact .inl (Option.some.inj hstep).symm
  | true =>
      simp only [hend, if_true] at hstep
      exact .inr ⟨(Bool.and_eq_true _ _ ▸ hend).1, (Option.some.inj hstep).symm⟩

theorem Ordered.setTask {row row' : ScrapeJob} {t t' : Task} {event : Event} (h : s.Ordered)
    (ht : s.tasks[i]? = some t) (hrun : t.step row event = some (row', t'))
    (hundisturbed : givesVerdict t' = true → s.Undisturbed t.jobId) :
    { s.setRow t.jobId row' with
      tasks := s.tasks.set i t'
      verdictAt := if givesVerdict t' then Function.update s.verdictAt t.jobId s.reads
        else s.verdictAt : JobService }.Ordered := by
  obtain ⟨hdone, hjob, hcancelling⟩ := Task.step_spec hrun
  have hlt := (List.getElem?_eq_some_iff.mp ht).1
  have hself : (s.tasks.set i t')[i]? = some t' := List.getElem?_set_self hlt
  have hother : ∀ k, k ≠ i → (s.tasks.set i t')[k]? = s.tasks[k]? := fun k hk =>
    List.getElem?_set_ne (Ne.symm hk)
  -- what is pending for a job with a new verdict contradicts the condition
  have hkept : ∀ job no, (job = t.jobId → givesVerdict t' = false) → s.verdictAt job ≤ no →
      (if givesVerdict t' then Function.update s.verdictAt t.jobId s.reads
        else s.verdictAt) job ≤ no := by
    intro job no hnew hle
    cases hv : givesVerdict t' with
    | false => exact hle
    | true =>
        have hne : job ≠ t.jobId := fun he => by
          rw [hnew he] at hv
          cases hv
        rw [if_pos rfl, Function.update_of_ne hne]
        exact hle
  refine ⟨fun j k hk => ?_, fun j => ?_, fun call hcall no hread => ?_,
    fun k u hu hud no hread => ?_, fun k hk => ?_⟩
  · obtain ⟨u, hu, huj⟩ := h.active j k hk
    by_cases hki : k = i
    · subst hki
      cases hu.symm.trans ht
      exact ⟨t', hself, hjob.trans huj⟩
    · exact ⟨u, (hother k hki).trans hu, huj⟩
  · cases hv : givesVerdict t' with
    | false => exact h.reads j
    | true =>
        by_cases hj : j = t.jobId
        · subst hj
          simp only [if_true, Function.update_self]
          exact le_rfl
        · simp only [if_true, Function.update_of_ne hj]
          exact h.reads j
  · refine hkept call.job no (fun hj => ?_) (h.calls call hcall no hread)
    by_contra hv
    rw [(hundisturbed (Bool.not_eq_false _ ▸ hv)).calls call hcall hj] at hread
    cases hread
  · by_cases hki : k = i
    · subst hki
      cases hself.symm.trans hu
      obtain ⟨hc, hle⟩ := h.tasks k t ht hdone no hread
      refine ⟨hcancelling.trans hc, ?_⟩
      rw [hjob]
      refine hkept t.jobId no (fun _ => ?_) hle
      by_contra hv
      have hquiet := (hundisturbed (Bool.not_eq_false _ ▸ hv)).tasks t (List.mem_of_getElem? ht) rfl
        hdone
      rw [hc] at hquiet
      cases hquiet
    · have hold : s.tasks[k]? = some u := (hother k hki).symm.trans hu
      obtain ⟨hc, hle⟩ := h.tasks k u hold hud no hread
      refine ⟨hc, hkept u.jobId no (fun hj => ?_) hle⟩
      by_contra hv
      have hquiet := (hundisturbed (Bool.not_eq_false _ ▸ hv)).tasks u (List.mem_of_getElem? hold)
        hj hud
      rw [hc] at hquiet
      cases hquiet
  · refine h.fresh k ?_
    have hlength : (s.tasks.set i t').length = s.tasks.length := List.length_set ..
    have hge : (s.tasks.set i t').length ≤ k := hk
    omega

theorem Ordered.step {a : Action} {s' : JobService} (h : s.Ordered) (horderly : s.Orderly a)
    (hstep : s.step a = some s') : s'.Ordered := by
  cases a with
  | startJob job =>
      simp only [JobService.step] at hstep
      split_ifs at hstep
      · cases hstep
        exact h.addCall fun no hno => (by cases hno)
      · cases hstep
        exact (h.setPermits _).addCall fun no hno => (by cases hno)
      · cases hstep
        exact h.addCall fun no hno => (by cases hno)
  | acquire i =>
      obtain ⟨call, -, hstep⟩ := Option.bind_eq_some_iff.mp hstep
      split_ifs at hstep
      cases hstep
      exact (h.setPermits _).setCall fun no hno => (by cases hno)
  | openRow i ok =>
      obtain ⟨call, -, hstep⟩ := Option.bind_eq_some_iff.mp hstep
      split_ifs at hstep
      split at hstep
      · split_ifs at hstep
        · cases hstep
          exact ((h.create _).setPermits _).setCall fun no hno => (by cases hno)
        · cases hstep
          exact (h.setRow _).setCall fun no hno => (by cases hno)
      · cases hstep
        exact (h.setPermits _).setCall fun no hno => (by cases hno)
  | createTask i =>
      obtain ⟨call, -, hstep⟩ := Option.bind_eq_some_iff.mp hstep
      split_ifs at hstep
      cases hstep
      exact ((h.create _).setPermits _).setCall fun no hno => (by cases hno)
  | stopJob job ok =>
      simp only [JobService.step] at hstep
      split at hstep
      · cases hstep
        have hread : { s with reads := s.reads + 1 }.Ordered :=
          ⟨h.active, fun j => (h.reads j).trans (Nat.le_succ _), h.calls, h.tasks, h.fresh⟩
        refine hread.addCall fun no hno => ?_
        cases hno
        exact h.reads job
      · cases hstep
        exact h.addCall fun no hno => (by cases hno)
  | storeCancelled i ok =>
      obtain ⟨call, hcall, hstep⟩ := Option.bind_eq_some_iff.mp hstep
      obtain ⟨row, hrow, hstep⟩ := Option.bind_eq_some_iff.mp hstep
      cases hstage : call.stage with
      | reading no status =>
          have hle : s.verdictAt call.job ≤ no :=
            h.calls call (List.mem_of_getElem? hcall) no (by rw [Call.readNo, hstage])
          simp only [hstage] at hstep
          split_ifs at hstep
          · cases hstep
            exact h.setCall fun n hn => (by cases hn; exact hle)
          · cases hstep
            exact (h.setRow _).setCall fun n hn => (by cases hn; exact hle)
          · cases hstep
            exact h.setCall fun n hn => (by cases hn)
      | _ => simp [hstage] at hstep
  | cancelTask i =>
      obtain ⟨call, hcall, hstep⟩ := Option.bind_eq_some_iff.mp hstep
      cases hstage : call.stage with
      | stored no =>
          have hle : s.verdictAt call.job ≤ no :=
            h.calls call (List.mem_of_getElem? hcall) no (by rw [Call.readNo, hstage])
          simp only [hstage] at hstep
          cases hrunning : s.running call.job with
          | some t =>
              obtain ⟨task, ht, hjob, -⟩ := running_spec h hrunning
              simp only [hrunning] at hstep
              cases hstep
              have hcancelled : (s.cancel t (some no)).Ordered :=
                h.cancel ht fun n hn => (by cases hn; rw [hjob]; exact hle)
              exact hcancelled.setCall fun n hn => (by cases hn; exact hle)
          | none =>
              simp only [hrunning] at hstep
              cases hstep
              exact h.setCall fun n hn => (by cases hn)
      | _ => simp [hstage] at hstep
  | stopReturns i =>
      obtain ⟨call, -, hstep⟩ := Option.bind_eq_some_iff.mp hstep
      cases hstage : call.stage with
      | joining no task =>
          simp only [hstage] at hstep
          cases hstep
          exact h.setCall fun n hn => (by cases hn)
      | _ => simp [hstage] at hstep
  | run i event =>
      obtain ⟨t, row, row', t', ht, hrow, hrun, hs'⟩ := runTask_cases hstep
      have htask := h.setTask ht hrun (horderly t row row' t' ht hrow hrun)
      rcases hs' with rfl | ⟨-, rfl⟩
      · exact htask
      · exact htask.cleanUp _

/-- A new task runs. -/
theorem create_runs (s : JobService) (job : ℕ) : (s.create job).Runs job :=
  ⟨{ jobId := job }, List.mem_append_right _ (List.mem_singleton.mpr rfl), rfl, rfl, rfl⟩

theorem addCall_new {k l : ℕ} {stage' : CallStage}
    (h : (s.addCall job stage).calls[k]? = some ⟨l, stage'⟩) (hnew : s.calls[k]? ≠ some ⟨l, stage'⟩) :
    l = job ∧ stage' = stage := by
  rcases Nat.lt_or_ge k s.calls.length with hk | hk
  · exact absurd ((List.getElem?_append_left hk).symm.trans h) hnew
  · have hlast : [(⟨job, stage⟩ : Call)][k - s.calls.length]? = some ⟨l, stage'⟩ :=
      (List.getElem?_append_right hk).symm.trans h
    have hmem := List.mem_singleton.mp (List.mem_of_getElem? hlast)
    exact ⟨congrArg Call.job hmem, congrArg Call.stage hmem⟩

theorem setCall_new {k l : ℕ} {stage' : CallStage}
    (h : (s.setCall i job stage).calls[k]? = some ⟨l, stage'⟩)
    (hnew : s.calls[k]? ≠ some ⟨l, stage'⟩) : l = job ∧ stage' = stage := by
  by_cases hki : k = i
  · subst hki
    have hlt : k < s.calls.length := by
      have := (List.getElem?_eq_some_iff.mp h).1
      rwa [show (s.setCall k job stage).calls.length = s.calls.length from List.length_set] at this
    have hself : (s.setCall k job stage).calls[k]? = some ⟨job, stage⟩ := List.getElem?_set_self hlt
    have hsame := Option.some.inj (hself.symm.trans h)
    exact ⟨(congrArg Call.job hsame).symm, (congrArg Call.stage hsame).symm⟩
  · exact absurd ((List.getElem?_set_ne (Ne.symm hki)).symm.trans h) hnew

/-- A verdict is replaced only where the step writes. -/
theorem replaced_job {s' : JobService} {j k : ℕ}
    (hothers : ∀ k, k ≠ j → s'.jobs[k]? = s.jobs[k]?) (h : s.Replaces s' k) : k = j := by
  obtain ⟨row, row', hrow, hrow', hfinal, hcancelled⟩ := h
  by_contra hk
  rw [hothers k hk, hrow] at hrow'
  cases hrow'
  rcases hfinal with hfinal | hfinal <;>
    (rw [hfinal] at hcancelled; cases hcancelled)

end Calls

/-- A `start_job` that answers `True` leaves a task that runs. -/
theorem starts_run {s s' : JobService} {a : Action} (h : s.Ordered) (horderly : s.Orderly a)
    (hstep : s.step a = some s') {k l : ℕ} (hk : s'.calls[k]? = some ⟨l, .started true⟩)
    (hnew : s.calls[k]? ≠ some ⟨l, .started true⟩) : s'.Runs l := by
  cases a with
  | startJob job =>
      simp only [JobService.step] at hstep
      split_ifs at hstep with hrunning hpermits
      · cases hstep
        obtain ⟨i, hi⟩ := Option.isSome_iff_exists.mp hrunning
        obtain ⟨t, ht, hjob, hdone⟩ := running_spec h hi
        obtain ⟨rfl, -⟩ := addCall_new hk hnew
        exact ⟨t, List.mem_of_getElem? ht, hjob, hdone, horderly i t hi ht⟩
      · cases hstep
        obtain ⟨-, hstage⟩ := addCall_new hk hnew
        cases hstage
      · cases hstep
        obtain ⟨-, hstage⟩ := addCall_new hk hnew
        cases hstage
  | acquire i =>
      obtain ⟨call, -, hstep⟩ := Option.bind_eq_some_iff.mp hstep
      split_ifs at hstep
      cases hstep
      obtain ⟨-, hstage⟩ := setCall_new hk hnew
      cases hstage
  | openRow i ok =>
      obtain ⟨call, -, hstep⟩ := Option.bind_eq_some_iff.mp hstep
      split_ifs at hstep
      split at hstep
      · split_ifs at hstep
        · cases hstep
          obtain ⟨rfl, -⟩ := setCall_new hk hnew
          exact create_runs s _
        · cases hstep
          obtain ⟨-, hstage⟩ := setCall_new hk hnew
          cases hstage
      · cases hstep
        obtain ⟨-, hstage⟩ := setCall_new hk hnew
        cases hstage
  | createTask i =>
      obtain ⟨call, -, hstep⟩ := Option.bind_eq_some_iff.mp hstep
      split_ifs at hstep
      cases hstep
      obtain ⟨rfl, -⟩ := setCall_new hk hnew
      exact create_runs s _
  | stopJob job ok =>
      simp only [JobService.step] at hstep
      split at hstep <;>
        (cases hstep; obtain ⟨-, hstage⟩ := addCall_new hk hnew; cases hstage)
  | storeCancelled i ok =>
      obtain ⟨call, hcall, hstep⟩ := Option.bind_eq_some_iff.mp hstep
      obtain ⟨row, hrow, hstep⟩ := Option.bind_eq_some_iff.mp hstep
      split at hstep
      · split_ifs at hstep <;>
          (cases hstep; obtain ⟨-, hstage⟩ := setCall_new hk hnew; cases hstage)
      · cases hstep
  | cancelTask i =>
      obtain ⟨call, hcall, hstep⟩ := Option.bind_eq_some_iff.mp hstep
      split at hstep
      · split at hstep <;>
          (cases hstep; obtain ⟨-, hstage⟩ := setCall_new hk hnew; cases hstage)
      · cases hstep
  | stopReturns i =>
      obtain ⟨call, -, hstep⟩ := Option.bind_eq_some_iff.mp hstep
      split at hstep
      · cases hstep
        obtain ⟨-, hstage⟩ := setCall_new hk hnew
        cases hstage
      · cases hstep
  | run i event =>
      obtain ⟨t, row, row', t', -, -, -, hs'⟩ := runTask_cases hstep
      rcases hs' with rfl | ⟨-, rfl⟩
      · exact absurd hk hnew
      · rw [(cleanUp_jobs _ _).2] at hk
        exact absurd hk hnew

/-- A verdict is replaced only for a `stop_job` that has read the row since. -/
theorem stops_read {s s' : JobService} {a : Action} (h : s.Ordered) (hstep : s.step a = some s')
    {job no : ℕ} (hauthor : s.author a = some no) (hreplaces : s.Replaces s' job) :
    s.verdictAt job ≤ no := by
  cases a with
  | storeCancelled i ok =>
      obtain ⟨call, hcall, hstep⟩ := Option.bind_eq_some_iff.mp hstep
      obtain ⟨row, hrow, hstep⟩ := Option.bind_eq_some_iff.mp hstep
      rw [author, hcall] at hauthor
      have hjob : job = call.job := by
        refine replaced_job (fun k hk => ?_) hreplaces
        split at hstep
        · split_ifs at hstep
          · cases hstep
            rfl
          · cases hstep
            exact List.getElem?_set_ne (Ne.symm hk)
          · cases hstep
            rfl
        · cases hstep
      rw [hjob]
      exact h.calls call (List.mem_of_getElem? hcall) no hauthor
  | run i event =>
      cases event with
      | cancel stored =>
          obtain ⟨t, row, row', t', ht, hrow, hrun, hs'⟩ := runTask_cases hstep
          have hjob : job = t.jobId := by
            refine replaced_job (fun k hk => ?_) hreplaces
            have hset : (s.jobs.set t.jobId row')[k]? = s.jobs[k]? :=
              List.getElem?_set_ne (Ne.symm hk)
            rcases hs' with rfl | ⟨-, rfl⟩
            · exact hset
            · rw [(cleanUp_jobs _ _).1]
              exact hset
          rw [hjob]
          exact (h.tasks i t ht (Task.step_spec hrun).1 no hauthor).2
      | _ => cases hauthor
  | _ => cases hauthor

/-- Nothing has been started or stopped. -/
theorem ordered_init (jobs : List ScrapeJob) : ({ jobs := jobs } : JobService).Ordered :=
  ⟨fun _ _ hi => (by cases hi), fun _ => le_rfl, fun _ hcall => (by cases hcall),
    fun _ _ ht => (by cases ht), fun _ _ => rfl⟩

/-- Starts and stops agree with what runs, in every run in which no `start_job` finds a
task that is being cancelled and no verdict falls into a stop. -/
theorem starts_and_stops_agree (jobs : List ScrapeJob) (actions : List Action)
    (horderly : PartialRun.Along step Orderly { jobs := jobs } actions) :
    PartialRun.Along step (fun s a => ∀ s', s.step a = some s' → s.Agrees a s')
      { jobs := jobs } actions := by
  refine PartialRun.along_of_along (I := Ordered) (fun s a s' h hP hstep => h.step hP hstep)
    (fun s a h hP s' hstep => ?_) (ordered_init jobs) horderly
  exact ⟨fun k l hk hnew => starts_run h hP hstep hk hnew,
    fun job no hauthor hreplaces => stops_read h hstep hauthor hreplaces⟩

/-- A job that is started, processes a film, and is stopped after its verdict. -/
theorem film_starts_and_stops_agree :
    PartialRun.Along step (fun s a => ∀ s', s.step a = some s' → s.Agrees a s')
      { jobs := [{ status := .pending }] }
      [.startJob 0, .openRow 0 true, .createTask 0, .run 0 .begin, .run 0 (.load ["film.mkv".toList]),
        .startJob 0, .run 0 .next, .run 0 (.settle .success), .run 0 .next, .stopJob 0 true,
        .storeCancelled 2 true, .cancelTask 2, .run 0 (.cancel true), .stopReturns 2] :=
  starts_and_stops_agree _ _ (by decide)

/-- A job that is stopped answers `True` to a start, and its only task is being cancelled. -/
theorem stopped_job_starts :
    ¬ PartialRun.Along step (fun s a => ∀ s', s.step a = some s' → s.Agrees a s')
      { jobs := [{ status := .pending }] }
      [.startJob 0, .openRow 0 true, .createTask 0, .run 0 .begin, .stopJob 0 true,
        .storeCancelled 1 true, .cancelTask 1, .startJob 0] := by
  intro h
  let s := (PartialRun.exec step { jobs := [{ status := .pending }] }
    [.startJob 0, .openRow 0 true, .createTask 0, .run 0 .begin, .stopJob 0 true,
      .storeCancelled 1 true, .cancelTask 1]).get (by decide)
  let s' := (s.step (.startJob 0)).get (by decide)
  have hagrees : s.Agrees (.startJob 0) s' := PartialRun.along_iff_split.mp h _ (.startJob 0) [] rfl
    s (Option.some_get _).symm s' (Option.some_get _).symm
  have hruns : s'.Runs 0 := hagrees.starts 2 0 (by decide) (by decide)
  revert hruns
  decide

end JobService

end SmartMedia.Scrape
