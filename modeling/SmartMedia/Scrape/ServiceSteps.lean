import SmartMedia.Scrape.JobService

/-!
# The steps of the scrape service

What a step of `JobService` can do to the rows, the calls and the progress of the tasks, said
once for the results about its users.
-/
namespace SmartMedia.Scrape
open Media (ScrapeJob ScrapeJobStatus)

namespace Task
variable {row row' : ScrapeJob} {t t' : Task} {e : Event}

theorem writeStatus_row (t : Task) (status : ScrapeJobStatus) (hstatus : status ≠ .running)
    (h : (t.writeStatus row status).status = .running) : row.status = .running := by
  unfold writeStatus at h
  split_ifs at h
  · exact h
  · exact absurd h hstatus

theorem finish_row (h : (finish row t).1.status = .running) : row.status = .running := by
  rw [finish] at h
  split_ifs at h
  · exact h
  · exact writeStatus_row t .completed (by decide) h
  · exact writeStatus_row t .failed (by decide) h

/-- No step of a task writes `running`. -/
theorem step_row (h : t.step row e = some (row', t')) (hrow : row'.status = .running) :
    row.status = .running := by
  cases step_moves h with
  | finishes => exact finish_row hrow
  | counts file rest success => exact hrow
  | fails => exact writeStatus_row t .failed (by decide) hrow
  | ends ending row' hdone hending hwritten =>
      rcases hwritten with rfl | rfl
      · exact hrow
      · exact writeStatus_row t .cancelled nofun hrow
  | _ => exact hrow

end Task

/-- In `start_job` before its task is created. -/
def Call.starting (call : Call) : Bool :=
  match call.stage with
  | .waiting | .inside | .committed => true
  | _ => false

/-- In `stop_job` after its read. -/
def Call.stopping (call : Call) : Bool :=
  match call.stage with
  | .reading _ _ | .stored _ | .joining _ _ => true
  | _ => false

/-- The `stop_job` has found `cancelled` or committed it. -/
def Call.cancelled (call : Call) : Bool :=
  match call.stage with
  | .reading _ status => status = .cancelled
  | .stored _ | .joining _ _ | .stopped true => true
  | _ => false

namespace JobService

/-- The job and the stage of every task. -/
def progress (s : JobService) : List (ℕ × Stage) := s.tasks.map fun t => (t.jobId, t.stage)

/-- The step is one that creates a task, if it is taken. -/
def creates (s : JobService) : Action → Bool
  | .openRow i ok => ok && (s.calls[i]?.bind fun call => s.jobs[call.job]?).any (·.status = .running)
  | .createTask _ => true
  | _ => false

/-- What a step that is not the first one of a call does: it moves a `start_job` on, opens
the row, creates the task, moves a `stop_job` on, stores `cancelled`, or runs a task. -/
inductive Inner (s : JobService) (a : Action) (s' : JobService) : Prop
  | moves (k : ℕ) (call : Call) (stage : CallStage) (hcall : s.calls[k]? = some call)
      (hstarting : call.starting = true) (hstage : Call.cancelled ⟨call.job, stage⟩ = false)
      (hcalls : s'.calls = s.calls.set k ⟨call.job, stage⟩) (hprogress : s'.progress = s.progress)
      (hjobs : s'.jobs = s.jobs)
  | opens (k : ℕ) (call : Call) (row : ScrapeJob) (hcall : s.calls[k]? = some call)
      (hstarting : call.starting = true) (hrow : s.jobs[call.job]? = some row)
      (hcalls : s'.calls = s.calls.set k ⟨call.job, .committed⟩)
      (hprogress : s'.progress = s.progress)
      (hjobs : s'.jobs = s.jobs.set call.job { row with status := .running })
  | creates (k : ℕ) (call : Call) (hcreates : s.creates a = true)
      (hcall : s.calls[k]? = some call) (hstarting : call.starting = true)
      (hcalls : s'.calls = s.calls.set k ⟨call.job, .started true⟩)
      (hprogress : s'.progress = s.progress ++ [(call.job, .created)]) (hjobs : s'.jobs = s.jobs)
  | stops (k : ℕ) (call : Call) (stage : CallStage) (hcall : s.calls[k]? = some call)
      (hstopping : call.stopping = true) (hstage : Call.starting ⟨call.job, stage⟩ = false)
      (hcancelled : Call.cancelled ⟨call.job, stage⟩ = true → call.cancelled = true)
      (hcalls : s'.calls = s.calls.set k ⟨call.job, stage⟩) (hprogress : s'.progress = s.progress)
      (hjobs : s'.jobs = s.jobs)
  | stores (k : ℕ) (call : Call) (no : ℕ) (row : ScrapeJob) (hcall : s.calls[k]? = some call)
      (hstopping : call.stopping = true) (hrow : s.jobs[call.job]? = some row)
      (hcalls : s'.calls = s.calls.set k ⟨call.job, .stored no⟩)
      (hprogress : s'.progress = s.progress)
      (hjobs : s'.jobs = s.jobs.set call.job { row with status := .cancelled })
  | runs (i job : ℕ) (stage stage' : Stage) (row row' : ScrapeJob)
      (hstage : s.progress[i]? = some (job, stage)) (hdone : stage.done = false)
      (hrow : s.jobs[job]? = some row) (hstatus : row'.status = .running → row.status = .running)
      (hcalls : s'.calls = s.calls) (hprogress : s'.progress = s.progress.set i (job, stage'))
      (hjobs : s'.jobs = s.jobs.set job row')

/-- The first step of a call. -/
def opensCall : Action → Bool
  | .startJob _ | .stopJob _ _ => true
  | _ => false

theorem runTask_inner {s s' : JobService} {i : ℕ} {event : Event}
    (hstep : s.runTask i event = some s') : Inner s (.run i event) s' := by
  obtain ⟨t, ht, hstep⟩ := Option.bind_eq_some_iff.mp hstep
  obtain ⟨row, hrow, hstep⟩ := Option.bind_eq_some_iff.mp hstep
  obtain ⟨⟨row', t'⟩, hrun, hstep⟩ := Option.bind_eq_some_iff.mp hstep
  obtain ⟨hdone, hjob, -⟩ := Task.step_spec hrun
  have hstage : s.progress[i]? = some (t.jobId, t.stage) := by
    rw [progress, List.getElem?_map, ht]
    rfl
  have hset : (s.tasks.set i t').map (fun t => (t.jobId, t.stage)) =
      s.progress.set i (t.jobId, t'.stage) := by
    rw [List.map_set, hjob]
    rfl
  cases hend : t'.done && leavesTry t event with
  | false =>
      simp only [hend] at hstep
      cases hstep
      exact .runs i t.jobId t.stage t'.stage row row' hstage hdone hrow (Task.step_row hrun) rfl
        hset rfl
  | true =>
      simp only [hend, if_true] at hstep
      cases hstep
      refine .runs i t.jobId t.stage t'.stage row row' hstage hdone hrow (Task.step_row hrun) ?_
        ((cleanUp_map (fun _ => rfl) _ _).trans hset) ?_
      · exact (cleanUp_jobs _ _).2
      · exact (cleanUp_jobs _ _).1

theorem step_inner {s s' : JobService} {a : Action} (ha : opensCall a = false)
    (hstep : s.step a = some s') : Inner s a s' := by
  cases a with
  | startJob job => cases ha
  | acquire i =>
      obtain ⟨call, hcall, hstep⟩ := Option.bind_eq_some_iff.mp hstep
      split_ifs at hstep with hwaiting
      cases hstep
      exact .moves i call .inside hcall (by rw [Call.starting, hwaiting.1]) rfl rfl rfl rfl
  | openRow i ok =>
      obtain ⟨call, hcall, hstep⟩ := Option.bind_eq_some_iff.mp hstep
      split_ifs at hstep with hinside
      have hstarting : call.starting = true := by rw [Call.starting, not_not.mp hinside]
      cases hrow : s.jobs[call.job]? with
      | none =>
          simp only [hrow] at hstep
          cases hstep
          exact .moves i call (.started false) hcall hstarting rfl rfl rfl rfl
      | some row =>
          cases ok with
          | false =>
              simp only [hrow] at hstep
              cases hstep
              exact .moves i call (.started false) hcall hstarting rfl rfl rfl rfl
          | true =>
              simp only [hrow] at hstep
              split_ifs at hstep with hstatus
              · cases hstep
                have hcreates : s.creates (.openRow i true) = true := by
                  simp only [creates, hcall, Option.bind_some, hrow]
                  exact decide_eq_true hstatus
                exact .creates i call hcreates hcall hstarting rfl List.map_append rfl
              · cases hstep
                exact .opens i call row hcall hstarting hrow rfl rfl rfl
  | createTask i =>
      obtain ⟨call, hcall, hstep⟩ := Option.bind_eq_some_iff.mp hstep
      split_ifs at hstep with hcommitted
      cases hstep
      have hstarting : call.starting = true := by rw [Call.starting, not_not.mp hcommitted]
      exact .creates i call rfl hcall hstarting rfl List.map_append rfl
  | stopJob job ok => cases ha
  | storeCancelled i ok =>
      obtain ⟨call, hcall, hstep⟩ := Option.bind_eq_some_iff.mp hstep
      obtain ⟨row, hrow, hstep⟩ := Option.bind_eq_some_iff.mp hstep
      cases hstage : call.stage with
      | reading no status =>
          have hstopping : call.stopping = true := by rw [Call.stopping, hstage]
          simp only [hstage] at hstep
          split_ifs at hstep with hok hcancelled
          · cases hstep
            refine .stops i call (.stored no) hcall hstopping rfl (fun _ => ?_) rfl rfl rfl
            rw [Call.cancelled, hstage]
            exact decide_eq_true hcancelled
          · cases hstep
            exact .stores i call no row hcall hstopping hrow rfl rfl rfl
          · cases hstep
            exact .stops i call (.stopped false) hcall hstopping rfl nofun rfl rfl rfl
      | _ => simp [hstage] at hstep
  | cancelTask i =>
      obtain ⟨call, hcall, hstep⟩ := Option.bind_eq_some_iff.mp hstep
      cases hstage : call.stage with
      | stored no =>
          have hstopping : call.stopping = true := by rw [Call.stopping, hstage]
          have hcancelled : call.cancelled = true := by rw [Call.cancelled, hstage]
          simp only [hstage] at hstep
          cases hrunning : s.running call.job with
          | some t =>
              simp only [hrunning] at hstep
              cases hstep
              exact .stops i call (.joining no t) hcall hstopping rfl (fun _ => hcancelled) rfl
                (cancel_map (fun _ => rfl) s t (some no)) rfl
          | none =>
              simp only [hrunning] at hstep
              cases hstep
              exact .stops i call (.stopped true) hcall hstopping rfl (fun _ => hcancelled) rfl rfl
                rfl
      | _ => simp [hstage] at hstep
  | stopReturns i =>
      obtain ⟨call, hcall, hstep⟩ := Option.bind_eq_some_iff.mp hstep
      cases hstage : call.stage with
      | joining no task =>
          have hstopping : call.stopping = true := by rw [Call.stopping, hstage]
          have hcancelled : call.cancelled = true := by rw [Call.cancelled, hstage]
          simp only [hstage] at hstep
          cases hstep
          exact .stops i call (.stopped true) hcall hstopping rfl (fun _ => hcancelled) rfl rfl rfl
      | _ => simp [hstage] at hstep
  | run i event => exact runTask_inner hstep

/-- The first step of a call adds it. -/
theorem startJob_adds {s s' : JobService} {job : ℕ} (hstep : s.step (.startJob job) = some s') :
    ∃ call : Call, call.job = job ∧ s'.calls = s.calls ++ [call] ∧ s'.progress = s.progress ∧
      s'.jobs = s.jobs := by
  simp only [step] at hstep
  split_ifs at hstep <;> (cases hstep; exact ⟨_, rfl, rfl, rfl, rfl⟩)

theorem stopJob_adds {s s' : JobService} {job : ℕ} {ok : Bool}
    (hstep : s.step (.stopJob job ok) = some s') :
    ∃ call : Call, call.job = job ∧ call.starting = false ∧
      (call.cancelled = true → s.jobs[job]?.any (·.status = .running) = false) ∧
      s'.calls = s.calls ++ [call] ∧ s'.progress = s.progress ∧ s'.jobs = s.jobs := by
  simp only [step] at hstep
  cases hrow : s.jobs[job]? with
  | none =>
      simp only [hrow] at hstep
      cases hstep
      exact ⟨⟨job, .stopped false⟩, rfl, rfl, nofun, rfl, rfl, rfl⟩
  | some row =>
      cases ok with
      | false =>
          simp only [hrow] at hstep
          cases hstep
          exact ⟨⟨job, .stopped false⟩, rfl, rfl, nofun, rfl, rfl, rfl⟩
      | true =>
          simp only [hrow] at hstep
          cases hstep
          refine ⟨_, rfl, rfl, fun hcancelled => ?_, rfl, rfl, rfl⟩
          have hstatus : row.status = .cancelled := of_decide_eq_true hcancelled
          rw [Option.any_some, hstatus]
          rfl

end JobService

end SmartMedia.Scrape
