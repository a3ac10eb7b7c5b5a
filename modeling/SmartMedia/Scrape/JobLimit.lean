import SmartMedia.Library.Counting
import SmartMedia.Scrape.ServiceSteps

/-!
# What the semaphore limits

A permit is held while `start_job` creates the task, not while the task runs: at most ten
calls are inside `start_job` at a time, and any number of tasks runs. Ten is a bound for
the tasks as long as each is created while fewer than ten are unfinished.
-/
namespace SmartMedia.Scrape
open Media (Path ScrapeJob ScrapeJobStatus)

/-- Between the first step of `_process_job` and its last. -/
def Stage.begun : Stage → Bool
  | .created | .ended _ => false
  | _ => true

theorem Stage.begun_not_done {stage : Stage} (h : stage.begun = true) : stage.done = false := by
  cases stage with
  | ended ending => cases h
  | _ => rfl

/-- In the body of `async with self._job_semaphore`. -/
def Call.holds (call : Call) : Bool := call.stage = .inside || call.stage = .committed

namespace JobService

def stages (s : JobService) : List Stage := s.tasks.map (·.stage)

/-- How many tasks have begun and not ended. -/
def begun (s : JobService) : ℕ := s.stages.countP (·.begun)

def unfinished (s : JobService) : ℕ := s.stages.countP (!·.done)

theorem begun_le_unfinished (s : JobService) : s.begun ≤ s.unfinished :=
  List.countP_mono_left fun stage _ h => by rw [Stage.begun_not_done h]; rfl

section Stages
variable {s s' : JobService}

/-- What a step can do to the tasks. -/
theorem step_stages {a : Action} (hstep : s.step a = some s') :
    s'.stages = s.stages ∨ (s.creates a = true ∧ s'.stages = s.stages ++ [.created]) ∨
      ∃ i stage stage', s.stages[i]? = some stage ∧ stage.done = false ∧
        s'.stages = s.stages.set i stage' := by
  have hstages : ∀ u : JobService, u.stages = u.progress.map (·.2) := by
    intro u
    rw [stages, progress, List.map_map]
    rfl
  have hsame : s'.progress = s.progress → s'.stages = s.stages := by
    intro hprogress
    rw [hstages, hstages, hprogress]
  cases hopens : opensCall a with
  | true =>
      cases a with
      | startJob job =>
          obtain ⟨-, -, -, hprogress, -⟩ := startJob_adds hstep
          exact .inl (hsame hprogress)
      | stopJob job ok =>
          obtain ⟨-, -, -, -, -, hprogress, -⟩ := stopJob_adds hstep
          exact .inl (hsame hprogress)
      | _ => cases hopens
  | false =>
      cases step_inner hopens hstep with
      | creates k call hcreates hcall hstarting hcalls hprogress =>
          refine .inr (.inl ⟨hcreates, ?_⟩)
          rw [hstages, hstages, hprogress, List.map_append]
          rfl
      | runs i job stage stage' row row' hstage hdone hrow hstatus hcalls hprogress =>
          refine .inr (.inr ⟨i, stage, stage', ?_, hdone, ?_⟩)
          · rw [hstages, List.getElem?_map, hstage]
            rfl
          · rw [hstages, hstages, hprogress, List.map_set]
      | moves _ _ _ _ _ _ _ hprogress => exact .inl (hsame hprogress)
      | opens _ _ _ _ _ _ _ hprogress => exact .inl (hsame hprogress)
      | stops _ _ _ _ _ _ _ _ hprogress => exact .inl (hsame hprogress)
      | stores _ _ _ _ _ _ _ _ hprogress => exact .inl (hsame hprogress)

/-- Unfinished tasks become more only when one is created. -/
theorem step_unfinished {a : Action} (hstep : s.step a = some s') :
    s'.unfinished ≤ s.unfinished ∨ s.creates a = true ∧ s'.unfinished = s.unfinished + 1 := by
  rw [unfinished, unfinished]
  rcases step_stages hstep with hstages | ⟨hcreates, hstages⟩ | ⟨i, stage, stage', hi, hdone, hstages⟩
  · exact .inl (by rw [hstages])
  · refine .inr ⟨hcreates, ?_⟩
    rw [hstages, List.countP_append]
    rfl
  · rw [hstages]
    exact .inl (Counting.countP_set_le hi fun _ => by rw [hdone]; rfl)

end Stages

/-- How many permits of the semaphore are free or held. -/
def allPermits (s : JobService) : ℕ := s.permits + s.calls.countP (·.holds)

section Permits
variable {s s' : JobService} {i job : ℕ} {stage : CallStage} {call : Call}

theorem addCall_allPermits (s : JobService) (job : ℕ) (stage : CallStage) :
    (s.addCall job stage).allPermits = s.allPermits + if Call.holds ⟨job, stage⟩ then 1 else 0 := by
  have hcount : (s.calls ++ [Call.mk job stage]).countP (·.holds) =
      s.calls.countP (·.holds) + if Call.holds ⟨job, stage⟩ then 1 else 0 := by
    rw [List.countP_append, List.countP_singleton]
  rw [allPermits, allPermits, Nat.add_assoc, ← hcount]
  rfl

/-- Moving a call on keeps the number if the permit it takes or gives back is accounted for. -/
theorem setCall_allPermits {s₀ : JobService} (hcall : s.calls[i]? = some call)
    (hcalls : s₀.calls = s.calls)
    (hpermits : s₀.permits + (if Call.holds ⟨job, stage⟩ then 1 else 0) =
      s.permits + if call.holds then 1 else 0) :
    (s₀.setCall i job stage).allPermits = s.allPermits := by
  have hcount : (s.calls.set i ⟨job, stage⟩).countP (·.holds) + _ = _ :=
    Counting.countP_set_add hcall
  have hset : (s₀.setCall i job stage).allPermits =
      s₀.permits + (s₀.calls.set i ⟨job, stage⟩).countP (·.holds) := rfl
  rw [hset, hcalls, allPermits]
  omega

theorem cleanUp_allPermits (s : JobService) (job : ℕ) :
    (s.cleanUp job).allPermits = s.allPermits := by
  rw [cleanUp]
  cases s.running job <;> rfl

/-- A step neither makes nor loses a permit. -/
theorem step_allPermits {a : Action} (hstep : s.step a = some s') :
    s'.allPermits = s.allPermits := by
  cases a with
  | startJob job =>
      simp only [step] at hstep
      split_ifs at hstep with hrunning hpermits
      · cases hstep
        exact addCall_allPermits s job _
      · cases hstep
        rw [addCall_allPermits]
        have hless : { s with permits := s.permits - 1 }.allPermits =
          s.permits - 1 + s.calls.countP (·.holds) := rfl
        have hone : (if Call.holds ⟨job, .inside⟩ then 1 else 0) = 1 := rfl
        rw [hless, hone, allPermits]
        omega
      · cases hstep
        exact addCall_allPermits s job _
  | acquire i =>
      obtain ⟨call, hcall, hstep⟩ := Option.bind_eq_some_iff.mp hstep
      split_ifs at hstep with hwaiting
      cases hstep
      have hholds : call.holds = false := by rw [Call.holds, hwaiting.1]; rfl
      refine setCall_allPermits hcall rfl ?_
      rw [hholds]
      exact Nat.sub_add_cancel hwaiting.2
  | openRow i ok =>
      obtain ⟨call, hcall, hstep⟩ := Option.bind_eq_some_iff.mp hstep
      split_ifs at hstep with hinside
      have hholds : call.holds = true := by rw [Call.holds, not_not.mp hinside]; rfl
      split at hstep
      · split_ifs at hstep
        · cases hstep
          exact setCall_allPermits hcall rfl (by rw [hholds]; rfl)
        · cases hstep
          exact setCall_allPermits hcall rfl (by rw [hholds]; rfl)
      · cases hstep
        exact setCall_allPermits hcall rfl (by rw [hholds]; rfl)
  | createTask i =>
      obtain ⟨call, hcall, hstep⟩ := Option.bind_eq_some_iff.mp hstep
      split_ifs at hstep with hcommitted
      cases hstep
      have hholds : call.holds = true := by rw [Call.holds, not_not.mp hcommitted]; rfl
      exact setCall_allPermits hcall rfl (by rw [hholds]; rfl)
  | stopJob job ok =>
      simp only [step] at hstep
      split at hstep <;> (cases hstep; exact addCall_allPermits _ job _)
  | storeCancelled i ok =>
      obtain ⟨call, hcall, hstep⟩ := Option.bind_eq_some_iff.mp hstep
      obtain ⟨row, -, hstep⟩ := Option.bind_eq_some_iff.mp hstep
      cases hstage : call.stage with
      | reading no status =>
          have hholds : call.holds = false := by rw [Call.holds, hstage]; rfl
          simp only [hstage] at hstep
          split_ifs at hstep <;>
            (cases hstep; exact setCall_allPermits hcall rfl (by rw [hholds]; rfl))
      | _ => simp [hstage] at hstep
  | cancelTask i =>
      obtain ⟨call, hcall, hstep⟩ := Option.bind_eq_some_iff.mp hstep
      cases hstage : call.stage with
      | stored no =>
          have hholds : call.holds = false := by rw [Call.holds, hstage]; rfl
          simp only [hstage] at hstep
          split at hstep <;>
            (cases hstep; exact setCall_allPermits hcall rfl (by rw [hholds]; rfl))
      | _ => simp [hstage] at hstep
  | stopReturns i =>
      obtain ⟨call, hcall, hstep⟩ := Option.bind_eq_some_iff.mp hstep
      cases hstage : call.stage with
      | joining no task =>
          have hholds : call.holds = false := by rw [Call.holds, hstage]; rfl
          simp only [hstage] at hstep
          cases hstep
          exact setCall_allPermits hcall rfl (by rw [hholds]; rfl)
      | _ => simp [hstage] at hstep
  | run i event =>
      obtain ⟨t, -, hstep⟩ := Option.bind_eq_some_iff.mp hstep
      obtain ⟨row, -, hstep⟩ := Option.bind_eq_some_iff.mp hstep
      obtain ⟨⟨row', t'⟩, -, hstep⟩ := Option.bind_eq_some_iff.mp hstep
      cases hend : t'.done && leavesTry t event with
      | false =>
          simp only [hend] at hstep
          cases hstep
          rfl
      | true =>
          simp only [hend, if_true] at hstep
          cases hstep
          rw [cleanUp_allPermits]
          rfl

end Permits

/-- What the semaphore does bound: at every moment at most ten calls are in its body. -/
theorem at_most_ten_inside (jobs : List ScrapeJob) (actions : List Action) :
    PartialRun.Throughout step (fun s => s.calls.countP (·.holds) ≤ 10) { jobs := jobs }
      actions := by
  intro pre hpre s' hrun
  have hall : s'.allPermits = 10 := PartialRun.invariant_of_step (I := fun s => s.allPermits = 10)
    (fun s a s' h hstep => (step_allPermits hstep).trans h) rfl hrun
  rw [allPermits] at hall
  omega

/-- As long as each task is created while fewer than ten are unfinished, at most ten have
begun and not ended at every moment. -/
theorem at_most_ten_begun (jobs : List ScrapeJob) (actions : List Action)
    (hcreated : PartialRun.Along step (fun s a => s.creates a = true → s.unfinished < 10)
      { jobs := jobs } actions) :
    PartialRun.Throughout step (fun s => s.begun ≤ 10) { jobs := jobs } actions := by
  have hunfinished : PartialRun.Throughout step (fun s => s.unfinished ≤ 10) { jobs := jobs }
      actions := by
    refine PartialRun.throughout_of_along (fun s a s' h hP hstep => ?_) (Nat.zero_le _) hcreated
    rcases step_unfinished hstep with hle | ⟨hcreates, hsucc⟩
    · exact hle.trans h
    · have hlt := hP hcreates
      omega
  exact fun pre hpre s' hrun => (begun_le_unfinished s').trans (hunfinished pre hpre s' hrun)

/-- A job of two films that is started twice and stopped, beside another job. -/
theorem two_jobs_begun :
    PartialRun.Throughout step (fun s => s.begun ≤ 10) { jobs := List.replicate 2 { status := .pending } }
      [.startJob 0, .openRow 0 true, .startJob 1, .createTask 0, .run 0 .begin, .openRow 1 true,
        .startJob 0, .createTask 1, .run 1 .begin, .stopJob 0 true, .storeCancelled 3 true,
        .cancelTask 3, .run 0 (.cancel true), .run 1 (.fault true), .run 1 .close] :=
  at_most_ten_begun _ _ (by decide)

/-- Starting the job `k`, up to the first step of its task. -/
def startAndBegin (k : ℕ) : List Action :=
  [.startJob k, .openRow k true, .createTask k, .run k .begin]

/-- Eleven jobs started one after the other run at the same time. -/
theorem eleven_begun :
    ¬ PartialRun.Throughout step (fun s => s.begun ≤ 10) { jobs := List.replicate 11 { status := .pending } }
      ((List.range 11).flatMap startAndBegin) := by
  intro h
  have hend := h _ List.prefix_rfl _ (Option.some_get (by decide)).symm
  revert hend
  decide

end JobService

end SmartMedia.Scrape
