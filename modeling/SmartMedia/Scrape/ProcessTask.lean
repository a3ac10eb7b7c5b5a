import SmartMedia.Media.ScrapeJob

/-!
# The task of a scrape job

`_process_job` of `app/services/media/scrape.py` as the event loop sees it: cut at its
awaits and after its commits, with the job's row, which other sessions may change in
between, and the instance the task's own session holds of it. Of an item only the two
counters are kept here. A cancellation is delivered at the next await; between the
commits of the loop there is none. A session whose commit has raised cannot be used any
more, so that such an exception leaves the task.
-/
namespace SmartMedia.Scrape
open Media (Path ScrapeJob ScrapeJobStatus)

/-- How the processing of an item ends. -/
inductive Outcome where
  | success
  | failure
  | raised
  /-- a commit raises, and then the one of the handler -/
  | commitRaised
  deriving DecidableEq, Repr

inductive Ending where
  /-- with its own status committed -/
  | finished
  /-- having found the job cancelled -/
  | stopped
  /-- by an exception that the last clause has handled -/
  | failed
  /-- by an exception that has left the task -/
  | escaped
  | cancelled
  deriving DecidableEq, Repr

inductive Stage where
  | created
  | notifying
  | looping (rest : List Path)
  | processing (file : Path) (rest : List Path)
  /-- the last commit is made; was the job found cancelled? -/
  | closing (stopped : Bool)
  | failing
  | ended (ending : Ending)
  deriving DecidableEq, Repr

/-- The task, the session's instance of the job, and as history variables what it read at
its beginning, what it found, and how the items ended. -/
structure Task where
  jobId : ℕ
  stage : Stage := .created
  cancelling : Bool := false
  job : ScrapeJob := {}
  before : ScrapeJob := {}
  files : List Path := []
  outcomes : List (Path × Bool) := []
  deriving DecidableEq, Repr

/-- What happens to a task next. -/
inductive Event where
  | begin
  | load (files : List Path)
  | next
  | settle (outcome : Outcome)
  /-- an exception outside the items; the last clause may raise again -/
  | fault (handled : Bool)
  | close
  /-- the cancellation arrives; the clause for it may raise -/
  | cancel (stored : Bool)
  deriving DecidableEq, Repr

def Stage.done : Stage → Bool
  | .ended _ => true
  | _ => false

/-- In the `try` statement of the job and in no item's. -/
def Stage.inTry : Stage → Bool
  | .notifying | .looping _ => true
  | _ => false

namespace Task

def done (t : Task) : Bool := t.stage.done

/-- A commit writes the status of the instance if it has changed. -/
def writeStatus (t : Task) (row : ScrapeJob) (status : ScrapeJobStatus) : ScrapeJob :=
  if t.job.status = status then row else { row with status }

/-- After the loop: the status, the metrics and the commit. -/
def finish (row : ScrapeJob) (t : Task) : ScrapeJob × Task :=
  if t.job.status = .cancelled then (row, { t with stage := .closing true })
  else
    let status : ScrapeJobStatus :=
      if t.job.failedItems < t.job.totalItems then .completed else .failed
    (t.writeStatus row status,
      { t with job := { t.job with status }, stage := .closing false })

/-- The last commit of an item. -/
def count (row : ScrapeJob) (t : Task) (file : Path) (rest : List Path) (success : Bool) :
    ScrapeJob × Task :=
  let job : ScrapeJob := if success then { t.job with
      successItems := t.job.successItems + 1
      processedItems := t.job.processedItems + 1 }
    else { t.job with
      failedItems := t.job.failedItems + 1
      processedItems := t.job.processedItems + 1 }
  ({ row with
      processedItems := job.processedItems
      successItems := if success then job.successItems else row.successItems
      failedItems := if success then row.failedItems else job.failedItems },
    { t with
      job
      stage := .looping rest
      outcomes := t.outcomes ++ [(file, success)] })

/-- The `except Exception` clause of the job. -/
def fail (row : ScrapeJob) (t : Task) (handled : Bool) : ScrapeJob × Task :=
  if handled then
    (t.writeStatus row .failed, { t with job := { t.job with status := .failed }, stage := .failing })
  else (row, { t with stage := .ended .escaped })

def step (row : ScrapeJob) (t : Task) : Event → Option (ScrapeJob × Task)
  | .begin =>
      match t.stage with
      | .created =>
          if t.cancelling then some (row, { t with stage := .ended .cancelled })
          else some (row, { t with stage := .notifying })
      | _ => none
  | .load files =>
      match t.stage with
      | .notifying =>
          -- a scan lists a path once
          if t.cancelling = true ∨ ¬ files.Nodup then none
          else
            let job : ScrapeJob := { row with totalItems := files.length }
            some (job, { t with job, before := row, files, stage := .looping files })
      | _ => none
  | .next =>
      match t.stage with
      | .looping [] => some (finish row t)
      | .looping (file :: rest) =>
          if row.status = .cancelled then some (finish row { t with job := row })
          else some (row, { t with job := row, stage := .processing file rest })
      | _ => none
  | .settle outcome =>
      match t.stage with
      | .processing file rest =>
          match outcome with
          | .success => some (count row t file rest true)
          | .failure => some (count row t file rest false)
          | .raised => some (count row t file rest false)
          | .commitRaised => some (row, { t with stage := .ended .escaped })
      | _ => none
  | .fault handled =>
      match t.stage with
      | .notifying => if t.cancelling then none else some (fail row t handled)
      | .looping _ => some (fail row t handled)
      | _ => none
  | .close =>
      match t.stage with
      | .closing stopped =>
          -- after a verdict a notification is awaited
          if t.cancelling = true ∧ stopped = false then none
          else some (row, { t with stage := .ended (if stopped then .stopped else .finished) })
      | .failing => if t.cancelling then none else some (row, { t with stage := .ended .failed })
      | _ => none
  | .cancel stored =>
      if t.cancelling then
        match t.stage with
        | .notifying | .failing => some (row, { t with stage := .ended .cancelled })
        | .processing _ _ | .closing _ =>
            some (if stored then t.writeStatus row .cancelled else row,
              { t with stage := .ended .cancelled })
        | _ => none
      else none

/-- What a step can do: the job's row and the task after it. -/
inductive Moves (row : ScrapeJob) (t : Task) : ScrapeJob → Task → Prop
  | begins (hstage : t.stage = .created) : Moves row t row { t with stage := .notifying }
  | loads (files : List Path) (hstage : t.stage = .notifying) (honce : files.Nodup) :
      Moves row t { row with totalItems := files.length } { t with
        job := { row with totalItems := files.length }
        before := row
        files
        stage := .looping files }
  | finishes (hstage : t.stage = .looping []) : Moves row t (finish row t).1 (finish row t).2
  | stops (file : Path) (rest : List Path) (hstage : t.stage = .looping (file :: rest)) :
      Moves row t row { t with job := row, stage := .closing true }
  | opens (file : Path) (rest : List Path) (hstage : t.stage = .looping (file :: rest)) :
      Moves row t row { t with job := row, stage := .processing file rest }
  | counts (file : Path) (rest : List Path) (success : Bool)
      (hstage : t.stage = .processing file rest) :
      Moves row t (count row t file rest success).1 (count row t file rest success).2
  | fails (hstage : Stage.inTry t.stage = true) :
      Moves row t (fail row t true).1 (fail row t true).2
  | escapes (hstage : Stage.inTry t.stage = true ∨ ∃ file rest, t.stage = .processing file rest) :
      Moves row t row { t with stage := .ended .escaped }
  | concludes (hstage : t.stage = .closing false) (hcancelling : t.cancelling = false) :
      Moves row t row { t with stage := .ended .finished }
  /-- without a verdict -/
  | ends (ending : Ending) (row' : ScrapeJob) (hdone : t.done = false)
      (hending : ending ≠ .finished ∧ ending ≠ .escaped)
      (hrow : row' = row ∨ row' = t.writeStatus row .cancelled) :
      Moves row t row' { t with stage := .ended ending }

section Steps
variable {row row' : ScrapeJob} {t t' : Task} {e : Event}

theorem moves_fault {handled : Bool} (hstage : Stage.inTry t.stage = true)
    (h : fail row t handled = (row', t')) : Moves row t row' t' := by
  cases handled with
  | true =>
      cases h
      exact .fails hstage
  | false =>
      cases h
      exact .escapes (.inl hstage)

theorem moves_cancel {stored : Bool} (h : t.step row (.cancel stored) = some (row', t')) :
    Moves row t row' t' := by
  have hending : Ending.cancelled ≠ .finished ∧ Ending.cancelled ≠ .escaped := by decide
  have hc : t.cancelling = true := by
    by_contra hc
    rw [step, if_neg hc] at h
    cases h
  rw [step, if_pos hc] at h
  cases hstage : t.stage with
  | notifying | failing =>
      simp only [hstage] at h
      cases h
      exact .ends .cancelled row (by rw [done, hstage]; rfl) hending (.inl rfl)
  | processing _ _ | closing _ =>
      simp only [hstage] at h
      cases h
      refine .ends .cancelled _ (by rw [done, hstage]; rfl) hending ?_
      cases stored with
      | true => exact .inr rfl
      | false => exact .inl rfl
  | _ => simp [hstage] at h

theorem step_moves (h : t.step row e = some (row', t')) : Moves row t row' t' := by
  cases e with
  | begin =>
      cases hstage : t.stage with
      | created =>
          simp only [step, hstage] at h
          split_ifs at h
          · cases h
            exact .ends .cancelled row (by rw [done, hstage]; rfl) (by decide) (.inl rfl)
          · cases h
            exact .begins hstage
      | _ => simp [step, hstage] at h
  | load files =>
      cases hstage : t.stage with
      | notifying =>
          simp only [step, hstage] at h
          split_ifs at h with hc
          cases h
          exact .loads files hstage (not_not.mp (not_or.mp hc).2)
      | _ => simp [step, hstage] at h
  | next =>
      cases hstage : t.stage with
      | looping rest =>
          cases rest with
          | nil =>
              simp only [step, hstage] at h
              have hmove : Moves row t (finish row t).1 (finish row t).2 := .finishes hstage
              rwa [Option.some.inj h] at hmove
          | cons file rest =>
              simp only [step, hstage] at h
              split_ifs at h with hcancelled
              · rw [finish, if_pos hcancelled] at h
                cases h
                exact .stops file rest hstage
              · cases h
                exact .opens file rest hstage
      | _ => simp [step, hstage] at h
  | settle outcome =>
      cases hstage : t.stage with
      | processing file rest =>
          simp only [step, hstage] at h
          cases outcome with
          | success =>
              cases h
              exact .counts file rest true hstage
          | failure | raised =>
              cases h
              exact .counts file rest false hstage
          | commitRaised =>
              cases h
              exact .escapes (.inr ⟨file, rest, hstage⟩)
      | _ => simp [step, hstage] at h
  | fault handled =>
      cases hstage : t.stage with
      | notifying =>
          simp only [step, hstage] at h
          split_ifs at h
          exact moves_fault (by rw [hstage]; rfl) (Option.some.inj h)
      | looping rest =>
          simp only [step, hstage] at h
          exact moves_fault (by rw [hstage]; rfl) (Option.some.inj h)
      | _ => simp [step, hstage] at h
  | close =>
      cases hstage : t.stage with
      | closing stopped =>
          simp only [step, hstage] at h
          split_ifs at h with hc hstopped
          · cases h
            exact .ends .stopped row (by rw [done, hstage]; rfl) (by decide) (.inl rfl)
          · cases h
            have hverdict : stopped = false := Bool.not_eq_true _ ▸ hstopped
            rw [hverdict] at hstage hc
            exact .concludes hstage (Bool.not_eq_true _ ▸ fun h => hc ⟨h, rfl⟩)
      | failing =>
          simp only [step, hstage] at h
          split_ifs at h
          cases h
          exact .ends .failed row (by rw [done, hstage]; rfl) (by decide) (.inl rfl)
      | _ => simp [step, hstage] at h
  | cancel stored => exact moves_cancel h

theorem finish_jobId (row : ScrapeJob) (t : Task) : (finish row t).2.jobId = t.jobId ∧
    (finish row t).2.cancelling = t.cancelling := by
  rw [finish]
  split_ifs <;> exact ⟨rfl, rfl⟩

theorem unfinished_of_inTry (h : Stage.inTry t.stage = true) : t.done = false := by
  rw [done]
  cases hstage : t.stage with
  | ended ending =>
      rw [hstage] at h
      cases h
  | _ => rfl

/-- Only unfinished tasks go on; a task is cancelled by others. -/
theorem step_spec (h : t.step row e = some (row', t')) :
    t.done = false ∧ t'.jobId = t.jobId ∧ t'.cancelling = t.cancelling := by
  have hundone : ∀ {stage}, t.stage = stage → stage.done = false → t.done = false :=
    fun hstage hdone => (congrArg Stage.done hstage).trans hdone
  cases step_moves h with
  | begins hstage => exact ⟨hundone hstage rfl, rfl, rfl⟩
  | loads files hstage honce => exact ⟨hundone hstage rfl, rfl, rfl⟩
  | finishes hstage => exact ⟨hundone hstage rfl, finish_jobId row t⟩
  | stops file rest hstage => exact ⟨hundone hstage rfl, rfl, rfl⟩
  | opens file rest hstage => exact ⟨hundone hstage rfl, rfl, rfl⟩
  | counts file rest success hstage => exact ⟨hundone hstage rfl, rfl, rfl⟩
  | fails hstage => exact ⟨unfinished_of_inTry hstage, rfl, rfl⟩
  | escapes hstage =>
      refine ⟨?_, rfl, rfl⟩
      rcases hstage with hstage | ⟨file, rest, hstage⟩
      · exact unfinished_of_inTry hstage
      · exact hundone hstage rfl
  | concludes hstage => exact ⟨hundone hstage rfl, rfl, rfl⟩
  | ends ending row' hdone => exact ⟨hdone, rfl, rfl⟩

end Steps

end Task

end SmartMedia.Scrape
