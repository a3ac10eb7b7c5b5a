import SmartMedia.Scrape.JobService

/-!
# Starting and stopping a scrape path

`_start_path_job`, `stop_scrape_path` and `_refresh_path_status` of `app/api/scrape.py` for
one path, with the scrape service that serves it and everything else: each awaited call and
each commit is a step. The routes for a manual start, the cron handler and the re-scrape of
records all call `_start_path_job`, under a lock of the path; the other two take no lock.
-/
namespace SmartMedia.Scrape
open Media (ScrapeJob ScrapeJobStatus)

inductive PathStatus where
  | idle
  | running
  | stopped
  deriving DecidableEq, Repr

/-- The row of a path, as it is created. -/
structure ScrapePath where
  status : PathStatus := .idle
  lastJob : Option ℕ := none
  deriving DecidableEq, Repr

/-- Where the `_start_path_job` with the lock is, with its session's instance of the path. -/
inductive StartStage where
  /-- about to commit `idle` -/
  | refreshing (path : ScrapePath)
  /-- no job runs for the path -/
  | checked (path : ScrapePath)
  | created (path : ScrapePath) (job : ℕ)
  /-- in `start_job`, which is the call of this number -/
  | starting (path : ScrapePath) (job call : ℕ)
  deriving DecidableEq, Repr

/-- A `stop_scrape_path` between its read and its commit, and its `stop_job`. -/
structure PathStop where
  path : ScrapePath
  call : Option ℕ := none
  deriving DecidableEq, Repr

/-- The row, the jobs created for the path, the scrape service, the `_start_path_job` that
has the lock, and the stops and refreshes that have not made their commit. -/
structure PathService where
  path : ScrapePath := {}
  created : List ℕ := []
  service : JobService
  holder : Option StartStage := none
  stops : List PathStop := []
  refreshes : List ScrapePath := []

inductive PathAction where
  | startPath
  | commitIdle
  /-- `create_job` may find the source path invalid -/
  | createJob (ok : Bool)
  | callStart
  | commitRunning
  | startFails
  | stopPath
  | callStop (stop : ℕ) (ok : Bool)
  | commitStopped (stop : ℕ)
  | refreshPath
  | commitRefresh (refresh : ℕ)
  /-- a job is created for something else -/
  | createOther
  | service (action : Action)
  deriving DecidableEq, Repr

namespace PathService

/-- The row of the job says `running`. -/
def rowRunning (s : PathService) (job : ℕ) : Bool :=
  s.service.jobs[job]?.any (·.status = .running)

/-- `path.status == "running"` and the last job's row says so, too. -/
def alreadyRunning (s : PathService) : Bool :=
  s.path.status = .running && s.path.lastJob.any s.rowRunning

/-- `_refresh_path_status` is going to commit `idle`. -/
def stale (s : PathService) : Bool :=
  s.path.status = .running && s.path.lastJob.any (!s.rowRunning ·)

/-- The new row of `create_job`. -/
def addJob (s : PathService) : PathService :=
  { s with service := { s.service with jobs := s.service.jobs ++ [{ status := .pending }] } }

/-- An assignment of a status and the commit: an instance that has it already writes nothing. -/
def writeStatus (s : PathService) (read : ScrapePath) (status : PathStatus) : ScrapePath :=
  if read.status = status then s.path else { s.path with status }

/-- The `stop_job` of this `stop_scrape_path`, if there is one to make, has returned. -/
def stopReturned (s : PathService) (stop : PathStop) : Bool :=
  match stop.path.lastJob, stop.call with
  | none, _ => true
  | some job, some k => s.service.calls[k]? = some ⟨job, .stopped true⟩ ||
      s.service.calls[k]? = some ⟨job, .stopped false⟩
  | some _, none => false

/-- What the service does on its own and for others: calls on the path's jobs come from the
path's requests. -/
def permitted (s : PathService) : Action → Bool
  | .startJob job | .stopJob job _ => job < s.service.jobs.length && job ∉ s.created
  | _ => true

def step (s : PathService) : PathAction → Option PathService
  | .startPath =>
      if s.holder.isSome then none
      else if s.alreadyRunning then some s
      else if s.stale then some { s with holder := some (.refreshing s.path) }
      else some { s with holder := some (.checked s.path) }
  | .commitIdle =>
      match s.holder with
      | some (.refreshing path) =>
          some { s with
            path := s.writeStatus path .idle
            holder := some (.checked { path with status := .idle }) }
      | _ => none
  | .createJob ok =>
      match s.holder with
      | some (.checked path) =>
          if ok then
            some { s.addJob with
              created := s.created ++ [s.service.jobs.length]
              holder := some (.created path s.service.jobs.length) }
          else some { s with holder := none }
      | _ => none
  | .callStart =>
      match s.holder with
      | some (.created path job) =>
          (s.service.step (.startJob job)).map fun service =>
            { s with service, holder := some (.starting path job s.service.calls.length) }
      | _ => none
  | .commitRunning =>
      match s.holder with
      | some (.starting path job k) =>
          if s.service.calls[k]? = some ⟨job, .started true⟩ then
            some { s with
              path := { s.writeStatus path .running with lastJob := some job }
              holder := none }
          else none
      | _ => none
  | .startFails =>
      match s.holder with
      | some (.starting _ job k) =>
          if s.service.calls[k]? = some ⟨job, .started false⟩ then
            some { s with holder := none }
          else none
      | _ => none
  | .stopPath => some { s with stops := s.stops ++ [{ path := s.path }] }
  | .callStop i ok => do
      let stop ← s.stops[i]?
      match stop.path.lastJob, stop.call with
      | some job, none =>
          (s.service.step (.stopJob job ok)).map fun service =>
            { s with service, stops := s.stops.set i { stop with call := some s.service.calls.length } }
      | _, _ => none
  | .commitStopped i => do
      let stop ← s.stops[i]?
      if s.stopReturned stop then
        some { s with path := s.writeStatus stop.path .stopped, stops := s.stops.eraseIdx i }
      else none
  | .refreshPath => if s.stale then some { s with refreshes := s.refreshes ++ [s.path] } else some s
  | .commitRefresh i => do
      let path ← s.refreshes[i]?
      some { s with path := s.writeStatus path .idle, refreshes := s.refreshes.eraseIdx i }
  | .createOther => some s.addJob
  | .service a =>
      if s.permitted a then (s.service.step a).map fun service => { s with service } else none

end PathService

end SmartMedia.Scrape
