import Mathlib.Logic.Function.Basic
import SmartMedia.Library.PartialRun
import SmartMedia.Library.PythonText
import SmartMedia.Media.ScrapeJob

/-!
# The schedule of a scrape path

The requests of `app/api/scrape.py` that create, update, delete and schedule a path, with the
scheduler of `app/services/cron_service.py`. The requests are executed one at a time, and
their commit may fail. APScheduler's triggers are a parameter; the validators of the fields
other than `cron`, which only refuse, are left out, as are the columns no request here reads
or writes.
-/
namespace SmartMedia.Scrape.PathCron
open PartialRun PythonText Media

abbrev Text := List Char

/-- The two constructors that are used of `CronTrigger`; `none` is a `ValueError`. -/
structure CronTrigger (Trigger : Type) where
  fromCrontab : Text → Option Trigger
  ofFields : (second minute hour day month dayOfWeek : Text) → Option Trigger

/-- `s.split()`. -/
def fields (s : Text) : List Text := (s.splitOnP isSpace).filter (· ≠ [])

inductive MediaType
  | auto
  | movie
  | tv
  deriving DecidableEq, Repr

inductive RenameMode
  | move
  | copy
  | hardlink
  | softlink
  deriving DecidableEq, Repr

/-- The row of a path; the columns without `Option` are not null. -/
structure ScrapePath where
  sourcePath : Text
  destPath : Text
  mediaType : MediaType
  scrapeMode : ScrapeMode
  renameMode : RenameMode
  maxThreads : ℕ
  cron : Option Text
  enabled : Bool
  cronEnabled : Bool
  enableSecondaryCategory : Bool
  deriving DecidableEq, Repr

structure Job (Trigger : Type) where
  trigger : Trigger
  taskType : Text
  pathId : Text
  deriving DecidableEq, Repr

/-- The table of paths by `path_id`, which is unique, and the jobs of the scheduler by id. -/
structure State (Trigger : Type) where
  paths : Text → Option ScrapePath
  jobs : Text → Option (Job Trigger)

/-- `f"scrape_path_{path_id}"`. -/
def cronJobId (pathId : Text) : Text := "scrape_path_".toList ++ pathId

structure ScrapePathCreateRequest where
  sourcePath : Text
  destPath : Text
  mediaType : MediaType := .auto
  scrapeMode : ScrapeMode := .scrapeAndRename
  renameMode : RenameMode := .move
  maxThreads : ℕ := 1
  cron : Option Text := none
  enabled : Bool := true
  enableSecondaryCategory : Bool := true

/-- The outer `none` is a field that is not set. -/
structure ScrapePathUpdateRequest where
  sourcePath : Option (Option Text) := none
  destPath : Option (Option Text) := none
  mediaType : Option (Option MediaType) := none
  scrapeMode : Option (Option ScrapeMode) := none
  renameMode : Option (Option RenameMode) := none
  maxThreads : Option (Option ℕ) := none
  cron : Option (Option Text) := none
  enabled : Option (Option Bool) := none
  enableSecondaryCategory : Option (Option Bool) := none

/-- A request, the UUID of a new path, and whether the commit goes through. -/
inductive Request
  | create (pathId : Text) (request : ScrapePathCreateRequest) (commits : Bool)
  | update (pathId : Text) (request : ScrapePathUpdateRequest) (commits : Bool)
  | toggleCron (pathId : Text) (enabled : Option Bool) (commits : Bool)
  | delete (pathId : Text) (commits : Bool)

inductive Error
  | unprocessable
  | notFound
  | badRequest
  | valueError
  | database
  deriving DecidableEq, Repr

variable {Trigger : Type}

section Triggers
variable (triggers : CronTrigger Trigger)

/-- `_validate_cron_expression`; `false` is a `ValueError`. -/
def validateCronExpression (cron : Text) : Bool :=
  match fields cron with
  | [_, _, _, _, _] => (triggers.fromCrontab cron).isSome
  | [second, minute, hour, day, month, dayOfWeek] =>
      (triggers.ofFields second minute hour day month dayOfWeek).isSome
  | _ => false

/-- The trigger of `add_cron_job`. -/
def buildTrigger (cronExpression : Text) : Option Trigger :=
  match fields cronExpression with
  | [second, minute, hour, day, month, dayOfWeek] =>
      triggers.ofFields second minute hour day month dayOfWeek
  | [_, _, _, _, _] => triggers.fromCrontab cronExpression
  | _ => none

/-- The validator `validate_cron` of both requests; the outer `none` is a refusal. -/
def validateCron (value : Option Text) : Option (Option Text) :=
  let cron := strip (value.getD [])
  if cron = [] then some none
  else if validateCronExpression triggers cron then some (some cron)
  else none

theorem isSome_buildTrigger (cron : Text) :
    (buildTrigger triggers cron).isSome = validateCronExpression triggers cron := by
  unfold buildTrigger validateCronExpression
  split <;> simp_all

end Triggers

section CronService
variable (triggers : CronTrigger Trigger) (s : State Trigger)

def addCronJob (jobId cronExpression taskType pathId : Text) : Except Error (State Trigger) :=
  match buildTrigger triggers cronExpression with
  | none => .error .valueError
  | some trigger =>
      .ok { s with jobs := Function.update s.jobs jobId (some ⟨trigger, taskType, pathId⟩) }

/-- A job that does not exist is an error that `remove_job` catches. -/
def removeJob (jobId : Text) : State Trigger :=
  { s with jobs := Function.update s.jobs jobId none }

end CronService

section Requests
variable (triggers : CronTrigger Trigger) (s : State Trigger)

def setPath (pathId : Text) (path : Option ScrapePath) : State Trigger :=
  { s with paths := Function.update s.paths pathId path }

/-- A commit that goes through sets the row, one that fails changes nothing. -/
def commitPath (pathId : Text) (path : Option ScrapePath) (commits : Bool) :
    Except Error Unit × State Trigger :=
  if commits then (.ok (), setPath s pathId path) else (.error .database, s)

def createScrapePath (pathId : Text) (request : ScrapePathCreateRequest) (commits : Bool) :
    Except Error Unit × State Trigger :=
  match validateCron triggers request.cron with
  | none => (.error .unprocessable, s)
  | some cron =>
      -- the `path_id` is unique
      if (s.paths pathId).isSome then (.error .database, s)
      else commitPath s pathId (some
        { sourcePath := request.sourcePath
          destPath := request.destPath
          mediaType := request.mediaType
          scrapeMode := request.scrapeMode
          renameMode := request.renameMode
          maxThreads := request.maxThreads
          cron := cron
          enabled := request.enabled
          cronEnabled := false
          enableSecondaryCategory := request.enableSecondaryCategory }) commits

/-- The request as `validate_cron` leaves it. -/
def validateUpdate (request : ScrapePathUpdateRequest) : Option ScrapePathUpdateRequest :=
  match request.cron with
  | none => some request
  | some value => (validateCron triggers value).map fun cron => { request with cron := some cron }

/-- A column that is not null, after the assignment; a null is an `IntegrityError`. -/
def assign {α : Type} (current : α) : Option (Option α) → Option α
  | none => some current
  | some value => value

/-- The row after `setattr` for the fields that are set. -/
def setAttributes (path : ScrapePath) (request : ScrapePathUpdateRequest) : Option ScrapePath := do
  let sourcePath ← assign path.sourcePath request.sourcePath
  let destPath ← assign path.destPath request.destPath
  let mediaType ← assign path.mediaType request.mediaType
  let scrapeMode ← assign path.scrapeMode request.scrapeMode
  let renameMode ← assign path.renameMode request.renameMode
  let maxThreads ← assign path.maxThreads request.maxThreads
  let enabled ← assign path.enabled request.enabled
  let enableSecondaryCategory ← assign path.enableSecondaryCategory request.enableSecondaryCategory
  return { sourcePath, destPath, mediaType, scrapeMode, renameMode, maxThreads, enabled,
           enableSecondaryCategory, cron := request.cron.getD path.cron,
           cronEnabled := path.cronEnabled }

def updateScrapePath (pathId : Text) (request : ScrapePathUpdateRequest) (commits : Bool) :
    Except Error Unit × State Trigger :=
  match validateUpdate triggers request with
  | none => (.error .unprocessable, s)
  | some updates =>
      match s.paths pathId with
      | none => (.error .notFound, s)
      | some path =>
          match setAttributes path updates with
          | none => (.error .database, s)
          | some path => commitPath s pathId (some path) commits

def toggleScrapePathCron (pathId : Text) (enabled : Option Bool) (commits : Bool) :
    Except Error Unit × State Trigger :=
  match s.paths pathId with
  | none => (.error .notFound, s)
  | some path =>
      let targetEnabled := enabled.getD (!path.cronEnabled)
      let toggled := { path with cronEnabled := targetEnabled }
      if targetEnabled then
        match truthy path.cron with
        | none => (.error .badRequest, s)
        | some cron =>
            if validateCronExpression triggers cron = false then (.error .valueError, s)
            else
              let cleared := if (s.jobs (cronJobId pathId)).isSome then removeJob s (cronJobId pathId)
                else s
              match addCronJob triggers cleared (cronJobId pathId) cron "scrape_path_start".toList
                  pathId with
              | .error error => (.error error, cleared)
              | .ok added => commitPath added pathId (some toggled) commits
      else commitPath (removeJob s (cronJobId pathId)) pathId (some toggled) commits

def deleteScrapePath (pathId : Text) (commits : Bool) : Except Error Unit × State Trigger :=
  match s.paths pathId with
  | none => (.error .notFound, s)
  | some _ => commitPath (removeJob s (cronJobId pathId)) pathId none commits

/-- The reply and the state after a request. -/
def handle : Request → Except Error Unit × State Trigger
  | .create pathId request commits => createScrapePath triggers s pathId request commits
  | .update pathId request commits => updateScrapePath triggers s pathId request commits
  | .toggleCron pathId enabled commits => toggleScrapePathCron triggers s pathId enabled commits
  | .delete pathId commits => deleteScrapePath s pathId commits

def step (request : Request) : Option (State Trigger) := some (handle triggers s request).2

end Requests

end SmartMedia.Scrape.PathCron
