import SmartMedia.Library.StateProgram
import SmartMedia.Media.Paths

/-!
# Scrape jobs

`_process_job` of `app/services/media/scrape.py` with the state machine of
`scrape_state_machine.py`. Every call may raise; what a call to another component
answers, and whether another session has cancelled the job, is part of the
environment. The session assigns attributes in memory and a commit writes the changed
ones (`expire_on_commit=False`). The rows of `scrape_records` follow their items and are
left out.
-/
namespace SmartMedia.Media

inductive ScrapeStatus
  | pending | scanned | scraping | scraped | renaming | renamed | scrapeFailed | renameFailed
  deriving DecidableEq, Repr

def ScrapeStatus.text : ScrapeStatus → String
  | .pending => "pending" | .scanned => "scanned" | .scraping => "scraping"
  | .scraped => "scraped" | .renaming => "renaming" | .renamed => "renamed"
  | .scrapeFailed => "scrape_failed" | .renameFailed => "rename_failed"

/-- `ALLOWED_SCRAPE_TRANSITIONS`. -/
def allowedScrapeTransitions : ScrapeStatus → List ScrapeStatus
  | .pending => [.scanned, .scrapeFailed]
  | .scanned => [.scraping, .scrapeFailed]
  | .scraping => [.scraped, .scrapeFailed]
  | .scraped => [.renaming, .renamed, .renameFailed]
  | .renaming => [.renamed, .renameFailed]
  | .renamed => []
  | .scrapeFailed => [.scanned]
  | .renameFailed => [.renaming, .scanned]

structure TransitionResult where
  current : ScrapeStatus
  target : ScrapeStatus
  changed : Bool
  deriving DecidableEq, Repr

structure ScrapeStateMachine where
  allowSameState : Bool := true

/-- Every value of the enumeration is a valid status. -/
def ScrapeStateMachine.assertTransition (machine : ScrapeStateMachine)
    (current target : ScrapeStatus) : Except String TransitionResult :=
  if current = target ∧ machine.allowSameState = true then .ok ⟨current, target, false⟩
  else if target ∉ allowedScrapeTransitions current then
    .error ("Invalid status transition: " ++ current.text ++ " -> " ++ target.text)
  else .ok ⟨current, target, true⟩

inductive ScrapeJobStatus
  | pending | running | completed | failed | cancelled
  deriving DecidableEq, Repr

inductive ScrapeMode
  | onlyScrape | scrapeAndRename | onlyRename
  deriving DecidableEq, Repr

structure ScrapeOptions where
  scrapeMode : ScrapeMode := .scrapeAndRename
  embyLibrary : Bool := false
  deriving DecidableEq, Repr

def ScrapeOptions.shouldScrape (options : ScrapeOptions) : Bool := options.scrapeMode ≠ .onlyRename

def ScrapeOptions.shouldRename (options : ScrapeOptions) : Bool :=
  options.scrapeMode ∈ [ScrapeMode.scrapeAndRename, .onlyRename]

/-- `except Exception` does not catch a cancellation. -/
inductive Raised
  | exception (text : String)
  | cancelled
  deriving DecidableEq, Repr

structure ScrapeJob where
  status : ScrapeJobStatus := .running
  totalItems : ℕ := 0
  processedItems : ℕ := 0
  successItems : ℕ := 0
  failedItems : ℕ := 0
  deriving DecidableEq, Repr

structure ScrapeItem where
  filePath : Path
  status : ScrapeStatus := .pending
  deriving DecidableEq, Repr

/-- What the surroundings answer to the n-th call of a run. -/
structure ScrapeEnv where
  raised : ℕ → Option Raised
  succeeds : ℕ → Bool
  /-- Another session has stored `cancelled` for the job. -/
  cancelled : ℕ → Bool
  /-- The session can be used on after this call, a commit, has raised. -/
  usable : ℕ → Bool
  jobFound : Bool
  /-- The text of the error of an unusable session. -/
  needsRollback : String

/-- One run of `_process_job`: the session's instances and, in order, the statuses that
commits wrote for its items. An item goes by its position in the run. -/
structure ScrapeRun where
  calls : ℕ := 0
  broken : Bool := false
  job : ScrapeJob := {}
  items : List ScrapeItem := []
  stored : List (ℕ × ScrapeStatus) := []
  deriving DecidableEq, Repr

namespace ScrapeRun

/-- The statuses stored for an item, the first one first. -/
def history (s : ScrapeRun) (i : ℕ) : List ScrapeStatus :=
  (s.stored.filter (·.1 = i)).map (·.2)

/-- The status of an item's instance. -/
def statusAt (s : ScrapeRun) (i : ℕ) : Option ScrapeStatus := s.items[i]?.map (·.status)

/-- The status a flush writes for an item: none if the stored one is the same. -/
def change (s : ScrapeRun) (i : ℕ) : Option ScrapeStatus :=
  (s.statusAt i).filter fun status => (s.history i).getLast? ≠ some status

def flush (s : ScrapeRun) : ScrapeRun :=
  { s with
    stored := s.stored ++
      (List.range s.items.length).filterMap fun i => (s.change i).map (Prod.mk i) }

def setStatus (s : ScrapeRun) (i : ℕ) (status : ScrapeStatus) : ScrapeRun :=
  { s with items := s.items.modify i fun item => { item with status } }

end ScrapeRun

abbrev ScrapeM := EStateM Raised ScrapeRun

/-- Anything that may raise outside the session. -/
def call (env : ScrapeEnv) : ScrapeM Unit := fun s =>
  match env.raised s.calls with
  | none => .ok () { s with calls := s.calls + 1 }
  | some e => .error e { s with calls := s.calls + 1 }

/-- A call that answers whether it succeeded. -/
def answer (env : ScrapeEnv) : ScrapeM Bool := do
  let s ← get
  call env
  pure (env.succeeds s.calls)

/-- A SELECT of the session. -/
def query (env : ScrapeEnv) : ScrapeM Unit := do
  let s ← get
  if s.broken then throw (.exception env.needsRollback) else call env

/-- `db.commit()`. -/
def commit (env : ScrapeEnv) : ScrapeM Unit := fun s =>
  if s.broken then .error (.exception env.needsRollback) s
  else match env.raised s.calls with
    | none => .ok () { s.flush with calls := s.calls + 1 }
    | some e => .error e { s with calls := s.calls + 1, broken := !env.usable s.calls }

def modifyJob (f : ScrapeJob → ScrapeJob) : ScrapeM Unit :=
  modify fun s => { s with job := f s.job }

def countSuccess : ScrapeM Unit := modifyJob fun job =>
  { job with successItems := job.successItems + 1 }

def countFailed : ScrapeM Unit := modifyJob fun job => { job with failedItems := job.failedItems + 1 }

def countProcessed : ScrapeM Unit := modifyJob fun job =>
  { job with processedItems := job.processedItems + 1 }

namespace ScrapeService

def stateMachine : ScrapeStateMachine := {}

/-- A call whose exceptions are only logged. -/
def logged (env : ScrapeEnv) : ScrapeM Unit :=
  tryCatch (call env) fun
    | .exception _ => pure ()
    | .cancelled => throw .cancelled

def safeNotify (env : ScrapeEnv) : ScrapeM Unit := logged env

def refreshLibrary (env : ScrapeEnv) : ScrapeM Unit := logged env

def transitionItemStatus (i : ℕ) (target : ScrapeStatus) : ScrapeM Unit := do
  let s ← get
  let current := (s.statusAt i).getD .pending
  match stateMachine.assertTransition current target with
  | .error e => throw (.exception e)
  | .ok _ => set (s.setStatus i target)

/-- The first half of the `try` block of an item; `false` is its `continue`. Both branches
of the source begin with `scraping` and a commit. -/
def scrapeItem (env : ScrapeEnv) (options : ScrapeOptions) (i : ℕ) : ScrapeM Bool := do
  transitionItemStatus i .scanned
  commit env
  transitionItemStatus i .scraping
  commit env
  if options.shouldScrape then do
    let success ← answer env
    if success then do
      transitionItemStatus i .scraped
      commit env
      pure true
    else do
      transitionItemStatus i .scrapeFailed
      countFailed
      countProcessed
      commit env
      pure false
  else do
    -- `MediaParser.parse`
    call env
    transitionItemStatus i .scraped
    commit env
    pure true

/-- The second half. -/
def organizeItem (env : ScrapeEnv) (options : ScrapeOptions) (i : ℕ) : ScrapeM Unit := do
  if options.shouldRename then do
    transitionItemStatus i .renaming
    commit env
    let renamed ← answer env
    if renamed then do
      transitionItemStatus i .renamed
      countSuccess
    else do
      transitionItemStatus i .renameFailed
      countFailed
  else countSuccess
  countProcessed
  commit env

/-- The inner `try`: the status is forced if it is not allowed. -/
def assignFallback (i : ℕ) (fallback : ScrapeStatus) : ScrapeM Unit :=
  tryCatch (transitionItemStatus i fallback) fun
    | .cancelled => throw .cancelled
    | .exception _ => modify (·.setStatus i fallback)

/-- The `except` clause of an item. -/
def recover (env : ScrapeEnv) (i : ℕ) : Raised → ScrapeM Unit
  | .cancelled => throw .cancelled
  | .exception _ => do
      let s ← get
      let current := (s.statusAt i).getD .pending
      let fallback : ScrapeStatus :=
        if current ∈ [ScrapeStatus.renaming, .renameFailed] then .renameFailed else .scrapeFailed
      assignFallback i fallback
      countFailed
      countProcessed
      commit env

/-- `db.add(item)`. -/
def addItem (file : Path) : ScrapeM ℕ := do
  let s ← get
  modify fun s => { s with items := s.items ++ [{ filePath := file }] }
  pure s.items.length

/-- The loop over the files. The second commit and refresh are for the item's record. -/
def processFiles (env : ScrapeEnv) (options : ScrapeOptions) : List Path → ScrapeM Unit
  | [] => pure ()
  | file :: files => do
      let before ← get
      query env
      if env.cancelled before.calls then modifyJob fun job => { job with status := .cancelled }
      else do
        let i ← addItem file
        commit env
        query env
        commit env
        query env
        tryCatch (do
          let scraped ← scrapeItem env options i
          if scraped then organizeItem env options i else pure ()) (recover env i)
        processFiles env options files

/-- The notification for a completed or failed job. -/
def notifyEnd (env : ScrapeEnv) : ScrapeM Unit := do
  let s ← get
  if s.job.status ∈ [ScrapeJobStatus.completed, .failed] then safeNotify env else pure ()

/-- The end of the `try` block of the job: its status, the metrics, a notification and
the optional refresh of the library. -/
def finish (env : ScrapeEnv) (options : ScrapeOptions) : ScrapeM Unit := do
  modifyJob fun job =>
    if job.status = .cancelled then job
    else if job.failedItems < job.totalItems then { job with status := .completed }
    else { job with status := .failed }
  call env
  commit env
  notifyEnd env
  if options.embyLibrary then refreshLibrary env else pure ()

/-- The job's row is looked up again and gets its last status. -/
def closeJob (env : ScrapeEnv) (status : ScrapeJobStatus) : ScrapeM Unit := do
  query env
  if env.jobFound then do
    modifyJob fun job => { job with status }
    commit env
  else pure ()

/-- The `except` clauses of the job. -/
def abort (env : ScrapeEnv) : Raised → ScrapeM Unit
  | .cancelled => do
      closeJob env .cancelled
      throw .cancelled
  | .exception _ => do
      closeJob env .failed
      safeNotify env

/-- The job's row, its options, the scan of the source directory and the loop. Closing
the session drops what was not committed. -/
def processJob (env : ScrapeEnv) (options : ScrapeOptions) (files : List Path) :
    ScrapeM Unit := do
  safeNotify env
  tryCatch (do
    query env
    if env.jobFound then do
      -- `_normalize_options`, `_scan_directory`
      call env
      modifyJob fun job => { job with totalItems := files.length }
      commit env
      processFiles env options files
      finish env options
    else pure ()) (abort env)

end ScrapeService

end SmartMedia.Media
