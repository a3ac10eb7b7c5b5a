import Mathlib.Data.Int.Notation
import Mathlib.Logic.Function.Basic
import SmartMedia.Library.PartialRun

/-!
# Backups of the database

`create_sqlite_backup` and `restore_sqlite_backup` of `app/migrations/backup.py`. A call is a
sequence of accesses to the file system. SQLite may raise at each of them, it may have written any
part of a copy when it does, and the process may end between any two. Paths are resolved ones; the
directories that `mkdir` makes are left out.
-/
namespace SmartMedia.Migrations

abbrev DbPath := List String

/-- What SQLite reads in a database file; `integrity` is the row of `integrity_check`. -/
structure DatabaseFile (σ : Type) where
  userVersion : ℤ
  integrity : Option String
  tables : List String
  content : σ
  deriving DecidableEq, Repr

/-- A file may be none of SQLite's. -/
inductive Stored (σ : Type)
  | directory
  | database (db : DatabaseFile σ)
  | other (content : σ)
  deriving DecidableEq, Repr

def Stored.isDirectory {σ : Type} : Stored σ → Bool
  | .directory => true
  | _ => false

abbrev Files (σ : Type) := DbPath → Option (Stored σ)

structure BackupValidation where
  path : DbPath
  schemaVersion : ℤ
  tables : List String
  deriving DecidableEq, Repr

variable {σ : Type}

def pathText (path : DbPath) : String := "/" ++ "/".intercalate path

/-- `target.with_name(f"{target.name}.restore.tmp")` -/
def tempTarget (target : DbPath) : DbPath := target.dropLast ++ [target.getLast?.getD "" ++ ".restore.tmp"]

/-- `validate_sqlite_backup`; `fault` is what SQLite raises while it reads. -/
def validateSqliteBackup (files : Files σ) (path : DbPath) (expectedSchemaVersion : Option ℤ)
    (fault : Option String) : Except String BackupValidation :=
  let notSqlite (exc : String) := "backup is not a valid SQLite database: " ++ exc
  match files path, fault with
  | none, _ => .error ("backup file does not exist: " ++ pathText path)
  | some _, some exc => .error (notSqlite exc)
  | some .directory, none => .error (notSqlite "unable to open database file")
  | some (.other _), none => .error (notSqlite "file is not a database")
  | some (.database db), none =>
      if db.integrity ≠ some "ok" then
        .error ("backup integrity check failed: " ++ db.integrity.getD "unknown")
      else
        match expectedSchemaVersion with
        | some version =>
            if db.userVersion ≠ version then
              .error ("backup schema version " ++ toString db.userVersion ++
                " does not match expected " ++ toString version)
            else .ok ⟨path, db.userVersion, db.tables⟩
        | none => .ok ⟨path, db.userVersion, db.tables⟩

inductive BackupJob
  | create (source target : DbPath)
  | restore (backup target : DbPath) (overwrite : Bool) (expectedSchemaVersion : Option ℤ)
  deriving DecidableEq, Repr

/-- Where a call is: before its first access, past the validation of the backup, past its last check,
copying, with a copy, with a validated copy, in its handler, or at its end. -/
inductive BackupStage
  | begun
  | validated
  | ready
  | copied
  | checked
  | failing (error : String)
  | returned
  | raised (error : String)
  deriving DecidableEq, Repr

/-- How an access comes out; `part` leaves a part of a copy and the copying goes on. -/
inductive Access (σ : Type)
  | ok
  | part (content : Stored σ)
  | fault (error : String)
  deriving DecidableEq, Repr

structure BackupCall where
  job : BackupJob
  stage : BackupStage := .begun
  deriving DecidableEq, Repr

namespace BackupJob

/-- The file that a call makes. -/
def scratch : BackupJob → DbPath
  | .create _ target => target
  | .restore _ target _ _ => tempTarget target

def source : BackupJob → DbPath
  | .create source _ => source
  | .restore backup _ _ _ => backup

/-- The files that a call may change. -/
def writes : BackupJob → List DbPath
  | .create _ target => [target]
  | .restore _ target _ _ => [tempTarget target, target]

/-- The prefix of the message in the handler. -/
def handled : BackupJob → String → String
  | .create _ _, exc => "create backup: " ++ exc
  | .restore _ _ _ _, exc => "restore backup: " ++ exc

end BackupJob

namespace BackupCall

/-- The checks of `create_sqlite_backup`. -/
def checkCreate (files : Files σ) (source target : DbPath) : BackupStage :=
  if files source = none then .raised ("source database does not exist: " ++ pathText source)
  else if files target ≠ none then .raised ("backup target already exists: " ++ pathText target)
  else .ready

/-- The checks of `restore_sqlite_backup` behind the validation. -/
def checkRestore (files : Files σ) (target : DbPath) (overwrite : Bool) : BackupStage :=
  if files target ≠ none ∧ overwrite = false then
    .raised ("restore target already exists: " ++ pathText target)
  else if files (tempTarget target) ≠ none then
    .raised ("temporary restore target already exists: " ++ pathText (tempTarget target))
  else .ready

/-- `source_connection.backup(target_connection)` to its end. -/
def copy (files : Files σ) (job : BackupJob) (finished : BackupStage) : Files σ × BackupStage :=
  match files job.source with
  | some (.database db) => (Function.update files job.scratch (some (.database db)), finished)
  | _ => (files, .failing (job.handled "unable to open database file"))

/-- `temp_target.replace(target)` -/
def replace (files : Files σ) (job : BackupJob) (target : DbPath) : Files σ × BackupStage :=
  if (files target).any Stored.isDirectory then (files, .failing (job.handled "Is a directory"))
  else
    (Function.update (Function.update files target (files (tempTarget target))) (tempTarget target) none,
      .returned)

/-- The next access of `create_sqlite_backup`: the files behind it, and where the call is then. -/
def accessCreate (files : Files σ) (source target : DbPath) :
    BackupStage → Access σ → Option (Files σ × BackupStage)
  | .begun, .ok => some (files, checkCreate files source target)
  | .begun, .fault exc => some (files, .raised exc)
  | .ready, .part content => some (Function.update files target (some content), .ready)
  | .ready, .ok => some (copy files (.create source target) .returned)
  | .ready, .fault exc => some (files, .failing ((BackupJob.create source target).handled exc))
  | .failing error, .ok => some (Function.update files target none, .raised error)
  | _, _ => none

/-- What a validation leads to. -/
def afterValidation (files : Files σ) (path : DbPath) (expectedSchemaVersion : Option ℤ)
    (fault : Option String) (valid : BackupStage) (invalid : String → BackupStage) : BackupStage :=
  match validateSqliteBackup files path expectedSchemaVersion fault with
  | .ok _ => valid
  | .error error => invalid error

/-- The next access of `restore_sqlite_backup`. -/
def accessRestore (files : Files σ) (backup target : DbPath) (overwrite : Bool) (expected : Option ℤ) :
    BackupStage → Access σ → Option (Files σ × BackupStage)
  | .begun, .ok => some (files, afterValidation files backup expected none .validated .raised)
  | .begun, .fault exc =>
      some (files, afterValidation files backup expected (some exc) .validated .raised)
  | .validated, .ok => some (files, checkRestore files target overwrite)
  | .validated, .fault exc => some (files, .raised exc)
  | .ready, .part content => some (Function.update files (tempTarget target) (some content), .ready)
  | .ready, .ok => some (copy files (.restore backup target overwrite expected) .copied)
  | .ready, .fault exc =>
      some (files, .failing ((BackupJob.restore backup target overwrite expected).handled exc))
  | .copied, .ok =>
      some (files, afterValidation files (tempTarget target) expected none .checked .failing)
  | .copied, .fault exc =>
      some (files, afterValidation files (tempTarget target) expected (some exc) .checked .failing)
  | .checked, .ok => some (replace files (.restore backup target overwrite expected) target)
  | .checked, .fault exc =>
      some (files, .failing ((BackupJob.restore backup target overwrite expected).handled exc))
  | .failing error, .ok => some (Function.update files (tempTarget target) none, .raised error)
  | _, _ => none

def access (files : Files σ) (call : BackupCall) (outcome : Access σ) :
    Option (Files σ × BackupStage) :=
  match call.job with
  | .create source target => accessCreate files source target call.stage outcome
  | .restore backup target overwrite expected =>
      accessRestore files backup target overwrite expected call.stage outcome

end BackupCall

/-- A database that passes the validation. -/
def Accepted (expected : Option ℤ) (stored : Option (Stored σ)) : Prop :=
  ∃ db, stored = some (.database db) ∧ db.integrity = some "ok" ∧
    ∀ version, expected = some version → db.userVersion = version

theorem Accepted.ne_none {expected : Option ℤ} {stored : Option (Stored σ)}
    (h : Accepted expected stored) : stored ≠ none := by
  obtain ⟨db, rfl, -⟩ := h
  exact Option.some_ne_none _

section Accesses
variable {files files' : Files σ} {path source backup target : DbPath} {overwrite : Bool}
  {expected : Option ℤ} {fault : Option String} {stage stage' : BackupStage} {outcome : Access σ}

/-- Only what passes is validated. -/
theorem accepted_of_validate {validation : BackupValidation}
    (h : validateSqliteBackup files path expected fault = .ok validation) :
    Accepted expected (files path) := by
  unfold validateSqliteBackup at h
  cases hfile : files path with
  | none =>
      rw [hfile] at h
      cases h
  | some stored =>
      rw [hfile] at h
      cases fault with
      | some exc =>
          cases stored <;> cases h
      | none =>
          cases stored with
          | directory => cases h
          | other content => cases h
          | database db =>
              dsimp only at h
              split_ifs at h with hintegrity
              rw [not_not] at hintegrity
              cases expected with
              | none => exact ⟨db, rfl, hintegrity, by simp⟩
              | some version =>
                  dsimp only at h
                  split_ifs at h with hversion
                  rw [not_not] at hversion
                  exact ⟨db, rfl, hintegrity, fun v hv => hversion.trans (Option.some.inj hv)⟩

theorem afterValidation_cases (files : Files σ) (valid : BackupStage) (invalid : String → BackupStage) :
    BackupCall.afterValidation files path expected fault valid invalid = valid ∧
      Accepted expected (files path) ∨
    ∃ error, BackupCall.afterValidation files path expected fault valid invalid = invalid error := by
  rw [BackupCall.afterValidation]
  cases hvalidate : validateSqliteBackup files path expected fault with
  | ok validation => exact .inl ⟨rfl, accepted_of_validate hvalidate⟩
  | error error => exact .inr ⟨error, rfl⟩

theorem getLast?_tempTarget (target : DbPath) :
    (tempTarget target).getLast? = some (target.getLast?.getD "" ++ ".restore.tmp") := by
  rw [tempTarget, List.getLast?_append, List.getLast?_singleton, Option.some_or]

theorem tempTarget_ne (target : DbPath) : tempTarget target ≠ target := by
  intro h
  have hlast := getLast?_tempTarget target
  rw [h] at hlast
  cases hname : target.getLast? with
  | none =>
      rw [hname] at hlast
      cases hlast
  | some name =>
      rw [hname, Option.getD_some] at hlast
      have hlength := congrArg String.length (Option.some.inj hlast)
      rw [String.length_append] at hlength
      have htmp : ".restore.tmp".length = 12 := rfl
      omega

/-- All that an access of `create_sqlite_backup` can do. -/
inductive CreateAccess (files : Files σ) (source target : DbPath) :
    BackupStage → Files σ × BackupStage → Prop
  | refused (error : String) : CreateAccess files source target .begun (files, .raised error)
  | ready (hsource : files source ≠ none) (hfree : files target = none) :
      CreateAccess files source target .begun (files, .ready)
  | part (content : Stored σ) :
      CreateAccess files source target .ready (Function.update files target (some content), .ready)
  | copied (db : DatabaseFile σ) (hsource : files source = some (.database db)) :
      CreateAccess files source target .ready
        (Function.update files target (some (.database db)), .returned)
  | failed (error : String) : CreateAccess files source target .ready (files, .failing error)
  | undone (error : String) :
      CreateAccess files source target (.failing error)
        (Function.update files target none, .raised error)

/-- All that an access of `restore_sqlite_backup` can do. -/
inductive RestoreAccess (files : Files σ) (backup target : DbPath) (overwrite : Bool)
    (expected : Option ℤ) : BackupStage → Files σ × BackupStage → Prop
  | refused (stage : BackupStage) (hstage : stage = .begun ∨ stage = .validated) (error : String) :
      RestoreAccess files backup target overwrite expected stage (files, .raised error)
  | validated (haccepted : Accepted expected (files backup)) :
      RestoreAccess files backup target overwrite expected .begun (files, .validated)
  | ready (htemp : files (tempTarget target) = none) (hfree : files target = none ∨ overwrite = true) :
      RestoreAccess files backup target overwrite expected .validated (files, .ready)
  | part (content : Stored σ) :
      RestoreAccess files backup target overwrite expected .ready
        (Function.update files (tempTarget target) (some content), .ready)
  | copied (db : DatabaseFile σ) (hbackup : files backup = some (.database db)) :
      RestoreAccess files backup target overwrite expected .ready
        (Function.update files (tempTarget target) (some (.database db)), .copied)
  | checked (haccepted : Accepted expected (files (tempTarget target))) :
      RestoreAccess files backup target overwrite expected .copied (files, .checked)
  | failed (stage : BackupStage) (hstage : stage = .ready ∨ stage = .copied ∨ stage = .checked)
      (error : String) :
      RestoreAccess files backup target overwrite expected stage (files, .failing error)
  | replaced :
      RestoreAccess files backup target overwrite expected .checked
        (Function.update (Function.update files target (files (tempTarget target)))
          (tempTarget target) none, .returned)
  | undone (error : String) :
      RestoreAccess files backup target overwrite expected (.failing error)
        (Function.update files (tempTarget target) none, .raised error)

theorem copy_cases (files : Files σ) (job : BackupJob) (finished : BackupStage) :
    (∃ db, files job.source = some (.database db) ∧ BackupCall.copy files job finished =
      (Function.update files job.scratch (some (.database db)), finished)) ∨
    ∃ error, BackupCall.copy files job finished = (files, .failing error) := by
  rw [BackupCall.copy]
  cases files job.source with
  | none => exact .inr ⟨_, rfl⟩
  | some stored =>
      cases stored with
      | directory => exact .inr ⟨_, rfl⟩
      | database db => exact .inl ⟨db, rfl, rfl⟩
      | other content => exact .inr ⟨_, rfl⟩

theorem createAccess_of_access
    (h : BackupCall.accessCreate files source target stage outcome = some (files', stage')) :
    CreateAccess files source target stage (files', stage') := by
  unfold BackupCall.accessCreate at h
  split at h
  · cases h
    rw [BackupCall.checkCreate]
    split_ifs with hsource htarget
    · exact .refused _
    · exact .refused _
    · exact .ready hsource (not_not.mp htarget)
  · cases h
    exact .refused _
  · cases h
    exact .part _
  · rcases copy_cases files (.create source target) .returned with ⟨db, hdb, hcopy⟩ | ⟨error, hcopy⟩
    · rw [hcopy] at h
      cases h
      exact .copied db hdb
    · rw [hcopy] at h
      cases h
      exact .failed error
  · cases h
    exact .failed _
  · cases h
    exact .undone _
  · cases h

theorem restoreAccess_of_access
    (h : BackupCall.accessRestore files backup target overwrite expected stage outcome =
      some (files', stage')) :
    RestoreAccess files backup target overwrite expected stage (files', stage') := by
  unfold BackupCall.accessRestore at h
  split at h
  · cases h
    rcases afterValidation_cases files .validated .raised with ⟨hvalid, haccepted⟩ | ⟨error, hinvalid⟩
    · rw [hvalid]
      exact .validated haccepted
    · rw [hinvalid]
      exact .refused _ (.inl rfl) error
  · cases h
    rcases afterValidation_cases files .validated .raised with ⟨hvalid, haccepted⟩ | ⟨error, hinvalid⟩
    · rw [hvalid]
      exact .validated haccepted
    · rw [hinvalid]
      exact .refused _ (.inl rfl) error
  · cases h
    rw [BackupCall.checkRestore]
    split_ifs with htarget htemp
    · exact .refused _ (.inr rfl) _
    · exact .refused _ (.inr rfl) _
    · refine .ready (not_not.mp htemp) ?_
      by_cases hfree : files target = none
      · exact .inl hfree
      · exact .inr (by simpa using fun hno => htarget ⟨hfree, hno⟩)
  · cases h
    exact .refused _ (.inr rfl) _
  · cases h
    exact .part _
  · rcases copy_cases files (.restore backup target overwrite expected) .copied with
      ⟨db, hdb, hcopy⟩ | ⟨error, hcopy⟩
    · rw [hcopy] at h
      cases h
      exact .copied db hdb
    · rw [hcopy] at h
      cases h
      exact .failed _ (.inl rfl) error
  · cases h
    exact .failed _ (.inl rfl) _
  · cases h
    rcases afterValidation_cases files .checked .failing with ⟨hvalid, haccepted⟩ | ⟨error, hinvalid⟩
    · rw [hvalid]
      exact .checked haccepted
    · rw [hinvalid]
      exact .failed _ (.inr (.inl rfl)) error
  · cases h
    rcases afterValidation_cases files .checked .failing with ⟨hvalid, haccepted⟩ | ⟨error, hinvalid⟩
    · rw [hvalid]
      exact .checked haccepted
    · rw [hinvalid]
      exact .failed _ (.inr (.inl rfl)) error
  · rw [BackupCall.replace] at h
    split_ifs at h
    · cases h
      exact .failed _ (.inr (.inr rfl)) _
    · cases h
      exact .replaced
  · cases h
    exact .failed _ (.inr (.inr rfl)) _
  · cases h
    exact .undone _
  · cases h

end Accesses

section Alone
variable {files₀ files files' : Files σ} {job : BackupJob} {stage stage' : BackupStage}
  {outcome : Access σ} {outcomes : List (Access σ)}

/-- The next access of a call that nobody disturbs. -/
def BackupJob.advance (job : BackupJob) (s : Files σ × BackupStage) (outcome : Access σ) :
    Option (Files σ × BackupStage) :=
  BackupCall.access s.1 ⟨job, s.2⟩ outcome

/-- The file that a call is to leave behind. -/
def BackupJob.target : BackupJob → DbPath
  | .create _ target => target
  | .restore _ target _ _ => target

/-- What a call asks of the files before it writes. -/
structure BackupJob.Allowed (job : BackupJob) (files₀ : Files σ) : Prop where
  source : files₀ job.source ≠ none
  scratch : files₀ job.scratch = none
  accepted : ∀ backup target overwrite expected, job = .restore backup target overwrite expected →
    Accepted expected (files₀ backup) ∧ (files₀ target = none ∨ overwrite = true)

/-- The files of a call that has got so far. -/
def SoFar (files₀ : Files σ) (job : BackupJob) (files : Files σ) : BackupStage → Prop
  | .begun | .raised _ => files = files₀
  | .validated => files = files₀ ∧ ∀ backup target overwrite expected,
      job = .restore backup target overwrite expected → Accepted expected (files₀ backup)
  | .ready | .failing _ => job.Allowed files₀ ∧ ∀ p, p ≠ job.scratch → files p = files₀ p
  | .copied | .checked => job.Allowed files₀ ∧
      ∃ db, files₀ job.source = some (.database db) ∧
        files = Function.update files₀ job.scratch (some (.database db))
  | .returned => job.Allowed files₀ ∧
      ∃ db, files₀ job.source = some (.database db) ∧
        files = Function.update files₀ job.target (some (.database db))

theorem BackupJob.Allowed.source_ne (h : job.Allowed files₀) : job.source ≠ job.scratch := by
  intro heq
  exact h.source (heq ▸ h.scratch)

/-- With its copy removed, a call has changed nothing. -/
theorem BackupJob.Allowed.undone (h : job.Allowed files₀)
    (hothers : ∀ p, p ≠ job.scratch → files p = files₀ p) :
    Function.update files job.scratch none = files₀ := by
  funext p
  by_cases hp : p = job.scratch
  · rw [hp, Function.update_self, h.scratch]
  · rw [Function.update_of_ne hp, hothers p hp]

theorem BackupJob.Allowed.copied (h : job.Allowed files₀)
    (hothers : ∀ p, p ≠ job.scratch → files p = files₀ p) {db : DatabaseFile σ}
    (hsource : files job.source = some (.database db)) :
    files₀ job.source = some (.database db) ∧
      Function.update files job.scratch (some (.database db)) =
        Function.update files₀ job.scratch (some (.database db)) := by
  refine ⟨(hothers _ h.source_ne).symm.trans hsource, ?_⟩
  funext p
  by_cases hp : p = job.scratch
  · rw [hp, Function.update_self, Function.update_self]
  · rw [Function.update_of_ne hp, Function.update_of_ne hp, hothers p hp]

theorem SoFar.create {source target : DbPath} (h : SoFar files₀ (.create source target) files stage)
    (haccess : CreateAccess files source target stage (files', stage')) :
    SoFar files₀ (.create source target) files' stage' := by
  cases haccess with
  | refused error => exact h
  | ready hsource hfree =>
      have hfiles : files = files₀ := h
      rw [hfiles] at hsource hfree
      refine ⟨⟨hsource, hfree, ?_⟩, fun p _ => by rw [hfiles]⟩
      intro _ _ _ _ hjob
      cases hjob
  | part content =>
      exact ⟨h.1, fun p hp => (Function.update_of_ne hp _ _).trans (h.2 p hp)⟩
  | copied db hsource => exact ⟨h.1, db, h.1.copied h.2 hsource⟩
  | failed error => exact h
  | undone error => exact h.1.undone h.2

theorem SoFar.restore {backup target : DbPath} {overwrite : Bool} {expected : Option ℤ}
    (h : SoFar files₀ (.restore backup target overwrite expected) files stage)
    (haccess : RestoreAccess files backup target overwrite expected stage (files', stage')) :
    SoFar files₀ (.restore backup target overwrite expected) files' stage' := by
  cases haccess with
  | refused _ hstage error =>
      rcases hstage with rfl | rfl
      · exact h
      · exact h.1
  | validated haccepted =>
      have hfiles : files = files₀ := h
      rw [hfiles] at haccepted
      refine ⟨h, ?_⟩
      rintro _ _ _ _ ⟨⟩
      exact haccepted
  | ready htemp hfree =>
      obtain ⟨hfiles, haccepted⟩ := h
      rw [hfiles] at htemp hfree
      have hbackup := haccepted backup target overwrite expected rfl
      refine ⟨⟨hbackup.ne_none, htemp, ?_⟩, fun p _ => by rw [hfiles]⟩
      rintro _ _ _ _ ⟨⟩
      exact ⟨hbackup, hfree⟩
  | part content =>
      exact ⟨h.1, fun p hp => (Function.update_of_ne hp _ _).trans (h.2 p hp)⟩
  | copied db hsource => exact ⟨h.1, db, h.1.copied h.2 hsource⟩
  | checked haccepted => exact h
  | failed _ hstage error =>
      rcases hstage with rfl | rfl | rfl
      · exact h
      · obtain ⟨hallowed, db, -, hfiles⟩ := h
        exact ⟨hallowed, fun p hp => by rw [hfiles, Function.update_of_ne hp]⟩
      · obtain ⟨hallowed, db, -, hfiles⟩ := h
        exact ⟨hallowed, fun p hp => by rw [hfiles, Function.update_of_ne hp]⟩
  | replaced =>
      obtain ⟨hallowed, db, hsource, hfiles⟩ := h
      refine ⟨hallowed, db, hsource, ?_⟩
      have hne := tempTarget_ne target
      have htemp : files (tempTarget target) = some (.database db) := by
        rw [hfiles]
        exact Function.update_self _ _ _
      rw [htemp]
      funext p
      by_cases hp : p = tempTarget target
      · rw [hp, Function.update_self, BackupJob.target, Function.update_of_ne hne]
        exact hallowed.scratch.symm
      · rw [Function.update_of_ne hp, BackupJob.target]
        by_cases hpt : p = target
        · rw [hpt, Function.update_self, Function.update_self]
        · rw [Function.update_of_ne hpt, Function.update_of_ne hpt, hfiles]
          exact Function.update_of_ne hp _ _
  | undone error => exact h.1.undone h.2

theorem SoFar.advance (h : SoFar files₀ job files stage)
    (hadvance : job.advance (files, stage) outcome = some (files', stage')) :
    SoFar files₀ job files' stage' := by
  rw [BackupJob.advance, BackupCall.access] at hadvance
  cases job with
  | create source target => exact h.create (createAccess_of_access hadvance)
  | restore backup target overwrite expected => exact h.restore (restoreAccess_of_access hadvance)

theorem soFar_of_run
    (hrun : PartialRun.exec job.advance (files₀, .begun) outcomes = some (files, stage)) :
    SoFar files₀ job files stage := by
  refine PartialRun.invariant_of_step (I := fun s => SoFar files₀ job s.1 s.2) ?_
    (show SoFar files₀ job files₀ .begun from rfl) hrun
  rintro ⟨files, stage⟩ outcome ⟨files', stage'⟩ h hadvance
  exact h.advance hadvance

end Alone

/-- A database, and nothing else. -/
def oneDatabase : Files ℕ := fun path =>
  if path = ["live.db"] then
    some (.database { userVersion := 2, integrity := some "ok", tables := ["task"], content := 1 })
  else none

def createOnce : BackupJob := .create ["live.db"] ["backup.db"]

def restoreOnce : BackupJob := .restore ["backup.db"] ["live.db"] true (some 2)

def backedUp : Files ℕ := Function.update oneDatabase ["backup.db"] (oneDatabase ["live.db"])

/-- The database is lost between its backup and the restore. -/
def lostDatabase : Files ℕ := Function.update backedUp ["live.db"] none

end SmartMedia.Migrations
