import Mathlib.Data.List.Sort
import Mathlib.Data.Int.Order.Basic
import Mathlib.Algebra.Order.Group.Int
import SmartMedia.Library.PartialRun

/-!
# The migration runner

`app/migrations/runner.py`. A run of `run_migrations` reads the schema version once and
then opens a `begin` block for each migration above it; the blocks are the atomic steps.
Any number of runners may be at work on one database. The history variable `applied`
lists the versions whose blocks have been committed.
-/
namespace SmartMedia.Migrations

/-- The stored `user_version` and all the rest of the database. -/
structure Database (σ : Type*) where
  userVersion : ℤ
  schema : σ
  deriving DecidableEq, Repr

/-- What `apply` does with its connection, the exception's text where it raises. -/
structure Migration (σ : Type*) where
  version : ℤ
  name : String
  apply : Database σ → Except String (Database σ)

structure MigrationResult where
  previousVersion : ℤ
  currentVersion : ℤ
  targetVersion : ℤ
  appliedVersions : List ℤ
  deriving DecidableEq, Repr

variable {σ : Type*}

def getSchemaVersion (connection : Database σ) : ℤ := connection.userVersion

def setSchemaVersion (connection : Database σ) (version : ℤ) : Except String (Database σ) :=
  if version < 0 then .error "schema version must be non-negative"
  else .ok { connection with userVersion := version }

/-- The loop of `_normalize_migrations`: its `ValueError`, if it raises one. -/
def versionError : List (Migration σ) → List ℤ → Option String
  | [], _ => none
  | migration :: ordered, seen =>
      if migration.version ≤ 0 then some "migration versions must be positive"
      else if migration.version ∈ seen then
        some ("duplicate migration version: " ++ toString migration.version)
      else versionError ordered (migration.version :: seen)

/-- `sorted(migrations, key=lambda item: item.version)`. -/
def sortedMigrations (migrations : List (Migration σ)) : List (Migration σ) :=
  migrations.insertionSort fun a b => a.version ≤ b.version

def normalizeMigrations (migrations : List (Migration σ)) : Except String (List (Migration σ)) :=
  match versionError (sortedMigrations migrations) [] with
  | some error => .error error
  | none => .ok (sortedMigrations migrations)

def targetVersion (ordered : List (Migration σ)) : ℤ :=
  (ordered.getLast?.map (·.version)).getD 0

/-- The body of a `begin` block: what is committed, the runner's `current_version` after
it, and whether the migration has been applied. -/
def beginBlock (migration : Migration σ) (currentVersion : ℤ) (connection : Database σ) :
    Except String (Database σ × ℤ × Bool) := do
  let liveVersion := getSchemaVersion connection
  if liveVersion ≠ currentVersion ∧ migration.version ≤ liveVersion then
    return (connection, liveVersion, false)
  let connection ← migration.apply connection
  let connection ← setSchemaVersion connection migration.version
  return (connection, migration.version, true)

/-- Where a call of `run_migrations` is; `migrating` stands before the block of `migration`. -/
inductive Runner (σ : Type*) where
  | connecting (ordered : List (Migration σ))
  | migrating (previous current target : ℤ) (migration : Migration σ)
      (rest : List (Migration σ)) (appliedVersions : List ℤ)
  | returned (result : MigrationResult)
  | raised (error : String)

namespace Runner

/-- The `for` loop up to its next `begin` block, or the return behind it. -/
def loop (previous current target : ℤ) (appliedVersions : List ℤ) :
    List (Migration σ) → Runner σ
  | [] => .returned ⟨previous, current, target, appliedVersions⟩
  | migration :: rest =>
      if migration.version ≤ current then loop previous current target appliedVersions rest
      else .migrating previous current target migration rest appliedVersions

/-- The call up to its first access to the database. -/
def start (migrations : List (Migration σ)) : Runner σ :=
  match normalizeMigrations migrations with
  | .error error => .raised error
  | .ok ordered => .connecting ordered

/-- From the `connect` block on. -/
def connected (ordered : List (Migration σ)) (previous : ℤ) : Runner σ :=
  let target := targetVersion ordered
  if target < previous then
    .raised ("database schema version " ++ toString previous ++
      " is newer than supported version " ++ toString target)
  else loop previous previous target [] ordered

/-- The message of the `MigrationError` that wraps what a block raises. -/
def blockError (migration : Migration σ) (error : String) : String :=
  "apply migration " ++ toString migration.version ++ " " ++ migration.name ++ ": " ++ error

end Runner

/-- The database and the runners on it. -/
structure MigrationSystem (σ : Type*) where
  database : Database σ
  runners : List (Runner σ) := []
  applied : List ℤ := []

/-- `access` is the next `connect` or `begin` block of a runner; `fault` is one that the
database makes fail. -/
inductive MigrationAction where
  | start
  | access (runner : ℕ)
  | fault (runner : ℕ) (error : String)
  deriving DecidableEq, Repr

namespace MigrationSystem

def step (migrations : List (Migration σ)) (s : MigrationSystem σ) :
    MigrationAction → Option (MigrationSystem σ)
  | .start => some { s with runners := s.runners ++ [.start migrations] }
  | .access i =>
      match s.runners[i]? with
      | some (.connecting ordered) =>
          let runner := Runner.connected ordered (getSchemaVersion s.database)
          some { s with runners := s.runners.set i runner }
      | some (.migrating previous current target migration rest appliedVersions) =>
          match beginBlock migration current s.database with
          | .error error =>
              some { s with runners := s.runners.set i (.raised (Runner.blockError migration error)) }
          | .ok (_, current, false) =>
              let runner := Runner.loop previous current target appliedVersions rest
              some { s with runners := s.runners.set i runner }
          | .ok (database, current, true) =>
              let runner := Runner.loop previous current target
                (appliedVersions ++ [migration.version]) rest
              some {
                database
                runners := s.runners.set i runner
                applied := s.applied ++ [migration.version] }
      | _ => none
  | .fault i error =>
      match s.runners[i]? with
      | some (.connecting _) => some { s with runners := s.runners.set i (.raised error) }
      | some (.migrating _ _ _ migration _ _) =>
          some { s with runners := s.runners.set i (.raised (Runner.blockError migration error)) }
      | _ => none

end MigrationSystem

/-! ### What the functions return -/

theorem setSchemaVersion_eq {connection : Database σ} {version : ℤ} (h : 0 ≤ version) :
    setSchemaVersion connection version = .ok { connection with userVersion := version } := by
  rw [setSchemaVersion, if_neg (by omega)]

theorem sortedMigrations_perm (migrations : List (Migration σ)) :
    (sortedMigrations migrations).Perm migrations :=
  List.perm_insertionSort _ _

theorem sortedMigrations_ne_nil {migrations : List (Migration σ)} (h : migrations ≠ []) :
    sortedMigrations migrations ≠ [] := by
  intro hnil
  apply h
  exact List.perm_nil.mp (hnil ▸ (sortedMigrations_perm migrations).symm)

theorem versionError_eq_none {ordered : List (Migration σ)} {seen : List ℤ}
    (hpositive : ∀ migration ∈ ordered, 0 < migration.version)
    (hdistinct : (ordered.map (·.version)).Nodup)
    (hseen : ∀ migration ∈ ordered, migration.version ∉ seen) : versionError ordered seen = none := by
  induction ordered generalizing seen with
  | nil => rfl
  | cons migration ordered ih =>
      have hfirst : 0 < migration.version := hpositive migration List.mem_cons_self
      rw [List.map_cons, List.nodup_cons] at hdistinct
      rw [versionError, if_neg (by omega), if_neg (hseen migration List.mem_cons_self)]
      apply ih (fun m hm => hpositive m (List.mem_cons_of_mem _ hm)) hdistinct.2
      intro m hm hmem
      rcases List.mem_cons.mp hmem with hsame | hmem
      · exact hdistinct.1 (hsame ▸ List.mem_map_of_mem hm)
      · exact hseen m (List.mem_cons_of_mem _ hm) hmem

/-- Distinct positive versions come out of `_normalize_migrations` in strict order. -/
theorem sortedMigrations_strict {migrations : List (Migration σ)}
    (hdistinct : (migrations.map (·.version)).Nodup) :
    ((sortedMigrations migrations).map (·.version)).Pairwise (· < ·) := by
  have hsorted : ((sortedMigrations migrations).map (·.version)).Pairwise (· ≤ ·) := by
    rw [List.pairwise_map]
    have : Std.Total fun (a b : Migration σ) => a.version ≤ b.version := ⟨fun a b => le_total _ _⟩
    have : IsTrans (Migration σ) fun a b => a.version ≤ b.version := ⟨fun a b c => le_trans⟩
    exact List.pairwise_insertionSort _ _
  have hnodup : ((sortedMigrations migrations).map (·.version)).Nodup :=
    ((sortedMigrations_perm migrations).map _).nodup_iff.mpr hdistinct
  exact hsorted.imp₂ (fun _ _ hle hne => lt_of_le_of_ne hle hne) hnodup

theorem normalizeMigrations_eq {migrations : List (Migration σ)}
    (hpositive : ∀ migration ∈ migrations, 0 < migration.version)
    (hdistinct : (migrations.map (·.version)).Nodup) :
    normalizeMigrations migrations = .ok (sortedMigrations migrations) := by
  have hperm := sortedMigrations_perm migrations
  rw [normalizeMigrations, versionError_eq_none]
  · intro m hm
    exact hpositive m (hperm.mem_iff.mp hm)
  · exact (hperm.map _).nodup_iff.mpr hdistinct
  · intro m _ hmem
    cases hmem

/-- What a `begin` block can do. -/
theorem beginBlock_cases (migration : Migration σ) (current : ℤ) (connection : Database σ) :
    (∃ error, beginBlock migration current connection = .error error) ∨
      (migration.version ≤ connection.userVersion ∧ current ≠ connection.userVersion ∧
        beginBlock migration current connection = .ok (connection, connection.userVersion, false)) ∨
      ((current = connection.userVersion ∨ connection.userVersion < migration.version) ∧
        ∃ after, migration.apply connection = .ok after ∧
          beginBlock migration current connection =
            .ok ({ after with userVersion := migration.version }, migration.version, true)) := by
  by_cases hskip : connection.userVersion ≠ current ∧ migration.version ≤ connection.userVersion
  · refine .inr (.inl ⟨hskip.2, hskip.1.symm, ?_⟩)
    rw [beginBlock]
    exact if_pos hskip
  · have hblock : beginBlock migration current connection = (do
        let connection ← migration.apply connection
        let connection ← setSchemaVersion connection migration.version
        return (connection, migration.version, true)) := by
      rw [beginBlock, getSchemaVersion]
      exact if_neg hskip
    rw [hblock]
    cases happly : migration.apply connection with
    | error error => exact .inl ⟨error, rfl⟩
    | ok after =>
        change (∃ error, (setSchemaVersion after migration.version >>= _) = _) ∨ _ ∨
          _ ∧ ∃ after', _ ∧ (setSchemaVersion after migration.version >>= _) = _
        by_cases hnegative : migration.version < 0
        · rw [setSchemaVersion, if_pos hnegative]
          exact .inl ⟨_, rfl⟩
        · rw [setSchemaVersion_eq (by omega)]
          refine .inr (.inr ⟨by omega, after, rfl, rfl⟩)

theorem beginBlock_eq {migration : Migration σ} {connection after : Database σ}
    (hversion : 0 ≤ migration.version) (happly : migration.apply connection = .ok after) :
    beginBlock migration connection.userVersion connection =
      .ok ({ after with userVersion := migration.version }, migration.version, true) := by
  rcases beginBlock_cases migration connection.userVersion connection with
    ⟨error, hblock⟩ | ⟨-, hne, -⟩ | ⟨-, after', happly', hblock⟩
  · rw [beginBlock, getSchemaVersion] at hblock
    replace hblock := (if_neg fun h => h.1 rfl).symm.trans hblock
    rw [happly] at hblock
    change (setSchemaVersion after migration.version >>= _) = _ at hblock
    rw [setSchemaVersion_eq hversion] at hblock
    cases hblock
  · exact absurd rfl hne
  · rw [hblock, Except.ok.inj (happly.symm.trans happly')]

namespace MigrationSystem

/-- What a step can do: only `commits` touches the database. -/
inductive Moves (migrations : List (Migration σ)) (s : MigrationSystem σ) :
    MigrationSystem σ → Prop
  | starts : Moves migrations s { s with runners := s.runners ++ [.start migrations] }
  | connects {i : ℕ} {ordered : List (Migration σ)} :
      s.runners[i]? = some (.connecting ordered) →
      Moves migrations s { s with
        runners := s.runners.set i (.connected ordered s.database.userVersion) }
  | raises (i : ℕ) (error : String) :
      Moves migrations s { s with runners := s.runners.set i (.raised error) }
  | skips {i : ℕ} {previous current target : ℤ} {migration : Migration σ}
      {rest : List (Migration σ)} {appliedVersions : List ℤ} :
      s.runners[i]? = some (.migrating previous current target migration rest appliedVersions) →
      migration.version ≤ s.database.userVersion →
      Moves migrations s { s with
        runners := s.runners.set i
          (.loop previous s.database.userVersion target appliedVersions rest) }
  | commits {i : ℕ} {previous current target : ℤ} {migration : Migration σ}
      {rest : List (Migration σ)} {appliedVersions : List ℤ} {after : Database σ} :
      s.runners[i]? = some (.migrating previous current target migration rest appliedVersions) →
      current = s.database.userVersion ∨ s.database.userVersion < migration.version →
      migration.apply s.database = .ok after →
      Moves migrations s {
        database := { after with userVersion := migration.version }
        runners := s.runners.set i
          (.loop previous migration.version target (appliedVersions ++ [migration.version]) rest)
        applied := s.applied ++ [migration.version] }

theorem step_moves {migrations : List (Migration σ)} {s s' : MigrationSystem σ}
    {a : MigrationAction} (hstep : s.step migrations a = some s') : Moves migrations s s' := by
  cases a with
  | start =>
      obtain rfl := Option.some.inj hstep
      exact .starts
  | access i =>
      rw [step] at hstep
      split at hstep
      · next ordered hrunner =>
          obtain rfl := Option.some.inj hstep
          exact .connects hrunner
      · next previous current target migration rest appliedVersions hrunner =>
          rcases beginBlock_cases migration current s.database with
            ⟨error, hblock⟩ | ⟨hle, -, hblock⟩ | ⟨hlive, after, happly, hblock⟩
          all_goals
            rw [hblock] at hstep
            obtain rfl := Option.some.inj hstep
          · exact .raises i _
          · exact .skips hrunner hle
          · exact .commits hrunner hlive happly
      · cases hstep
  | fault i error =>
      rw [step] at hstep
      split at hstep
      · obtain rfl := Option.some.inj hstep
        exact .raises i _
      · obtain rfl := Option.some.inj hstep
        exact .raises i _
      · cases hstep

end MigrationSystem

end SmartMedia.Migrations
