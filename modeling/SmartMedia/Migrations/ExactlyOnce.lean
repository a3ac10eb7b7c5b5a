import SmartMedia.Migrations.Runner

/-!
# Every migration once

Whatever the runners, the committed versions are the beginning of the pending ones: a
runner's list is computed from a version that may be out of date when a block of it is
entered, and the block looks again.
-/
namespace SmartMedia.Migrations

variable {σ : Type*}

/-- The versions that a database at `version` has yet to go through. -/
def pendingVersions (ordered : List (Migration σ)) (version : ℤ) : List ℤ :=
  (ordered.map (·.version)).filter (version < ·)

/-- The migrations that a database at `version` has yet to go through. -/
def remaining (ordered : List (Migration σ)) (version : ℤ) : List (Migration σ) :=
  ordered.filter (version < ·.version)

/-- The blocks of these migrations one after the other. -/
def applyAll : List (Migration σ) → Database σ → Except String (Database σ)
  | [], connection => .ok connection
  | migration :: rest, connection =>
      match migration.apply connection with
      | .error error => .error error
      | .ok connection => applyAll rest { connection with userVersion := migration.version }

section Versions
variable {ordered pre rest : List (Migration σ)} {m : Migration σ} {version : ℤ}

theorem remaining_map : (remaining ordered version).map (·.version) = pendingVersions ordered version := by
  rw [remaining, pendingVersions, List.filter_map]
  rfl

/-- What is not pending stands before what is. -/
theorem remaining_split (hstrict : (ordered.map (·.version)).Pairwise (· < ·)) :
    ∃ pre, ordered = pre ++ remaining ordered version ∧ ∀ x ∈ pre, x.version ≤ version := by
  induction ordered with
  | nil => exact ⟨[], rfl, by simp⟩
  | cons m ordered ih =>
      rw [List.map_cons, List.pairwise_cons] at hstrict
      by_cases hm : version < m.version
      · have hall : remaining (m :: ordered) version = m :: ordered := by
          rw [remaining, List.filter_eq_self]
          intro x hx
          rcases List.mem_cons.mp hx with rfl | hx
          · exact decide_eq_true hm
          · have hlater : m.version < x.version := hstrict.1 x.version (List.mem_map_of_mem hx)
            exact decide_eq_true (by omega)
        exact ⟨[], hall.symm, by simp⟩
      · obtain ⟨pre, hsplit, hpre⟩ := ih hstrict.2
        have hskip : remaining (m :: ordered) version = remaining ordered version :=
          List.filter_cons_of_neg (by simpa using hm)
        refine ⟨m :: pre, ?_, ?_⟩
        · rw [hskip, List.cons_append, ← hsplit]
        · intro x hx
          rcases List.mem_cons.mp hx with rfl | hx
          · omega
          · exact hpre x hx

theorem pendingVersions_append (hsplit : ordered = pre ++ rest)
    (hpre : ∀ x ∈ pre, x.version ≤ version) (hrest : ∀ x ∈ rest, version < x.version) :
    pendingVersions ordered version = rest.map (·.version) := by
  have hnone : pre.filter (version < ·.version) = [] := by
    rw [List.filter_eq_nil_iff]
    intro x hx
    have hle := hpre x hx
    simp only [decide_eq_true_eq]
    omega
  have hall : rest.filter (version < ·.version) = rest := by
    rw [List.filter_eq_self]
    intro x hx
    exact decide_eq_true (hrest x hx)
  rw [← remaining_map, remaining, hsplit, List.filter_append, hnone, hall, List.nil_append]

/-- Committing the first pending version leaves the others. -/
theorem pendingVersions_cons (hstrict : (ordered.map (·.version)).Pairwise (· < ·))
    (hsplit : ordered = pre ++ m :: rest) (hpre : ∀ x ∈ pre, x.version ≤ version)
    (hversion : version < m.version) :
    pendingVersions ordered version = m.version :: pendingVersions ordered m.version := by
  have hparts := hstrict
  rw [hsplit, List.map_append, List.map_cons, List.pairwise_append, List.pairwise_cons] at hparts
  obtain ⟨-, ⟨hrest, -⟩, -⟩ := hparts
  have hlater : ∀ x ∈ rest, m.version < x.version := fun x hx => hrest x.version (List.mem_map_of_mem hx)
  have hsplit' : ordered = (pre ++ [m]) ++ rest := by
    rw [hsplit, List.append_assoc]
    rfl
  rw [pendingVersions_append hsplit hpre, pendingVersions_append hsplit' _ hlater]
  · rfl
  · intro x hx
    rcases List.mem_append.mp hx with hx | hx
    · have hle := hpre x hx
      omega
    · rw [List.mem_singleton.mp hx]
  · intro x hx
    rcases List.mem_cons.mp hx with rfl | hx
    · exact hversion
    · have hlt := hlater x hx
      omega

theorem targetVersion_concat (ordered : List (Migration σ)) (m : Migration σ) :
    targetVersion (ordered ++ [m]) = m.version := by
  rw [targetVersion, List.getLast?_concat]
  rfl

theorem le_targetVersion (hstrict : (ordered.map (·.version)).Pairwise (· < ·))
    (hm : m ∈ ordered) : m.version ≤ targetVersion ordered := by
  induction ordered using List.reverseRecOn with
  | nil => cases hm
  | append_singleton ordered last _ =>
      rw [List.map_append, List.pairwise_append] at hstrict
      rw [targetVersion_concat]
      rcases List.mem_append.mp hm with hm | hm
      · have hlast : m.version < last.version :=
          hstrict.2.2 m.version (List.mem_map_of_mem hm) last.version (by simp)
        omega
      · rw [List.mem_singleton.mp hm]

/-- Nothing pending means that the target is reached. -/
theorem targetVersion_le (hall : ∀ x ∈ ordered, x.version ≤ version)
    (hstart : 0 ≤ version ∨ ordered ≠ []) : targetVersion ordered ≤ version := by
  induction ordered using List.reverseRecOn with
  | nil =>
      have hzero : 0 ≤ version := hstart.resolve_right fun h => h rfl
      exact hzero
  | append_singleton ordered last _ =>
      rw [targetVersion_concat]
      exact hall last (by simp)

end Versions

/-- A runner at `current` has dealt with all migrations before `rest`. -/
structure Behind (ordered : List (Migration σ)) (start stored current : ℤ)
    (rest : List (Migration σ)) : Prop where
  start_le : start ≤ current
  le_stored : current ≤ stored
  split : ∃ pre, ordered = pre ++ rest ∧ ∀ x ∈ pre, x.version ≤ current

def Runner.Sound (ordered : List (Migration σ)) (start stored : ℤ) : Runner σ → Prop
  | .connecting listed => listed = ordered
  | .migrating _ current target migration rest _ =>
      target = targetVersion ordered ∧ current < migration.version ∧
        Behind ordered start stored current (migration :: rest)
  | .returned result => Behind ordered start stored result.currentVersion []
  | .raised _ => True

/-- What holds of the database and the runners at any time. -/
structure MigrationSystem.Sound (ordered : List (Migration σ)) (start : ℤ)
    (s : MigrationSystem σ) : Prop where
  split : s.applied ++ pendingVersions ordered s.database.userVersion = pendingVersions ordered start
  stored : s.database.userVersion = s.applied.getLast?.getD start
  start_le : start ≤ s.database.userVersion
  le_target : s.database.userVersion ≤ targetVersion ordered
  runners : ∀ runner ∈ s.runners, runner.Sound ordered start s.database.userVersion

section Steps
variable {ordered rest : List (Migration σ)} {m : Migration σ} {start stored current : ℤ}

theorem Behind.mono {stored' : ℤ} (h : Behind ordered start stored current rest)
    (hle : stored ≤ stored') : Behind ordered start stored' current rest :=
  ⟨h.start_le, h.le_stored.trans hle, h.split⟩

/-- Passing over a migration that is not above the new `current`. -/
theorem Behind.next {current' : ℤ} (h : Behind ordered start stored current (m :: rest))
    (hle : current ≤ current') (hstored : current' ≤ stored) (hm : m.version ≤ current') :
    Behind ordered start stored current' rest := by
  obtain ⟨pre, hsplit, hpre⟩ := h.split
  refine ⟨h.start_le.trans hle, hstored, pre ++ [m], ?_, ?_⟩
  · rw [hsplit, List.append_assoc]
    rfl
  · intro x hx
    rcases List.mem_append.mp hx with hx | hx
    · exact (hpre x hx).trans hle
    · rw [List.mem_singleton.mp hx]
      exact hm

theorem Runner.Sound.mono {runner : Runner σ} {stored' : ℤ} (h : runner.Sound ordered start stored)
    (hle : stored ≤ stored') : runner.Sound ordered start stored' := by
  cases runner with
  | connecting listed => exact h
  | migrating previous current target migration rest applied => exact ⟨h.1, h.2.1, h.2.2.mono hle⟩
  | returned result => exact Behind.mono h hle
  | raised error => trivial

theorem Runner.loop_sound (previous : ℤ) (applied : List ℤ)
    (h : Behind ordered start stored current rest) :
    (loop previous current (targetVersion ordered) applied rest).Sound ordered start stored := by
  induction rest with
  | nil => exact h
  | cons m rest ih =>
      rw [loop]
      split
      · apply ih
        exact h.next le_rfl h.le_stored (by assumption)
      · exact ⟨rfl, by omega, h⟩

theorem Runner.loop_ne_raised {previous target : ℤ} {applied : List ℤ} {error : String} :
    loop previous current target applied rest ≠ .raised error := by
  induction rest with
  | nil => exact nofun
  | cons m rest ih =>
      rw [loop]
      split
      · exact ih
      · exact nofun

theorem Runner.connected_sound (hstart : start ≤ stored) :
    (connected ordered stored).Sound ordered start stored := by
  rw [connected]
  split
  · trivial
  · apply loop_sound
    exact ⟨hstart, le_rfl, [], rfl, by simp⟩

namespace MigrationSystem
variable {s : MigrationSystem σ} {i : ℕ} {runner : Runner σ}

theorem Sound.setRunner (h : s.Sound ordered start)
    (hrunner : runner.Sound ordered start s.database.userVersion) :
    MigrationSystem.Sound ordered start { s with runners := s.runners.set i runner } := by
  refine ⟨h.split, h.stored, h.start_le, h.le_target, ?_⟩
  intro other hother
  rcases List.mem_or_eq_of_mem_set hother with hother | rfl
  · exact h.runners other hother
  · exact hrunner

/-- A block that applies its migration finds the database at the version before it. -/
theorem Sound.commit (h : s.Sound ordered start) {schema : Database σ} {previous : ℤ}
    {appliedVersions : List ℤ} (hstrict : (ordered.map (·.version)).Pairwise (· < ·))
    (hbehind : Behind ordered start s.database.userVersion current (m :: rest))
    (hlive : s.database.userVersion < m.version) :
    MigrationSystem.Sound ordered start {
      database := { schema with userVersion := m.version }
      runners := s.runners.set i
        (Runner.loop previous m.version (targetVersion ordered) appliedVersions rest)
      applied := s.applied ++ [m.version] } := by
  obtain ⟨pre, hsplit, hpre⟩ := hbehind.split
  have hcurrent := hbehind.le_stored
  have hpending : pendingVersions ordered s.database.userVersion =
      m.version :: pendingVersions ordered m.version := by
    apply pendingVersions_cons hstrict hsplit _ hlive
    intro x hx
    exact (hpre x hx).trans hcurrent
  have hmem : m ∈ ordered := by
    rw [hsplit]
    simp
  constructor
  · rw [← h.split, hpending, List.append_assoc]
    rfl
  · rw [List.getLast?_concat]
    rfl
  · have hle := h.start_le
    change start ≤ m.version
    omega
  · exact le_targetVersion hstrict hmem
  · intro other hother
    rcases List.mem_or_eq_of_mem_set hother with hother | rfl
    · exact (h.runners other hother).mono hlive.le
    · apply Runner.loop_sound
      exact (hbehind.mono hlive.le).next (by omega) le_rfl le_rfl

theorem Sound.step {migrations : List (Migration σ)} {s' : MigrationSystem σ} {a : MigrationAction}
    (hpositive : ∀ migration ∈ migrations, 0 < migration.version)
    (hdistinct : (migrations.map (·.version)).Nodup)
    (h : s.Sound (sortedMigrations migrations) start) (hstep : s.step migrations a = some s') :
    s'.Sound (sortedMigrations migrations) start := by
  cases step_moves hstep with
  | starts =>
      refine ⟨h.split, h.stored, h.start_le, h.le_target, ?_⟩
      intro runner hrunner
      rcases List.mem_append.mp hrunner with hrunner | hrunner
      · exact h.runners runner hrunner
      · rw [List.mem_singleton.mp hrunner, Runner.start, normalizeMigrations_eq hpositive hdistinct]
        rfl
  | connects hrunner =>
      apply h.setRunner
      have hlisted : _ = _ := h.runners _ (List.mem_of_getElem? hrunner)
      rw [hlisted]
      exact Runner.connected_sound h.start_le
  | raises i error => exact h.setRunner trivial
  | skips hrunner hle =>
      obtain ⟨rfl, -, hbehind⟩ := h.runners _ (List.mem_of_getElem? hrunner)
      apply h.setRunner
      apply Runner.loop_sound
      exact hbehind.next hbehind.le_stored le_rfl hle
  | commits hrunner hlive happly =>
      obtain ⟨rfl, hcurrent, hbehind⟩ := h.runners _ (List.mem_of_getElem? hrunner)
      apply h.commit (sortedMigrations_strict hdistinct) hbehind
      rcases hlive with hlive | hlive
      · rw [← hlive]
        exact hcurrent
      · exact hlive

/-- A step that makes a runner raise leaves the database as it is. -/
theorem raises_database {migrations : List (Migration σ)} {s' : MigrationSystem σ}
    {a : MigrationAction} {error : String} (hstep : s.step migrations a = some s')
    (hbefore : s.runners[i]? ≠ some (.raised error))
    (hafter : s'.runners[i]? = some (.raised error)) :
    s'.database = s.database ∧ s'.applied = s.applied := by
  cases step_moves hstep with
  | commits hrunner hlive happly =>
      exfalso
      rw [List.getElem?_set] at hafter
      split at hafter
      · split at hafter
        · exact Runner.loop_ne_raised (Option.some.inj hafter)
        · cases hafter
      · exact hbefore hafter
  | _ => exact ⟨rfl, rfl⟩

theorem Sound.initial {database : Database σ} (hle : database.userVersion ≤ targetVersion ordered) :
    MigrationSystem.Sound ordered database.userVersion { database := database } :=
  ⟨rfl, rfl, le_rfl, hle, by simp⟩

/-- A call that has returned has seen all migrations committed. -/
theorem Sound.returned {result : MigrationResult} (h : s.Sound ordered start)
    (hstart : 0 ≤ start ∨ ordered ≠ []) (hresult : s.runners[i]? = some (.returned result)) :
    s.database.userVersion = targetVersion ordered ∧ s.applied = pendingVersions ordered start := by
  have hbehind : Behind ordered start s.database.userVersion result.currentVersion [] :=
    h.runners _ (List.mem_of_getElem? hresult)
  obtain ⟨pre, hsplit, hpre⟩ := hbehind.split
  rw [List.append_nil] at hsplit
  have hall : ∀ x ∈ ordered, x.version ≤ s.database.userVersion := by
    rw [hsplit]
    exact fun x hx => (hpre x hx).trans hbehind.le_stored
  have hstored : 0 ≤ s.database.userVersion ∨ ordered ≠ [] :=
    hstart.imp_left fun h0 => h0.trans h.start_le
  refine ⟨le_antisymm h.le_target (targetVersion_le hall hstored), ?_⟩
  have hnone : pendingVersions ordered s.database.userVersion = [] := by
    apply pendingVersions_append (List.append_nil ordered).symm hall
    simp
  rw [← h.split, hnone, List.append_nil]

/-- A runner alone with the database commits what is above its version. -/
theorem exec_alone {migrations : List (Migration σ)} {database : Database σ} {previous target : ℤ}
    {appliedVersions : List ℤ} (hrest : (rest.map (·.version)).Pairwise (· < ·))
    (hpositive : ∀ x ∈ rest, 0 < x.version) (habove : ∀ x ∈ rest, s.database.userVersion < x.version)
    (happly : applyAll rest s.database = .ok database)
    (hrunner : s.runners[i]? =
      some (.loop previous s.database.userVersion target appliedVersions rest)) :
    ∃ s', PartialRun.exec (step migrations) s (List.replicate rest.length (.access i)) = some s' ∧
      s'.database = database ∧ s'.applied = s.applied ++ rest.map (·.version) ∧
      s'.runners[i]? = some (.returned ⟨previous, database.userVersion, target,
        appliedVersions ++ rest.map (·.version)⟩) := by
  induction rest generalizing s appliedVersions with
  | nil =>
      obtain rfl := Except.ok.inj happly
      refine ⟨s, rfl, rfl, by simp, ?_⟩
      rw [hrunner, List.map_nil, List.append_nil]
      rfl
  | cons m rest ih =>
      rw [List.map_cons, List.pairwise_cons] at hrest
      have hm : 0 < m.version := hpositive m List.mem_cons_self
      have hlive : s.database.userVersion < m.version := habove m List.mem_cons_self
      rw [Runner.loop, if_neg (by omega)] at hrunner
      rw [applyAll] at happly
      split at happly
      · cases happly
      · next after hafter =>
          let s₁ : MigrationSystem σ := {
            database := { after with userVersion := m.version }
            runners := s.runners.set i
              (.loop previous m.version target (appliedVersions ++ [m.version]) rest)
            applied := s.applied ++ [m.version] }
          have hstep : s.step migrations (.access i) = some s₁ := by
            simp only [step, hrunner, beginBlock_eq hm.le hafter]
            rfl
          have hi : i < s.runners.length := (List.getElem?_eq_some_iff.mp hrunner).choose
          have hmoved : s₁.runners[i]? = some (.loop previous s₁.database.userVersion target
              (appliedVersions ++ [m.version]) rest) :=
            List.getElem?_set_self hi
          obtain ⟨s', hexec, hdatabase, happlied, hreturned⟩ :=
            ih (s := s₁) hrest.2 (fun x hx => hpositive x (List.mem_cons_of_mem _ hx))
              (fun x hx => hrest.1 x.version (List.mem_map_of_mem hx)) happly hmoved
          refine ⟨s', PartialRun.exec_cons_eq_some.mpr ⟨s₁, hstep, hexec⟩, hdatabase, ?_, ?_⟩
          · rw [happlied, List.append_assoc]
            rfl
          · rw [hreturned, List.append_assoc]
            rfl

/-- A further runner, alone from here on, commits exactly what is left and returns, if
nothing that is left raises. -/
def CompletedByLaterRun (migrations : List (Migration σ)) (s : MigrationSystem σ) : Prop :=
  let ordered := sortedMigrations migrations
  let stored := s.database.userVersion
  let later := s.runners.length
  ∀ database, applyAll (remaining ordered stored) s.database = .ok database →
    ∃ blocks s', PartialRun.exec (step migrations) s
        (.start :: .access later :: List.replicate blocks (.access later)) = some s' ∧
      s'.database = database ∧ s'.applied = s.applied ++ pendingVersions ordered stored ∧
      s'.runners[later]? = some (.returned ⟨stored, targetVersion ordered, targetVersion ordered,
        pendingVersions ordered stored⟩)

theorem Runner.loop_append {pre : List (Migration σ)} {previous target : ℤ} {appliedVersions : List ℤ}
    (hpre : ∀ x ∈ pre, x.version ≤ current) :
    Runner.loop previous current target appliedVersions (pre ++ rest) =
      .loop previous current target appliedVersions rest := by
  induction pre with
  | nil => rfl
  | cons x pre ih =>
      rw [List.cons_append, Runner.loop, if_pos (hpre x List.mem_cons_self)]
      exact ih fun y hy => hpre y (List.mem_cons_of_mem _ hy)

/-- A further runner up to its first `begin` block. -/
theorem exec_start {migrations : List (Migration σ)}
    (hpositive : ∀ migration ∈ migrations, 0 < migration.version)
    (hdistinct : (migrations.map (·.version)).Nodup)
    (hle : s.database.userVersion ≤ targetVersion (sortedMigrations migrations)) :
    let ordered := sortedMigrations migrations
    let stored := s.database.userVersion
    PartialRun.exec (step migrations) s [.start, .access s.runners.length] =
      some { s with runners := s.runners ++
        [.loop stored stored (targetVersion ordered) [] (remaining ordered stored)] } := by
  intro ordered stored
  have hsplit : ∃ pre, ordered = pre ++ remaining ordered stored ∧ ∀ x ∈ pre, x.version ≤ stored :=
    remaining_split (sortedMigrations_strict hdistinct)
  obtain ⟨pre, hsplit, hpre⟩ := hsplit
  have hconnected : Runner.connected ordered stored =
      .loop stored stored (targetVersion ordered) [] (remaining ordered stored) := by
    have hloop : Runner.loop stored stored (targetVersion ordered) [] (pre ++ remaining ordered stored) =
        .loop stored stored (targetVersion ordered) [] (remaining ordered stored) :=
      Runner.loop_append hpre
    rw [← hsplit] at hloop
    rw [Runner.connected, if_neg (not_lt_of_ge hle), hloop]
  have hstart : s.step migrations .start =
      some { s with runners := s.runners ++ [.connecting ordered] } := by
    rw [step, Runner.start, normalizeMigrations_eq hpositive hdistinct]
  rw [PartialRun.exec_cons, hstart, Option.bind_some, PartialRun.exec_cons]
  simp only [step, List.getElem?_concat_length, Option.bind_some, PartialRun.exec_nil, getSchemaVersion]
  rw [List.set_append_right _ _ le_rfl, Nat.sub_self, List.set_cons_zero, ← hconnected]

theorem Sound.completed {migrations : List (Migration σ)}
    (hpositive : ∀ migration ∈ migrations, 0 < migration.version)
    (hdistinct : (migrations.map (·.version)).Nodup) (hstart : 0 ≤ start ∨ migrations ≠ [])
    (h : s.Sound (sortedMigrations migrations) start) : CompletedByLaterRun migrations s := by
  unfold CompletedByLaterRun
  intro ordered stored later database happly
  have hrest : ((remaining ordered stored).map (·.version)).Pairwise (· < ·) := by
    rw [remaining_map]
    exact (sortedMigrations_strict hdistinct).filter _
  have habove : ∀ x ∈ remaining ordered stored, stored < x.version := by
    intro x hx
    exact of_decide_eq_true (List.mem_filter.mp hx).2
  have hpos : ∀ x ∈ remaining ordered stored, 0 < x.version := by
    intro x hx
    exact hpositive x ((sortedMigrations_perm migrations).mem_iff.mp (List.mem_filter.mp hx).1)
  let s₁ : MigrationSystem σ := { s with runners := s.runners ++
    [.loop stored stored (targetVersion ordered) [] (remaining ordered stored)] }
  have hlater : s₁.runners[later]? = some
      (.loop stored s₁.database.userVersion (targetVersion ordered) [] (remaining ordered stored)) :=
    List.getElem?_concat_length
  obtain ⟨s', hexec, hdatabase, happlied, hreturned⟩ :=
    exec_alone (s := s₁) hrest hpos habove happly hlater
  have hrun : PartialRun.exec (MigrationSystem.step migrations) s
      (.start :: .access later :: List.replicate (remaining ordered stored).length (.access later)) =
        some s' := by
    apply PartialRun.exec_append_eq_some.mpr ⟨s₁, exec_start hpositive hdistinct h.le_target, hexec⟩
  have hsound : s'.Sound ordered start :=
    PartialRun.invariant_of_step (fun u a u' hu hstep => hu.step hpositive hdistinct hstep) h hrun
  have htarget := (hsound.returned (hstart.imp_right sortedMigrations_ne_nil) hreturned).1
  rw [hdatabase] at htarget
  refine ⟨_, s', hrun, hdatabase, ?_, ?_⟩
  · rw [happlied, remaining_map]
  · rw [hreturned, htarget, remaining_map]
    rfl

/-- An empty list has no migration that could lift a negative version to its target. -/
theorem run_migrations_exactly_once {migrations : List (Migration σ)} {database : Database σ}
    {actions : List MigrationAction}
    (hpositive : ∀ migration ∈ migrations, 0 < migration.version)
    (hdistinct : (migrations.map (·.version)).Nodup)
    (hstart : database.userVersion ≤ targetVersion (sortedMigrations migrations))
    (hnegative : 0 ≤ database.userVersion ∨ migrations ≠ [])
    (hrun : PartialRun.exec (step migrations) { database := database } actions = some s) :
    let pending := pendingVersions (sortedMigrations migrations) database.userVersion
    s.applied <+: pending ∧ pending.Pairwise (· < ·) ∧
      s.database.userVersion = s.applied.getLast?.getD database.userVersion ∧
      (∀ (i : ℕ) result, s.runners[i]? = some (.returned result) →
        s.database.userVersion = targetVersion (sortedMigrations migrations) ∧ s.applied = pending) ∧
      (∀ (a : MigrationAction) s' (i : ℕ) error, s.step migrations a = some s' →
        s.runners[i]? ≠ some (.raised error) → s'.runners[i]? = some (.raised error) →
        s'.database = s.database ∧ s'.applied = s.applied) ∧
      CompletedByLaterRun migrations s := by
  intro pending
  have hsound : s.Sound (sortedMigrations migrations) database.userVersion :=
    PartialRun.invariant_of_step (fun u a u' hu hstep => hu.step hpositive hdistinct hstep)
      (Sound.initial hstart) hrun
  refine ⟨⟨_, hsound.split⟩, (sortedMigrations_strict hdistinct).filter _, hsound.stored, ?_, ?_,
    hsound.completed hpositive hdistinct hnegative⟩
  · intro i result hresult
    exact hsound.returned (hnegative.imp_right sortedMigrations_ne_nil) hresult
  · intro a s' i error hstep hbefore hafter
    exact raises_database hstep hbefore hafter

/-- Two migrations that record their names. -/
def twoMigrations : List (Migration (List String)) :=
  let create (name : String) (connection : Database (List String)) :=
    Except.ok { connection with schema := connection.schema ++ [name] }
  [⟨2, "task_runtime_lease_fields", create "task_runtime_lease_fields"⟩,
    ⟨1, "baseline_sqlalchemy_schema", create "baseline_sqlalchemy_schema"⟩]

/-- Both runners read version 0; each finds one migration committed by the other. -/
theorem run_migrations_exactly_once_interleaved :
    ∃ s, PartialRun.exec (step twoMigrations) { database := ⟨0, []⟩ }
        [.start, .start, .access 0, .access 1, .access 0, .access 1, .access 1, .access 0] = some s ∧
      s.runners[0]? = some (.returned ⟨0, 2, 2, [1]⟩) ∧ s.database.userVersion = 2 ∧
      s.applied = [1, 2] := by
  have hpositive : ∀ migration ∈ twoMigrations, 0 < migration.version := by decide
  have hdistinct : (twoMigrations.map (·.version)).Nodup := by decide
  have hstart : (0 : ℤ) ≤ targetVersion (sortedMigrations twoMigrations) := by decide
  have hinterleaved : ∃ s, PartialRun.exec (step twoMigrations) { database := ⟨0, []⟩ }
      [.start, .start, .access 0, .access 1, .access 0, .access 1, .access 1, .access 0] = some s ∧
      s.runners[0]? = some (.returned ⟨0, 2, 2, [1]⟩) := ⟨_, rfl, rfl⟩
  obtain ⟨s, hrun, hreturned⟩ := hinterleaved
  have hall := run_migrations_exactly_once hpositive hdistinct hstart (.inl le_rfl) hrun
  exact ⟨s, hrun, hreturned, hall.2.2.2.1 0 _ hreturned⟩

end MigrationSystem

end Steps

end SmartMedia.Migrations
