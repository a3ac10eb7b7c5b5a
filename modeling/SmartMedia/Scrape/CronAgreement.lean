import SmartMedia.Scrape.PathCron

/-!
# The rows of the paths and the jobs of the scheduler

A request concerns one path: its row and the job of its id. Scheduling a path and deleting it
keep the two in step as long as the commit goes through; an update writes the row and leaves
the job as it is.
-/
namespace SmartMedia.Scrape.PathCron
open PartialRun PythonText Media

variable {Trigger : Type} {triggers : CronTrigger Trigger} {s s' : State Trigger} {pathId : Text}

/-- There is a job exactly if there is a row that is scheduled, and its trigger is that of the
row's cron expression. -/
structure AgreeAt (triggers : CronTrigger Trigger) (row : Option ScrapePath)
    (job : Option (Job Trigger)) : Prop where
  scheduled : job.isSome = true ↔ ∃ path, row = some path ∧ path.cronEnabled = true
  trigger : ∀ path, row = some path → ∀ j, job = some j →
    path.cron.bind (buildTrigger triggers) = some j.trigger

/-- The agreement of the database and the scheduler. -/
def Agree (triggers : CronTrigger Trigger) (s : State Trigger) : Prop :=
  ∀ pathId, AgreeAt triggers (s.paths pathId) (s.jobs (cronJobId pathId))

/-- A toggle that raises before it reaches the scheduler. -/
def ToggleRefused (triggers : CronTrigger Trigger) (path : ScrapePath) (target : Bool) : Prop :=
  target = true ∧ ∀ cron, truthy path.cron = some cron →
    validateCronExpression triggers cron = false

/-- An update that is stored keeps the trigger of a scheduled path, and a commit does not fail
after the scheduler has been changed. -/
def Respects (triggers : CronTrigger Trigger) (s : State Trigger) : Request → Prop
  | .create _ _ _ => True
  | .update pathId request commits =>
      ∀ path, s.paths pathId = some path → path.cronEnabled = true → commits = true →
        ∀ updates, validateUpdate triggers request = some updates →
          (setAttributes path updates).isSome = true →
            (updates.cron.getD path.cron).bind (buildTrigger triggers) =
              path.cron.bind (buildTrigger triggers)
  | .toggleCron pathId enabled commits =>
      ∀ path, s.paths pathId = some path →
        commits = true ∨ enabled.getD (!path.cronEnabled) = path.cronEnabled ∨
          ToggleRefused triggers path (enabled.getD (!path.cronEnabled))
  | .delete pathId commits =>
      ∀ path, s.paths pathId = some path → commits = true ∨ path.cronEnabled = false

section At
variable {path : ScrapePath} {job : Option (Job Trigger)} {j : Job Trigger}

theorem agreeAt_none : AgreeAt triggers none job ↔ job = none := by
  constructor
  · intro h
    by_contra hjob
    obtain ⟨path, hrow, -⟩ := h.scheduled.mp (Option.isSome_iff_ne_none.mpr hjob)
    cases hrow
  · rintro rfl
    exact ⟨by simp, by simp⟩

theorem agreeAt_unscheduled (h : path.cronEnabled = false) :
    AgreeAt triggers (some path) job ↔ job = none := by
  constructor
  · intro hagree
    by_contra hjob
    obtain ⟨path', hrow, henabled⟩ := hagree.scheduled.mp (Option.isSome_iff_ne_none.mpr hjob)
    cases hrow
    rw [h] at henabled
    cases henabled
  · rintro rfl
    constructor
    · simp [h]
    · simp

theorem agreeAt_scheduled (h : path.cronEnabled = true) :
    AgreeAt triggers (some path) job ↔
      ∃ j, job = some j ∧ path.cron.bind (buildTrigger triggers) = some j.trigger := by
  constructor
  · intro hagree
    obtain ⟨j, hjob⟩ := Option.isSome_iff_exists.mp (hagree.scheduled.mpr ⟨path, rfl, h⟩)
    exact ⟨j, hjob, hagree.trigger path rfl j hjob⟩
  · rintro ⟨j, rfl, htrigger⟩
    constructor
    · simp [h]
    · rintro path' hrow j' hjob
      cases hrow
      cases hjob
      exact htrigger

end At

section Frame

theorem cronJobId_injective : Function.Injective cronJobId :=
  fun _ _ h => List.append_cancel_left h

/-- The other paths are as they were. -/
theorem agree_iff_agreeAt (h : Agree triggers s) {row : Option ScrapePath}
    {job : Option (Job Trigger)} (hpaths : s'.paths = Function.update s.paths pathId row)
    (hjobs : s'.jobs = Function.update s.jobs (cronJobId pathId) job) :
    Agree triggers s' ↔ AgreeAt triggers row job := by
  constructor
  · intro hagree
    have hat := hagree pathId
    rwa [hpaths, hjobs, Function.update_self, Function.update_self] at hat
  · intro hat other
    rw [hpaths, hjobs]
    by_cases hother : other = pathId
    · rwa [hother, Function.update_self, Function.update_self]
    · rw [Function.update_of_ne hother,
        Function.update_of_ne (cronJobId_injective.ne hother)]
      exact h other

/-- A request that ends with a commit, after it has set the job of its path. -/
theorem agree_commitPath (h : Agree triggers s) {row : Option ScrapePath}
    {job : Option (Job Trigger)} {t : State Trigger} (hpaths : t.paths = s.paths)
    (hjobs : t.jobs = Function.update s.jobs (cronJobId pathId) job) (commits : Bool) :
    Agree triggers (commitPath t pathId row commits).2 ↔
      AgreeAt triggers (if commits = true then row else s.paths pathId) job := by
  have hrow : (commitPath t pathId row commits).2.paths =
      Function.update s.paths pathId (if commits = true then row else s.paths pathId) := by
    cases commits with
    | true => simp [commitPath, setPath, hpaths]
    | false => simp [commitPath, hpaths]
  have hjob : (commitPath t pathId row commits).2.jobs =
      Function.update s.jobs (cronJobId pathId) job := by
    cases commits with
    | true => simp [commitPath, setPath, hjobs]
    | false => simp [commitPath, hjobs]
  exact agree_iff_agreeAt h hrow hjob

/-- The same for a request that leaves the scheduler alone. -/
theorem agree_commitPath_self (h : Agree triggers s) {row : Option ScrapePath} (commits : Bool) :
    Agree triggers (commitPath s pathId row commits).2 ↔
      AgreeAt triggers (if commits = true then row else s.paths pathId)
        (s.jobs (cronJobId pathId)) :=
  agree_commitPath h rfl (Function.update_eq_self _ _).symm commits

end Frame

section Requests
variable {commits : Bool} {path path' : ScrapePath} {updates : ScrapePathUpdateRequest}

theorem agree_create (h : Agree triggers s) (request : ScrapePathCreateRequest) :
    Agree triggers (createScrapePath triggers s pathId request commits).2 := by
  unfold createScrapePath
  split
  · exact h
  · split
    · exact h
    · rename_i hfree
      rw [agree_commitPath_self h]
      have hnone : s.paths pathId = none := Option.not_isSome_iff_eq_none.mp hfree
      have hjob : s.jobs (cronJobId pathId) = none := by
        rw [← agreeAt_none, ← hnone]
        exact h pathId
      cases commits with
      | true =>
          rw [if_pos rfl, agreeAt_unscheduled rfl]
          exact hjob
      | false => exact h pathId

theorem setAttributes_cron (h : setAttributes path updates = some path') :
    path'.cron = updates.cron.getD path.cron ∧ path'.cronEnabled = path.cronEnabled := by
  simp only [setAttributes, Option.bind_eq_bind, Option.bind_eq_some_iff, Option.pure_def,
    Option.some.injEq] at h
  obtain ⟨_, -, _, -, _, -, _, -, _, -, _, -, _, -, _, -, rfl⟩ := h
  exact ⟨rfl, rfl⟩

/-- The row is written and the job stays: the trigger must be the same. -/
theorem agree_update_iff (h : Agree triggers s) (request : ScrapePathUpdateRequest) :
    Agree triggers (updateScrapePath triggers s pathId request commits).2 ↔
      Respects triggers s (.update pathId request commits) := by
  have hat := h pathId
  simp only [updateScrapePath, Respects]
  cases hvalid : validateUpdate triggers request with
  | none => simp [h]
  | some updates =>
      cases hrow : s.paths pathId with
      | none => simp [h]
      | some path =>
          cases hset : setAttributes path updates with
          | none => simp [h, hset]
          | some path' =>
              obtain ⟨hcron, hkept⟩ := setAttributes_cron hset
              simp only [Option.some.injEq, forall_eq', hset, Option.isSome_some, forall_true_left]
              rw [agree_commitPath_self h, hrow]
              rw [hrow] at hat
              cases commits with
              | false => simp [hat]
              | true =>
                  cases henabled : path.cronEnabled with
                  | false =>
                      rw [agreeAt_unscheduled henabled] at hat
                      simp [agreeAt_unscheduled (hkept.trans henabled), hat]
                  | true =>
                      obtain ⟨j, hjob, htrigger⟩ := (agreeAt_scheduled henabled).mp hat
                      simp [agreeAt_scheduled (hkept.trans henabled), hjob, htrigger, hcron]

theorem agree_delete_iff (h : Agree triggers s) :
    Agree triggers (deleteScrapePath s pathId commits).2 ↔
      Respects triggers s (.delete pathId commits) := by
  simp only [deleteScrapePath, Respects]
  cases hrow : s.paths pathId with
  | none => simp [h]
  | some path =>
      simp only [Option.some.injEq, forall_eq']
      rw [agree_commitPath (t := removeJob s (cronJobId pathId)) h rfl rfl, hrow]
      cases commits with
      | true => simp [agreeAt_none]
      | false =>
          cases henabled : path.cronEnabled with
          | true => simp [agreeAt_scheduled henabled]
          | false => simp [agreeAt_unscheduled henabled]

theorem cleared_paths (s : State Trigger) (pathId : Text) :
    (if (s.jobs (cronJobId pathId)).isSome then removeJob s (cronJobId pathId) else s).paths =
      s.paths := by
  split
  · rfl
  · rfl

/-- Whether the old job was removed first or not, the new one takes its place. -/
theorem cleared_jobs (s : State Trigger) (pathId : Text) (job : Option (Job Trigger)) :
    Function.update (if (s.jobs (cronJobId pathId)).isSome then removeJob s (cronJobId pathId)
      else s).jobs (cronJobId pathId) job = Function.update s.jobs (cronJobId pathId) job := by
  split
  · exact Function.update_idem _ _ _
  · rfl

/-- What a toggle does to the row and the job of its path. -/
theorem agree_toggle_iff (h : Agree triggers s) (enabled : Option Bool) :
    Agree triggers (toggleScrapePathCron triggers s pathId enabled commits).2 ↔
      Respects triggers s (.toggleCron pathId enabled commits) := by
  simp only [toggleScrapePathCron, Respects]
  cases hrow : s.paths pathId with
  | none => simp [h]
  | some path =>
      simp only [Option.some.injEq, forall_eq']
      cases htarget : enabled.getD (!path.cronEnabled) with
      | false =>
          simp only [Bool.false_eq_true, if_false]
          rw [agree_commitPath (t := removeJob s (cronJobId pathId)) h rfl rfl, hrow]
          cases commits with
          | true => simp [agreeAt_unscheduled]
          | false =>
              cases henabled : path.cronEnabled with
              | true => simp [agreeAt_scheduled henabled, ToggleRefused]
              | false => simp [agreeAt_unscheduled henabled]
      | true =>
          simp only [if_true]
          cases hcron : truthy path.cron with
          | none => simp [h, ToggleRefused, hcron]
          | some cron =>
              cases hvalid : validateCronExpression triggers cron with
              | false => simp [h, ToggleRefused, hcron, hvalid]
              | true =>
                  have hbuilt := (isSome_buildTrigger triggers cron).trans hvalid
                  obtain ⟨trigger, htrigger⟩ := Option.isSome_iff_exists.mp hbuilt
                  have hown : path.cron.bind (buildTrigger triggers) = some trigger := by
                    rw [(truthy_eq_some.mp hcron).1]
                    exact htrigger
                  simp only [hvalid, Bool.true_eq_false, if_false, addCronJob, htrigger]
                  set cleared := if (s.jobs (cronJobId pathId)).isSome then
                    removeJob s (cronJobId pathId) else s
                  set jobs := Function.update cleared.jobs (cronJobId pathId)
                    (some ⟨trigger, "scrape_path_start".toList, pathId⟩) with hjobs
                  have hpaths : cleared.paths = s.paths := cleared_paths s pathId
                  rw [agree_commitPath (t := ⟨cleared.paths, jobs⟩) h hpaths
                    (hjobs.trans (cleared_jobs s pathId _)), hrow]
                  cases commits with
                  | true => simp [agreeAt_scheduled, hown]
                  | false =>
                      cases henabled : path.cronEnabled with
                      | true => simp [agreeAt_scheduled henabled, hown]
                      | false =>
                          simp [agreeAt_unscheduled henabled, ToggleRefused, hcron, hvalid]

theorem agree_step_iff (h : Agree triggers s) {request : Request}
    (hstep : step triggers s request = some s') :
    Agree triggers s' ↔ Respects triggers s request := by
  obtain rfl := Option.some.inj hstep
  cases request with
  | create pathId request commits => exact iff_of_true (agree_create h request) trivial
  | update pathId request commits => exact agree_update_iff h request
  | toggleCron pathId enabled commits => exact agree_toggle_iff h enabled
  | delete pathId commits => exact agree_delete_iff h

end Requests

section Runs

theorem exec_total (s : State Trigger) (requests : List Request) :
    ∃ last, exec (step triggers) s requests = some last := by
  induction requests generalizing s with
  | nil => exact ⟨s, rfl⟩
  | cons request requests ih => exact ih _

/-- The database and the scheduler agree exactly as long as the requests respect the jobs. -/
theorem agree_iff_along (triggers : CronTrigger Trigger) (s : State Trigger)
    (requests : List Request) (h : Agree triggers s) :
    Throughout (step triggers) (Agree triggers) s requests ↔
      Along (step triggers) (Respects triggers) s requests := by
  obtain ⟨last, hrun⟩ : ∃ last, exec (step triggers) s requests = some last :=
    exec_total s requests
  exact throughout_iff_along (fun s request s' h hstep => agree_step_iff h hstep) h hrun

/-- No rows and no jobs. -/
def initial : State Trigger := ⟨fun _ => none, fun _ => none⟩

theorem agree_initial : Agree triggers initial := fun _ => agreeAt_none.mpr rfl

/-- Triggers that keep the text they are built from. -/
def textTriggers : CronTrigger Text where
  fromCrontab := some
  ofFields := fun second minute hour day month dayOfWeek =>
    some (second ++ ' ' :: (minute ++ ' ' :: (hour ++ ' ' :: (day ++ ' ' :: (month ++ ' ' ::
      dayOfWeek)))))

/-- A path is created and scheduled, and its expression changed afterwards. -/
def rescheduled (cron : String) : List Request :=
  [.create "p".toList
      { sourcePath := "/a".toList, destPath := "/b".toList, cron := some "0 3 * * *".toList } true,
    .toggleCron "p".toList (some true) true,
    .update "p".toList { cron := some (some cron.toList) } true]

/-- The job keeps the trigger it was added with. -/
theorem rescheduled_disagree :
    Agree textTriggers initial ∧
      ¬ Throughout (step textTriggers) (Agree textTriggers) initial (rescheduled "0 5 * * *") := by
  refine ⟨agree_initial, fun h => ?_⟩
  have hat := h (rescheduled "0 5 * * *") (List.prefix_refl _) _ rfl "p".toList
  exact absurd (hat.trigger _ rfl _ rfl) (by decide +kernel)

/-- An update that writes the same expression. -/
theorem agree_rescheduled_same :
    Throughout (step textTriggers) (Agree textTriggers) initial (rescheduled "0 3 * * *") := by
  refine (agree_iff_along textTriggers initial _ agree_initial).mpr ⟨trivial, ?_⟩
  rintro s ⟨⟩
  refine ⟨fun _ _ => .inl rfl, ?_⟩
  rintro s ⟨⟩
  refine ⟨?_, fun _ _ => trivial⟩
  rintro path ⟨⟩ - - updates ⟨⟩ -
  rfl

end Runs

end SmartMedia.Scrape.PathCron
