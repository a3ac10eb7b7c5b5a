import SmartMedia.Scrape.JobLimit
import SmartMedia.Scrape.ScrapePaths
import SmartMedia.Scrape.ServiceSteps

/-!
# One run for each path

The guard of `_start_path_job` knows of an unfinished run through two rows: the path says
`running` and its last job says `running`. A stop changes both before the run has ended, or
after another has been started, and a run says `completed` before it ends. When no start
passes its check in such a moment and none commits within a stop or a refresh, at most one
run of the path's jobs is unfinished.
-/
namespace SmartMedia.Scrape
open Media (ScrapeJob)

namespace PathService

/-- How many runs of the path's jobs have begun and not ended. -/
def processed (s : PathService) : ℕ :=
  s.service.progress.countP fun p => decide (p.1 ∈ s.created) && p.2.begun

def unfinished (s : PathService) : ℕ :=
  s.service.progress.countP fun p => decide (p.1 ∈ s.created) && !p.2.done

/-- No run of the path's jobs is unfinished. -/
def Idle (s : PathService) : Prop :=
  ∀ p ∈ s.service.progress, p.1 ∈ s.created → p.2.done = true

/-- The next check accounts for a run of the job. -/
def Knows (s : PathService) (job : ℕ) : Prop :=
  match s.holder with
  | none => s.path.lastJob = some job ∧ (s.rowRunning job = true → s.path.status = .running)
  | some (.starting _ job' _) => job' = job
  | some _ => False

/-- The `_start_path_job` with the lock has found no run. -/
def Holds (s : PathService) : Prop :=
  match s.holder with
  | none | some (.refreshing _) => True
  | some (.checked path) => path.status ≠ .running
  | some (.created path job) =>
      path.status ≠ .running ∧ job ∈ s.created ∧ s.path.lastJob ≠ some job
  | some (.starting path job k) =>
      path.status ≠ .running ∧ job ∈ s.created ∧ s.path.lastJob ≠ some job ∧
        ∃ call, s.service.calls[k]? = some call ∧ call.job = job ∧
          (call.stage = .started true ∨ s.Idle)

/-- At most one run is unfinished, and while it is, the next check knows of it. -/
structure Guarded (s : PathService) : Prop where
  lastJob : ∀ j, s.path.lastJob = some j → j ∈ s.created
  running : s.path.status = .running → s.path.lastJob ≠ none
  rows : ∀ j ∈ s.created, j < s.service.jobs.length
  callRows : ∀ (k : ℕ) (call : Call), s.service.calls[k]? = some call →
    call.job < s.service.jobs.length
  taskRows : ∀ p ∈ s.service.progress, p.1 < s.service.jobs.length
  pending : ∀ (k : ℕ) (call : Call), s.service.calls[k]? = some call → call.job ∈ s.created →
    call.starting = true → ∃ path, s.holder = some (.starting path call.job k)
  holds : s.Holds
  known : ∀ p ∈ s.service.progress, p.1 ∈ s.created → p.2.done = false → s.Knows p.1
  single : s.unfinished ≤ 1
  stops : ∀ c ∈ s.stops, c.path.lastJob = s.path.lastJob ∧ ∀ k, c.call = some k →
    ∃ call, s.service.calls[k]? = some call ∧ s.path.lastJob = some call.job ∧
      (call.cancelled = true → s.rowRunning call.job = false)
  refreshes : ∀ p ∈ s.refreshes, p.lastJob = s.path.lastJob ∧
    ∀ j, s.path.lastJob = some j → s.rowRunning j = false

/-- The `stop_job` of the stop has failed. -/
def stopFailed (s : PathService) (stop : PathStop) : Bool :=
  stop.call.any fun k => stop.path.lastJob.any fun job =>
    s.service.calls[k]? = some ⟨job, .stopped false⟩

/-- No start passes its check while a run is unfinished whose row no longer says `running`,
none commits within a stop or a refresh, and `stop_job` has not failed. -/
def Orderly (s : PathService) : PathAction → Prop
  | .startPath => s.alreadyRunning = false → ∀ p ∈ s.service.progress, p.1 ∈ s.created →
      p.2.done = false → s.rowRunning p.1 = true
  | .commitRunning => s.stops = [] ∧ s.refreshes = []
  | .commitStopped i => ∀ stop ∈ s.stops[i]?, s.stopFailed stop = false
  | _ => True

theorem processed_le_unfinished (s : PathService) : s.processed ≤ s.unfinished :=
  List.countP_mono_left fun p _ h => by
    obtain ⟨hcreated, hbegun⟩ := (Bool.and_eq_true _ _).mp h
    rw [hcreated, Stage.begun_not_done hbegun]
    rfl

section Service
variable {s : PathService} {svc : JobService}

theorem Idle.unfinished (h : s.Idle) : s.unfinished = 0 := by
  refine List.countP_eq_zero.mpr fun p hp hcount => ?_
  obtain ⟨hcreated, hdone⟩ := (Bool.and_eq_true _ _).mp hcount
  rw [h p hp (of_decide_eq_true hcreated)] at hdone
  cases hdone

/-- What a call can do to what the path relies on. -/
structure Goes (s : PathService) (svc : JobService) (call call' : Call) : Prop where
  job : call'.job = call.job
  starting : call'.starting = true → call.starting = true
  cancelled : call'.cancelled = true → call.cancelled = true ∨
    PathService.rowRunning { s with service := svc } call.job = false
  started : call.stage = .started true → call'.stage = .started true

theorem Goes.refl (call : Call) : Goes s svc call call :=
  ⟨rfl, id, .inl, id⟩

/-- Steps of the service keep the invariant if the rows go on as a check expects them to and
the tasks are accounted for. -/
theorem Guarded.of_service (h : s.Guarded)
    (hlength : svc.jobs.length = s.service.jobs.length)
    (hrows : ∀ j, s.path.lastJob = some j →
      PathService.rowRunning { s with service := svc } j = true → s.rowRunning j = true)
    (hcalls : ∀ k : ℕ, Option.Rel (Goes s svc) s.service.calls[k]? svc.calls[k]?)
    (hidle : ∀ (path : ScrapePath) (job k : ℕ) (call' : Call), s.holder = some (.starting path job k) →
      svc.calls[k]? = some call' → s.Idle → call'.stage = .started true ∨
        PathService.Idle { s with service := svc })
    (htasks : ∀ p ∈ svc.progress, p.1 < s.service.jobs.length ∧
      (p.1 ∈ s.created → p.2.done = false → s.Knows p.1))
    (hsingle : PathService.unfinished { s with service := svc } ≤ 1) :
    PathService.Guarded { s with service := svc } := by
  -- a call after the step is one before it, and the other way round
  have hback : ∀ (k : ℕ) (call' : Call), svc.calls[k]? = some call' →
      ∃ call, s.service.calls[k]? = some call ∧ Goes s svc call call' := by
    intro k call' hcall'
    have hrel := hcalls k
    rw [hcall'] at hrel
    cases hcall : s.service.calls[k]? with
    | none =>
        rw [hcall] at hrel
        cases hrel
    | some call =>
        rw [hcall] at hrel
        cases hrel with
        | some hgoes => exact ⟨call, rfl, hgoes⟩
  have hforth : ∀ (k : ℕ) (call : Call), s.service.calls[k]? = some call →
      ∃ call', svc.calls[k]? = some call' ∧ Goes s svc call call' := by
    intro k call hcall
    have hrel := hcalls k
    rw [hcall] at hrel
    cases hcall' : svc.calls[k]? with
    | none =>
        rw [hcall'] at hrel
        cases hrel
    | some call' =>
        rw [hcall'] at hrel
        cases hrel with
        | some hgoes => exact ⟨call', rfl, hgoes⟩
  have hrow : ∀ j, s.path.lastJob = some j → s.rowRunning j = false →
      PathService.rowRunning { s with service := svc } j = false := by
    intro j hj hrow
    by_contra hne
    rw [hrows j hj (Bool.not_eq_false _ ▸ hne)] at hrow
    cases hrow
  refine ⟨h.lastJob, h.running, fun j hj => hlength ▸ h.rows j hj, fun k call' hcall' => ?_,
    fun p hp => hlength ▸ (htasks p hp).1, fun k call' hcall' hcreated hstarting => ?_, ?_,
    fun p hp hcreated hdone => ?_, hsingle, fun c hc => ⟨(h.stops c hc).1, fun k hk => ?_⟩,
    fun p hp => ⟨(h.refreshes p hp).1, fun j hj => hrow j hj ((h.refreshes p hp).2 j hj)⟩⟩
  · obtain ⟨call, hcall, hgoes⟩ := hback k call' hcall'
    rw [hgoes.job]
    exact hlength ▸ h.callRows k call hcall
  · obtain ⟨call, hcall, hgoes⟩ := hback k call' hcall'
    rw [hgoes.job] at hcreated ⊢
    exact h.pending k call hcall hcreated (hgoes.starting hstarting)
  · have hholds := h.holds
    rw [Holds] at hholds ⊢
    cases hholder : s.holder with
    | none => trivial
    | some stage =>
        cases stage with
        | refreshing path => trivial
        | checked path =>
            rw [hholder] at hholds
            exact hholds
        | created path job =>
            rw [hholder] at hholds
            exact hholds
        | starting path job k =>
            rw [hholder] at hholds
            obtain ⟨hstatus, hcreated, hlast, call, hcall, hjob, hstarted⟩ := hholds
            obtain ⟨call', hcall', hgoes⟩ := hforth k call hcall
            refine ⟨hstatus, hcreated, hlast, call', hcall', hgoes.job.trans hjob, ?_⟩
            rcases hstarted with hstarted | hstarted
            · exact .inl (hgoes.started hstarted)
            · exact hidle path job k call' hholder hcall' hstarted
  · have hknows := (htasks p hp).2 hcreated hdone
    rw [Knows] at hknows ⊢
    cases hholder : s.holder with
    | none =>
        rw [hholder] at hknows
        exact ⟨hknows.1, fun hrunning => hknows.2 (hrows p.1 hknows.1 hrunning)⟩
    | some stage =>
        rw [hholder] at hknows
        cases stage <;> exact hknows
  · obtain ⟨call, hcall, hlast, hcancelled⟩ := (h.stops c hc).2 k hk
    obtain ⟨call', hcall', hgoes⟩ := hforth k call hcall
    refine ⟨call', hcall', hgoes.job ▸ hlast, fun hc' => ?_⟩
    rw [hgoes.job]
    rcases hgoes.cancelled hc' with hold | hnew
    · exact hrow call.job hlast (hcancelled hold)
    · exact hnew

theorem goes_set {k : ℕ} {call call' : Call} (hcall : s.service.calls[k]? = some call)
    (hcalls : svc.calls = s.service.calls.set k call') (hgoes : Goes s svc call call') (i : ℕ) :
    Option.Rel (Goes s svc) s.service.calls[i]? svc.calls[i]? := by
  rw [hcalls]
  by_cases hi : i = k
  · subst hi
    rw [List.getElem?_set_self (List.getElem?_eq_some_iff.mp hcall).1, hcall]
    exact .some hgoes
  · rw [List.getElem?_set_ne (Ne.symm hi)]
    cases s.service.calls[i]? with
    | none => exact .none
    | some c => exact .some (Goes.refl c)

/-- A `start_job` without its task is for no job that the path knows of. -/
theorem Guarded.starting_new (h : s.Guarded) {k : ℕ} {call : Call}
    (hcall : s.service.calls[k]? = some call) (hstarting : call.starting = true) :
    s.path.lastJob ≠ some call.job := by
  intro hlast
  obtain ⟨path, hholder⟩ := h.pending k call hcall (h.lastJob call.job hlast) hstarting
  have hholds := h.holds
  rw [Holds, hholder] at hholds
  exact hholds.2.2.1 hlast

/-- A `start_job` without its task has found no run of the path's jobs. -/
theorem Guarded.starting_idle (h : s.Guarded) {k : ℕ} {call : Call}
    (hcall : s.service.calls[k]? = some call) (hcreated : call.job ∈ s.created)
    (hstarting : call.starting = true) : s.Idle ∧ s.Knows call.job := by
  obtain ⟨path, hholder⟩ := h.pending k call hcall hcreated hstarting
  have hholds := h.holds
  rw [Holds, hholder] at hholds
  obtain ⟨-, -, -, call', hcall', -, hstarted⟩ := hholds
  cases hcall.symm.trans hcall'
  refine ⟨hstarted.resolve_left fun hstage => ?_, ?_⟩
  · rw [Call.starting, hstage] at hstarting
    cases hstarting
  · rw [Knows, hholder]

/-- Steps that change neither the tasks nor the rows the path knows of. -/
theorem Guarded.of_quiet (h : s.Guarded) {k : ℕ} {call call' : Call}
    (hcall : s.service.calls[k]? = some call) (hcalls : svc.calls = s.service.calls.set k call')
    (hgoes : Goes s svc call call') (hprogress : svc.progress = s.service.progress)
    (hlength : svc.jobs.length = s.service.jobs.length)
    (hrows : ∀ j, s.path.lastJob = some j →
      PathService.rowRunning { s with service := svc } j = true → s.rowRunning j = true) :
    PathService.Guarded { s with service := svc } := by
  have hidle : s.Idle → PathService.Idle { s with service := svc } := by
    intro hidle p hp
    exact hidle p (hprogress ▸ hp)
  refine h.of_service hlength hrows (goes_set hcall hcalls hgoes)
    (fun _ _ _ _ _ _ hold => .inr (hidle hold)) (fun p hp => ?_) ?_
  · rw [hprogress] at hp
    exact ⟨h.taskRows p hp, h.known p hp⟩
  · rw [unfinished, hprogress]
    exact h.single

/-- The task is created for the request with the lock, or for another job. -/
theorem Guarded.creates (h : s.Guarded) {k : ℕ} {call : Call}
    (hcall : s.service.calls[k]? = some call) (hstarting : call.starting = true)
    (hcalls : svc.calls = s.service.calls.set k ⟨call.job, .started true⟩)
    (hprogress : svc.progress = s.service.progress ++ [(call.job, .created)])
    (hjobs : svc.jobs = s.service.jobs) : PathService.Guarded { s with service := svc } := by
  refine h.of_service (congrArg _ hjobs) (fun j _ hrunning => ?_)
    (goes_set hcall hcalls ⟨rfl, nofun, nofun, fun _ => rfl⟩)
    (fun path job k' call' hholder hcall' hidle => ?_) (fun p hp => ?_) ?_
  · rwa [rowRunning, hjobs] at hrunning
  · by_cases hk : k' = k
    · subst hk
      rw [hcalls, List.getElem?_set_self (List.getElem?_eq_some_iff.mp hcall).1] at hcall'
      cases hcall'
      exact .inl rfl
    · refine .inr fun p hp hcreated => ?_
      rw [hprogress] at hp
      rcases List.mem_append.mp hp with hp | hp
      · exact hidle p hp hcreated
      · -- a task is created for the path only by the request with the lock
        cases List.mem_singleton.mp hp
        obtain ⟨path', hholder'⟩ := h.pending k call hcall hcreated hstarting
        cases hholder.symm.trans hholder'
        exact absurd rfl hk
  · rw [hprogress] at hp
    rcases List.mem_append.mp hp with hp | hp
    · exact ⟨h.taskRows p hp, h.known p hp⟩
    · cases List.mem_singleton.mp hp
      exact ⟨h.callRows k call hcall,
        fun hcreated _ => (h.starting_idle hcall hcreated hstarting).2⟩
  · rw [unfinished, hprogress, List.countP_append, List.countP_singleton]
    by_cases hcreated : call.job ∈ s.created
    · have hzero := (h.starting_idle hcall hcreated hstarting).1.unfinished
      rw [unfinished] at hzero
      rw [hzero, Nat.zero_add]
      split_ifs <;> omega
    · rw [decide_eq_false hcreated]
      exact h.single

/-- A `stop_job` commits `cancelled`. -/
theorem Guarded.stores (h : s.Guarded) {k no : ℕ} {call : Call} {row : ScrapeJob}
    (hcall : s.service.calls[k]? = some call) (hstopping : call.stopping = true)
    (hrow : s.service.jobs[call.job]? = some row)
    (hcalls : svc.calls = s.service.calls.set k ⟨call.job, .stored no⟩)
    (hprogress : svc.progress = s.service.progress)
    (hjobs : svc.jobs = s.service.jobs.set call.job { row with status := .cancelled }) :
    PathService.Guarded { s with service := svc } := by
  have hcancelled : ∀ j, PathService.rowRunning { s with service := svc } j =
      if call.job = j then false else s.rowRunning j := by
    intro j
    rw [rowRunning, hjobs]
    split_ifs with hj
    · subst hj
      rw [List.getElem?_set_self (List.getElem?_eq_some_iff.mp hrow).1]
      rfl
    · rw [List.getElem?_set_ne hj]
      rfl
  refine h.of_quiet hcall hcalls ⟨rfl, nofun, fun _ => .inr ?_, fun hs => ?_⟩ hprogress ?_
    fun j _ hrunning => ?_
  · rw [hcancelled, if_pos rfl]
  · rw [Call.stopping, hs] at hstopping
    cases hstopping
  · rw [hjobs, List.length_set]
  · rw [hcancelled] at hrunning
    split_ifs at hrunning
    exact hrunning

/-- A task takes a step. -/
theorem Guarded.runs (h : s.Guarded) {i job : ℕ} {stage stage' : Stage} {row row' : ScrapeJob}
    (hstage : s.service.progress[i]? = some (job, stage)) (hdone : stage.done = false)
    (hrow : s.service.jobs[job]? = some row)
    (hstatus : row'.status = .running → row.status = .running)
    (hcalls : svc.calls = s.service.calls)
    (hprogress : svc.progress = s.service.progress.set i (job, stage'))
    (hjobs : svc.jobs = s.service.jobs.set job row') :
    PathService.Guarded { s with service := svc } := by
  have hmem : (job, stage) ∈ s.service.progress := List.mem_of_getElem? hstage
  have hnew : ∀ p ∈ svc.progress, p ∈ s.service.progress ∨ p = (job, stage') := by
    intro p hp
    rw [hprogress] at hp
    exact List.mem_or_eq_of_mem_set hp
  refine h.of_service (by rw [hjobs, List.length_set]) (fun j _ hrunning => ?_)
    (fun k => ?_) (fun _ _ _ _ _ _ hidle => .inr fun p hp hcreated => ?_) (fun p hp => ?_) ?_
  · rw [rowRunning, hjobs] at hrunning
    rw [rowRunning]
    by_cases hj : job = j
    · subst hj
      rw [List.getElem?_set_self (List.getElem?_eq_some_iff.mp hrow).1] at hrunning
      rw [hrow]
      exact decide_eq_true (hstatus (of_decide_eq_true hrunning))
    · rwa [List.getElem?_set_ne hj] at hrunning
  · rw [hcalls]
    cases s.service.calls[k]? with
    | none => exact .none
    | some c => exact .some (Goes.refl c)
  · rcases hnew p hp with hp | rfl
    · exact hidle p hp hcreated
    · have hended := hidle (job, stage) hmem hcreated
      rw [hdone] at hended
      cases hended
  · rcases hnew p hp with hp | rfl
    · exact ⟨h.taskRows p hp, h.known p hp⟩
    · exact ⟨h.taskRows (job, stage) hmem, fun hcreated _ => h.known (job, stage) hmem hcreated hdone⟩
  · refine le_trans ?_ h.single
    rw [unfinished, hprogress]
    refine Counting.countP_set_le hstage fun hcount => ?_
    rw [hdone, Bool.not_false, Bool.and_true]
    exact ((Bool.and_eq_true _ _).mp hcount).1

theorem Guarded.inner (h : s.Guarded) {a : Action}
    (hstep : JobService.Inner s.service a svc) :
    PathService.Guarded { s with service := svc } := by
  cases hstep with
  | moves k call stage hcall hstarting hstage hcalls hprogress hjobs =>
      refine h.of_quiet hcall hcalls ⟨rfl, fun _ => hstarting, fun hc => ?_, fun hs => ?_⟩
        hprogress (congrArg _ hjobs) fun j _ hrunning => ?_
      · rw [hstage] at hc
        cases hc
      · rw [Call.starting, hs] at hstarting
        cases hstarting
      · rwa [rowRunning, hjobs] at hrunning
  | opens k call row hcall hstarting hrow hcalls hprogress hjobs =>
      refine h.of_quiet hcall hcalls ⟨rfl, fun _ => hstarting, fun hc => ?_, fun hs => ?_⟩ hprogress
        ?_ fun j hlast hrunning => ?_
      · cases hc
      · rw [Call.starting, hs] at hstarting
        cases hstarting
      · rw [hjobs, List.length_set]
      · have hj : call.job ≠ j := fun he => h.starting_new hcall hstarting (he ▸ hlast)
        rwa [rowRunning, hjobs, List.getElem?_set_ne hj] at hrunning
  | creates k call hcreates hcall hstarting hcalls hprogress hjobs =>
      exact h.creates hcall hstarting hcalls hprogress hjobs
  | stops k call stage hcall hstopping hstage hcancelled hcalls hprogress hjobs =>
      refine h.of_quiet hcall hcalls ⟨rfl, fun hs => ?_, fun hc => .inl (hcancelled hc), fun hs => ?_⟩
        hprogress (congrArg _ hjobs) fun j _ hrunning => ?_
      · rw [hstage] at hs
        cases hs
      · rw [Call.stopping, hs] at hstopping
        cases hstopping
      · rwa [rowRunning, hjobs] at hrunning
  | stores k call no row hcall hstopping hrow hcalls hprogress hjobs =>
      exact h.stores hcall hstopping hrow hcalls hprogress hjobs
  | runs i job stage stage' row row' hstage hdone hrow hstatus hcalls hprogress hjobs =>
      exact h.runs hstage hdone hrow hstatus hcalls hprogress hjobs

/-- A `start_job` by others, or the first step of a `stop_job`. -/
theorem Guarded.of_call (h : s.Guarded) {call : Call}
    (hcalls : svc.calls = s.service.calls ++ [call]) (hprogress : svc.progress = s.service.progress)
    (hjobs : svc.jobs = s.service.jobs) (hrow : call.job < s.service.jobs.length)
    (hnew : call.job ∈ s.created → call.starting = false) :
    PathService.Guarded { s with service := svc } := by
  have hrows : ∀ j, PathService.rowRunning { s with service := svc } j = s.rowRunning j := by
    intro j
    rw [rowRunning, hjobs]
    rfl
  have hidle : s.Idle → PathService.Idle { s with service := svc } :=
    fun hidle p hp => hidle p (hprogress ▸ hp)
  have hold : ∀ (k : ℕ) (c : Call), s.service.calls[k]? = some c → svc.calls[k]? = some c := by
    intro k c hc
    rw [hcalls, List.getElem?_append_left (List.getElem?_eq_some_iff.mp hc).1]
    exact hc
  have hcases : ∀ (k : ℕ) (c : Call), svc.calls[k]? = some c →
      s.service.calls[k]? = some c ∨ c = call := by
    intro k c hc
    rw [hcalls] at hc
    rcases Nat.lt_or_ge k s.service.calls.length with hk | hk
    · rw [List.getElem?_append_left hk] at hc
      exact .inl hc
    · rw [List.getElem?_append_right hk] at hc
      exact .inr (List.mem_singleton.mp (List.mem_of_getElem? hc))
  refine ⟨h.lastJob, h.running, fun j hj => hjobs ▸ h.rows j hj, fun k c hc => ?_, fun p hp => ?_,
    fun k c hc hcreated hstarting => ?_, ?_, fun p hp hcreated hdone => ?_, ?_,
    fun c hc => ⟨(h.stops c hc).1, fun k hk => ?_⟩,
    fun p hp => ⟨(h.refreshes p hp).1, fun j hj => (hrows j).trans ((h.refreshes p hp).2 j hj)⟩⟩
  · rw [hjobs]
    rcases hcases k c hc with hc | rfl
    · exact h.callRows k c hc
    · exact hrow
  · rw [hjobs]
    exact h.taskRows p (hprogress ▸ hp)
  · rcases hcases k c hc with hc | rfl
    · exact h.pending k c hc hcreated hstarting
    · rw [hnew hcreated] at hstarting
      cases hstarting
  · have hholds := h.holds
    rw [Holds] at hholds ⊢
    cases hholder : s.holder with
    | none => trivial
    | some stage =>
        rw [hholder] at hholds
        cases stage with
        | refreshing path => trivial
        | checked path => exact hholds
        | created path job => exact hholds
        | starting path job k =>
            obtain ⟨hstatus, hcreated, hlast, c, hc, hjob, hstarted⟩ := hholds
            exact ⟨hstatus, hcreated, hlast, c, hold k c hc, hjob, hstarted.imp_right hidle⟩
  · have hknows := h.known p (hprogress ▸ hp) hcreated hdone
    rw [Knows] at hknows ⊢
    cases hholder : s.holder with
    | none =>
        rw [hholder] at hknows
        exact ⟨hknows.1, fun hrunning => hknows.2 ((hrows p.1).symm.trans hrunning)⟩
    | some stage =>
        rw [hholder] at hknows
        cases stage <;> exact hknows
  · rw [unfinished, hprogress]
    exact h.single
  · obtain ⟨c', hc', hlast, hcancelled⟩ := (h.stops c hc).2 k hk
    exact ⟨c', hold k c' hc', hlast, fun hc => (hrows c'.job).trans (hcancelled hc)⟩

/-- Another stage of the request with the lock, while no run is unfinished. -/
theorem Guarded.withHolder (h : s.Guarded) (holder : Option StartStage) (hidle : s.Idle)
    (hpending : ∀ (k : ℕ) (call : Call), s.service.calls[k]? = some call →
      call.job ∈ s.created → call.starting = true →
        ∃ path, holder = some (.starting path call.job k))
    (hholds : PathService.Holds { s with holder := holder }) :
    PathService.Guarded { s with holder := holder } := by
  refine ⟨h.lastJob, h.running, h.rows, h.callRows, h.taskRows, hpending, hholds,
    fun p hp hcreated hdone => ?_, h.single, h.stops, h.refreshes⟩
  rw [hidle p hp hcreated] at hdone
  cases hdone

theorem writeStatus_lastJob (s : PathService) (read : ScrapePath) (status : PathStatus) :
    (s.writeStatus read status).lastJob = s.path.lastJob := by
  rw [writeStatus]
  split_ifs <;> rfl

/-- The path may say that nothing runs if the last job's row says it. -/
theorem Guarded.withStatus (h : s.Guarded) (read : ScrapePath) (status : PathStatus)
    (hstatus : status ≠ .running)
    (hquiet : s.holder = none → ∀ j, s.path.lastJob = some j → s.rowRunning j = false ∨
      s.writeStatus read status = s.path) :
    PathService.Guarded { s with path := s.writeStatus read status } := by
  have hlast := writeStatus_lastJob s read status
  refine ⟨fun j hj => h.lastJob j (hlast ▸ hj), fun hrunning => ?_, h.rows, h.callRows, h.taskRows,
    h.pending, ?_, fun p hp hcreated hdone => ?_, h.single, fun c hc => ?_, fun p hp => ?_⟩
  · have hrunning' : (s.writeStatus read status).status = .running := hrunning
    rw [writeStatus] at hrunning'
    split_ifs at hrunning'
    · exact hlast.symm ▸ h.running hrunning'
    · exact absurd hrunning' hstatus
  · have hholds := h.holds
    rw [Holds] at hholds ⊢
    cases hholder : s.holder with
    | none => trivial
    | some stage =>
        rw [hholder] at hholds
        cases stage with
        | refreshing path => trivial
        | checked path => exact hholds
        | created path job => exact ⟨hholds.1, hholds.2.1, hlast.symm ▸ hholds.2.2⟩
        | starting path job k => exact ⟨hholds.1, hholds.2.1, hlast.symm ▸ hholds.2.2.1, hholds.2.2.2⟩
  · have hknows := h.known p hp hcreated hdone
    rw [Knows] at hknows ⊢
    cases hholder : s.holder with
    | none =>
        rw [hholder] at hknows
        refine ⟨hlast.trans hknows.1, fun hrunning => ?_⟩
        rcases hquiet hholder p.1 hknows.1 with hrow | hsame
        · cases hrow.symm.trans hrunning
        · exact (congrArg ScrapePath.status hsame).trans (hknows.2 hrunning)
    | some stage =>
        rw [hholder] at hknows
        cases stage <;> exact hknows
  · obtain ⟨hsame, hcall⟩ := h.stops c hc
    refine ⟨hsame.trans hlast.symm, fun k hk => ?_⟩
    obtain ⟨call, hcall, hjob, hcancelled⟩ := hcall k hk
    exact ⟨call, hcall, hlast.trans hjob, hcancelled⟩
  · obtain ⟨hsame, hrow⟩ := h.refreshes p hp
    exact ⟨hsame.trans hlast.symm, fun j hj => hrow j (hlast ▸ hj)⟩

theorem addJob_rowRunning (s : PathService) (j : ℕ) : s.addJob.rowRunning j = s.rowRunning j := by
  have hjobs : s.addJob.service.jobs = s.service.jobs ++ [{ status := .pending }] := rfl
  rw [rowRunning, rowRunning, hjobs]
  rcases Nat.lt_trichotomy j s.service.jobs.length with hj | rfl | hj
  · rw [List.getElem?_append_left hj]
  · rw [List.getElem?_concat_length, List.getElem?_eq_none le_rfl]
    rfl
  · rw [List.getElem?_eq_none hj.le, List.getElem?_eq_none (by rw [List.length_append]; exact hj)]

theorem Guarded.addJob (h : s.Guarded) : s.addJob.Guarded := by
  have hlength : s.addJob.service.jobs.length = s.service.jobs.length + 1 := List.length_append
  have hle : ∀ {j}, j < s.service.jobs.length → j < s.addJob.service.jobs.length := fun hj => by
    omega
  refine ⟨h.lastJob, h.running, fun j hj => hle (h.rows j hj),
    fun k call hcall => hle (h.callRows k call hcall), fun p hp => hle (h.taskRows p hp), h.pending,
    ?_, fun p hp hcreated hdone => ?_, h.single, fun c hc => ⟨(h.stops c hc).1, fun k hk => ?_⟩,
    fun p hp => ⟨(h.refreshes p hp).1, fun j hj =>
      (addJob_rowRunning s j).trans ((h.refreshes p hp).2 j hj)⟩⟩
  · have hholds := h.holds
    rw [Holds] at hholds ⊢
    have hholder : s.addJob.holder = s.holder := rfl
    rw [hholder]
    cases hstage : s.holder with
    | none => trivial
    | some stage =>
        rw [hstage] at hholds
        cases stage <;> exact hholds
  · have hknows := h.known p hp hcreated hdone
    have hholder : s.addJob.holder = s.holder := rfl
    rw [Knows] at hknows ⊢
    rw [hholder]
    cases hstage : s.holder with
    | none =>
        rw [hstage] at hknows
        exact ⟨hknows.1, fun hrunning => hknows.2 ((addJob_rowRunning s p.1).symm.trans hrunning)⟩
    | some stage =>
        rw [hstage] at hknows
        cases stage <;> exact hknows
  · obtain ⟨call, hcall, hlast, hcancelled⟩ := (h.stops c hc).2 k hk
    exact ⟨call, hcall, hlast, fun hc => (addJob_rowRunning s call.job).trans (hcancelled hc)⟩

theorem Guarded.idle (h : s.Guarded) (hknows : ∀ j, ¬ s.Knows j) : s.Idle := by
  intro p hp hcreated
  by_contra hdone
  exact hknows p.1 (h.known p hp hcreated (Bool.not_eq_true _ ▸ hdone))

theorem Guarded.no_pending (h : s.Guarded) {k : ℕ} {call : Call}
    (hcall : s.service.calls[k]? = some call) (hcreated : call.job ∈ s.created)
    (hholder : ∀ path job l, s.holder ≠ some (.starting path job l)) : call.starting = false := by
  by_contra hstarting
  obtain ⟨path, hpath⟩ := h.pending k call hcall hcreated (Bool.not_eq_false _ ▸ hstarting)
  exact hholder path call.job k hpath

/-- Without a `start_job` under way, any stage of the request with the lock accounts for all. -/
theorem Guarded.accounted (h : s.Guarded)
    (hholder : ∀ path job l, s.holder ≠ some (.starting path job l)) {stage : Option StartStage}
    (k : ℕ) (call : Call) (hcall : s.service.calls[k]? = some call) (hcreated : call.job ∈ s.created)
    (hstarting : call.starting = true) : ∃ path, stage = some (.starting path call.job k) := by
  rw [h.no_pending hcall hcreated hholder] at hstarting
  cases hstarting

/-- A check that passes has found no run. -/
theorem Guarded.check_idle (h : s.Guarded) (hfree : s.holder = none)
    (hpasses : s.alreadyRunning = false) (horderly : s.Orderly .startPath) : s.Idle := by
  intro p hp hcreated
  by_contra hdone
  have hdone' : p.2.done = false := Bool.not_eq_true _ ▸ hdone
  have hknows := h.known p hp hcreated hdone'
  have hrow : s.rowRunning p.1 = true := horderly hpasses p hp hcreated hdone'
  rw [Knows, hfree] at hknows
  rw [alreadyRunning, hknows.1, decide_eq_true (hknows.2 hrow)] at hpasses
  rw [Option.any_some, hrow] at hpasses
  cases hpasses

/-- `create_job` for the path. -/
theorem Guarded.createJob (h : s.Guarded) {path : ScrapePath}
    (hholder : s.holder = some (.checked path)) :
    PathService.Guarded { s.addJob with
      created := s.created ++ [s.service.jobs.length]
      holder := some (.created path s.service.jobs.length) } := by
  have hadd := h.addJob
  have hlength : s.addJob.service.jobs.length = s.service.jobs.length + 1 := List.length_append
  have hold : ∀ j, j < s.service.jobs.length → j ∈ s.created ++ [s.service.jobs.length] →
      j ∈ s.created := by
    intro j hj hmem
    rcases List.mem_append.mp hmem with hmem | hmem
    · exact hmem
    · rw [List.mem_singleton.mp hmem] at hj
      exact absurd hj (Nat.lt_irrefl _)
  have hidle : s.Idle := h.idle fun j hknows => by rwa [Knows, hholder] at hknows
  have hholds := h.holds
  rw [Holds, hholder] at hholds
  refine ⟨fun j hj => List.mem_append_left _ (h.lastJob j hj), h.running, fun j hj => ?_,
    hadd.callRows, hadd.taskRows, fun k call hcall hcreated hstarting => ?_, ?_,
    fun p hp hcreated hdone => ?_, ?_, hadd.stops, hadd.refreshes⟩
  · rcases List.mem_append.mp hj with hj | hj
    · exact hadd.rows j hj
    · rw [List.mem_singleton.mp hj]
      exact hlength ▸ Nat.lt_succ_self _
  · rw [h.no_pending hcall (hold call.job (h.callRows k call hcall) hcreated)
      (by rw [hholder]; nofun)] at hstarting
    cases hstarting
  · refine ⟨hholds, List.mem_append_right _ (List.mem_singleton.mpr rfl), fun hlast => ?_⟩
    exact Nat.lt_irrefl _ (h.rows _ (h.lastJob _ hlast))
  · rw [hidle p hp (hold p.1 (h.taskRows p hp) hcreated)] at hdone
    cases hdone
  · have hnew : PathService.Idle { s.addJob with
        created := s.created ++ [s.service.jobs.length]
        holder := some (.created path s.service.jobs.length) } :=
      fun p hp hcreated => hidle p hp (hold p.1 (h.taskRows p hp) hcreated)
    rw [hnew.unfinished]
    omega

/-- `start_job` for the new job. -/
theorem Guarded.callStart (h : s.Guarded) {path : ScrapePath} {job : ℕ}
    (hholder : s.holder = some (.created path job))
    (hstep : s.service.step (.startJob job) = some svc) :
    PathService.Guarded { s with
      service := svc
      holder := some (.starting path job s.service.calls.length) } := by
  obtain ⟨call, hjob, hcalls, hprogress, hjobs⟩ := JobService.startJob_adds hstep
  have hholds := h.holds
  rw [Holds, hholder] at hholds
  obtain ⟨hstatus, hcreated, hlast⟩ := hholds
  have hidle : s.Idle := h.idle fun j hknows => by rwa [Knows, hholder] at hknows
  have hrows : ∀ j : ℕ, svc.jobs[j]? = s.service.jobs[j]? := fun j => by rw [hjobs]
  have hcases : ∀ (k : ℕ) (c : Call), svc.calls[k]? = some c →
      s.service.calls[k]? = some c ∨ k = s.service.calls.length ∧ c = call := by
    intro k c hc
    rw [hcalls] at hc
    rcases Nat.lt_trichotomy k s.service.calls.length with hk | rfl | hk
    · rw [List.getElem?_append_left hk] at hc
      exact .inl hc
    · rw [List.getElem?_concat_length] at hc
      exact .inr ⟨rfl, (Option.some.inj hc).symm⟩
    · rw [List.getElem?_eq_none (by rw [List.length_append]; exact hk)] at hc
      cases hc
  have hnew : svc.calls[s.service.calls.length]? = some call := by
    rw [hcalls, List.getElem?_concat_length]
  refine ⟨h.lastJob, h.running, fun j hj => hjobs ▸ h.rows j hj, fun k c hc => ?_,
    fun p hp => hjobs ▸ h.taskRows p (hprogress ▸ hp), fun k c hc hown hstarting => ?_,
    ⟨hstatus, hcreated, hlast, call, hnew, hjob, .inr fun p hp => hidle p (hprogress ▸ hp)⟩,
    fun p hp hown hdone => ?_, ?_, fun c hc => ⟨(h.stops c hc).1, fun k hk => ?_⟩,
    fun p hp => ⟨(h.refreshes p hp).1, fun j hj => ?_⟩⟩
  · rw [hjobs]
    rcases hcases k c hc with hc | ⟨-, rfl⟩
    · exact h.callRows k c hc
    · exact hjob ▸ h.rows job hcreated
  · rcases hcases k c hc with hc | ⟨rfl, rfl⟩
    · rw [h.no_pending hc hown (by rw [hholder]; nofun)] at hstarting
      cases hstarting
    · exact ⟨path, by rw [hjob]⟩
  · rw [hidle p (hprogress ▸ hp) hown] at hdone
    cases hdone
  · rw [unfinished, hprogress]
    exact h.single
  · obtain ⟨c', hc', hlast', hcancelled⟩ := (h.stops c hc).2 k hk
    refine ⟨c', ?_, hlast', fun hc => ?_⟩
    · rw [hcalls, List.getElem?_append_left (List.getElem?_eq_some_iff.mp hc').1]
      exact hc'
    · rw [rowRunning, hrows]
      exact hcancelled hc
  · rw [rowRunning, hrows]
    exact (h.refreshes p hp).2 j hj

/-- The new job becomes the last one. -/
theorem Guarded.commitRunning (h : s.Guarded) {path : ScrapePath} {job k : ℕ}
    (hholder : s.holder = some (.starting path job k))
    (hcall : s.service.calls[k]? = some ⟨job, .started true⟩)
    (halone : s.stops = [] ∧ s.refreshes = []) :
    PathService.Guarded { s with
      path := { s.writeStatus path .running with lastJob := some job }
      holder := none } := by
  have hholds := h.holds
  rw [Holds, hholder] at hholds
  obtain ⟨hstatus, hcreated, -, -⟩ := hholds
  refine ⟨fun j hj => ?_, nofun, h.rows, h.callRows, h.taskRows,
    fun l c hc hown hstarting => ?_, trivial, fun p hp hown hdone => ?_, h.single, ?_, ?_⟩
  · cases hj
    exact hcreated
  · obtain ⟨path', hpath'⟩ := h.pending l c hc hown hstarting
    cases hholder.symm.trans hpath'
    rw [← Option.some.inj (hcall.symm.trans hc)] at hstarting
    cases hstarting
  · have hknows := h.known p hp hown hdone
    rw [Knows, hholder] at hknows
    refine ⟨congrArg some hknows, fun _ => ?_⟩
    have hwritten : (s.writeStatus path .running).status = .running := by
      rw [writeStatus, if_neg hstatus]
    exact hwritten
  · rw [halone.1]
    nofun
  · rw [halone.2]
    nofun

/-- `start_job` has failed for the new job. -/
theorem Guarded.startFails (h : s.Guarded) {path : ScrapePath} {job k : ℕ}
    (hholder : s.holder = some (.starting path job k))
    (hcall : s.service.calls[k]? = some ⟨job, .started false⟩) :
    PathService.Guarded { s with holder := none } := by
  have hholds := h.holds
  rw [Holds, hholder] at hholds
  obtain ⟨-, -, -, call, hcall', -, hstarted⟩ := hholds
  cases hcall.symm.trans hcall'
  refine h.withHolder none (hstarted.resolve_left nofun) (fun l c hc hown hstarting => ?_) trivial
  obtain ⟨path', hpath'⟩ := h.pending l c hc hown hstarting
  cases hholder.symm.trans hpath'
  rw [← Option.some.inj (hcall.symm.trans hc)] at hstarting
  cases hstarting

/-- The request that takes the lock, after its check. -/
theorem Guarded.startPath {s' : PathService} (h : s.Guarded) (horderly : s.Orderly .startPath)
    (hstep : s.step .startPath = some s') : s'.Guarded := by
  simp only [PathService.step] at hstep
  split_ifs at hstep with hheld hrunning hstale
  · cases hstep
    exact h
  · cases hstep
    have hfree : s.holder = none := Option.not_isSome_iff_eq_none.mp hheld
    have hpasses : s.alreadyRunning = false := Bool.not_eq_true _ ▸ hrunning
    exact h.withHolder _ (h.check_idle hfree hpasses horderly)
      (h.accounted (by rw [hfree]; nofun)) trivial
  · cases hstep
    have hfree : s.holder = none := Option.not_isSome_iff_eq_none.mp hheld
    have hpasses : s.alreadyRunning = false := Bool.not_eq_true _ ▸ hrunning
    refine h.withHolder _ (h.check_idle hfree hpasses horderly)
      (h.accounted (by rw [hfree]; nofun)) fun hstatus => ?_
    -- the last job's row would be one or the other
    obtain ⟨j, hj⟩ := Option.ne_none_iff_exists'.mp (h.running hstatus)
    rw [alreadyRunning, hj, decide_eq_true hstatus] at hpasses
    rw [stale, hj, decide_eq_true hstatus] at hstale
    rw [Option.any_some] at hpasses hstale
    cases hrow : s.rowRunning j with
    | true => rw [hrow] at hpasses; cases hpasses
    | false => rw [hrow] at hstale; exact hstale rfl

/-- Other stops under way, each with what its `stop_job` has found. -/
theorem Guarded.withStops (h : s.Guarded) (stops : List PathStop)
    (hstops : ∀ c ∈ stops, c.path.lastJob = s.path.lastJob ∧ ∀ k, c.call = some k →
      ∃ call, s.service.calls[k]? = some call ∧ s.path.lastJob = some call.job ∧
        (call.cancelled = true → s.rowRunning call.job = false)) :
    PathService.Guarded { s with stops := stops } :=
  ⟨h.lastJob, h.running, h.rows, h.callRows, h.taskRows, h.pending, h.holds, h.known, h.single,
    hstops, h.refreshes⟩

theorem Guarded.withRefreshes (h : s.Guarded) (refreshes : List ScrapePath)
    (hrefreshes : ∀ p ∈ refreshes, p.lastJob = s.path.lastJob ∧
      ∀ j, s.path.lastJob = some j → s.rowRunning j = false) :
    PathService.Guarded { s with refreshes := refreshes } :=
  ⟨h.lastJob, h.running, h.rows, h.callRows, h.taskRows, h.pending, h.holds, h.known, h.single,
    h.stops, hrefreshes⟩

/-- `stop_job` for the job that the stop has read. -/
theorem Guarded.callStop {stop : PathStop} {i job : ℕ} {ok : Bool} (h : s.Guarded)
    (hstop : s.stops[i]? = some stop) (hjob : stop.path.lastJob = some job)
    (hstep : s.service.step (.stopJob job ok) = some svc) :
    PathService.Guarded { s with
      service := svc
      stops := s.stops.set i { stop with call := some s.service.calls.length } } := by
  obtain ⟨call, rfl, hstarting, hcancelled, hcalls, hprogress, hjobs⟩ :=
    JobService.stopJob_adds hstep
  have hlast : s.path.lastJob = some call.job :=
    (h.stops stop (List.mem_of_getElem? hstop)).1.symm.trans hjob
  have hadded := h.of_call hcalls hprogress hjobs (h.rows call.job (h.lastJob call.job hlast))
    fun _ => hstarting
  refine hadded.withStops _ fun c hc => ?_
  rcases List.mem_or_eq_of_mem_set hc with hc | rfl
  · exact hadded.stops c hc
  · refine ⟨hjob.trans hlast.symm, fun k hk => ?_⟩
    cases hk
    refine ⟨call, ?_, hlast, fun hc => ?_⟩
    · rw [hcalls, List.getElem?_concat_length]
    · rw [rowRunning, hjobs]
      exact hcancelled hc

/-- The last job's row does not say `running` when its `stop_job` has succeeded. -/
theorem Guarded.commitStopped {stop : PathStop} {i : ℕ} (h : s.Guarded)
    (hstop : s.stops[i]? = some stop) (hreturned : s.stopReturned stop = true)
    (hsucceeded : s.stopFailed stop = false) :
    PathService.Guarded { s with
      path := s.writeStatus stop.path .stopped
      stops := s.stops.eraseIdx i } := by
  obtain ⟨hsame, hcalls⟩ := h.stops stop (List.mem_of_getElem? hstop)
  have hwritten := h.withStatus stop.path .stopped nofun fun _ j hj => by
    left
    rw [stopReturned, hsame, hj] at hreturned
    rw [stopFailed, hsame, hj] at hsucceeded
    cases hk : stop.call with
    | none => rw [hk] at hreturned; cases hreturned
    | some k =>
        obtain ⟨call, hcall, hjob, hcancelled⟩ := hcalls k hk
        rw [hk] at hreturned hsucceeded
        rw [hj] at hjob
        cases hjob
        rw [Option.any_some, Option.any_some] at hsucceeded
        simp only [hsucceeded, Bool.or_false, decide_eq_true_eq] at hreturned
        refine hcancelled ?_
        rw [Option.some.inj (hcall.symm.trans hreturned)]
        rfl
  exact hwritten.withStops _ fun c hc => hwritten.stops c (List.mem_of_mem_eraseIdx hc)

/-- What the service does on its own and for others. -/
theorem Guarded.service {a : Action} (h : s.Guarded) (hpermitted : s.permitted a = true)
    (hstep : s.service.step a = some svc) : PathService.Guarded { s with service := svc } := by
  cases hopens : JobService.opensCall a with
  | false => exact h.inner (JobService.step_inner hopens hstep)
  | true =>
      cases a with
      | startJob job =>
          obtain ⟨hrow, hother⟩ := (Bool.and_eq_true _ _).mp hpermitted
          obtain ⟨call, rfl, hcalls, hprogress, hjobs⟩ := JobService.startJob_adds hstep
          exact h.of_call hcalls hprogress hjobs (of_decide_eq_true hrow)
            fun hown => absurd hown (of_decide_eq_true hother)
      | stopJob job ok =>
          obtain ⟨hrow, hother⟩ := (Bool.and_eq_true _ _).mp hpermitted
          obtain ⟨call, rfl, hstarting, -, hcalls, hprogress, hjobs⟩ :=
            JobService.stopJob_adds hstep
          exact h.of_call hcalls hprogress hjobs (of_decide_eq_true hrow) fun _ => hstarting
      | _ => cases hopens

end Service

theorem Guarded.step {s s' : PathService} {a : PathAction} (h : s.Guarded)
    (horderly : s.Orderly a) (hstep : s.step a = some s') : s'.Guarded := by
  cases a with
  | startPath => exact h.startPath horderly hstep
  | commitIdle =>
      simp only [PathService.step] at hstep
      split at hstep
      · rename_i path hholder
        cases hstep
        have hidle : s.Idle := h.idle fun j hknows => by rwa [Knows, hholder] at hknows
        have hwritten := h.withStatus path .idle nofun fun hfree => by
          rw [hholder] at hfree
          cases hfree
        exact hwritten.withHolder _ hidle (hwritten.accounted (by rw [hholder]; nofun)) nofun
      · cases hstep
  | createJob ok =>
      simp only [PathService.step] at hstep
      split at hstep
      · rename_i path hholder
        split_ifs at hstep with hok
        · cases hstep
          exact h.createJob hholder
        · cases hstep
          have hidle : s.Idle := h.idle fun j hknows => by rwa [Knows, hholder] at hknows
          exact h.withHolder none hidle (h.accounted (by rw [hholder]; nofun)) trivial
      · cases hstep
  | callStart =>
      simp only [PathService.step] at hstep
      split at hstep
      · rename_i path job hholder
        obtain ⟨svc, hsvc, rfl⟩ := Option.map_eq_some_iff.mp hstep
        exact h.callStart hholder hsvc
      · cases hstep
  | commitRunning =>
      simp only [PathService.step] at hstep
      split at hstep
      · rename_i path job k hholder
        split_ifs at hstep with hcall
        cases hstep
        exact h.commitRunning hholder hcall horderly
      · cases hstep
  | startFails =>
      simp only [PathService.step] at hstep
      split at hstep
      · rename_i path job k hholder
        split_ifs at hstep with hcall
        cases hstep
        exact h.startFails hholder hcall
      · cases hstep
  | stopPath =>
      cases hstep
      refine h.withStops _ fun c hc => ?_
      rcases List.mem_append.mp hc with hc | hc
      · exact h.stops c hc
      · cases List.mem_singleton.mp hc
        exact ⟨rfl, nofun⟩
  | callStop i ok =>
      obtain ⟨stop, hstop, hstep⟩ := Option.bind_eq_some_iff.mp hstep
      split at hstep
      · rename_i job hjob hcall
        obtain ⟨svc, hsvc, rfl⟩ := Option.map_eq_some_iff.mp hstep
        exact h.callStop hstop hjob hsvc
      · cases hstep
  | commitStopped i =>
      obtain ⟨stop, hstop, hstep⟩ := Option.bind_eq_some_iff.mp hstep
      split_ifs at hstep with hreturned
      cases hstep
      exact h.commitStopped hstop hreturned (horderly stop hstop)
  | refreshPath =>
      simp only [PathService.step] at hstep
      split_ifs at hstep with hstale
      · cases hstep
        refine h.withRefreshes _ fun p hp => ?_
        rcases List.mem_append.mp hp with hp | hp
        · exact h.refreshes p hp
        · cases List.mem_singleton.mp hp
          refine ⟨rfl, fun j hj => ?_⟩
          rw [stale, hj, Option.any_some] at hstale
          exact Bool.not_eq_true' _ ▸ ((Bool.and_eq_true _ _).mp hstale).2
      · cases hstep
        exact h
  | commitRefresh i =>
      obtain ⟨path, hpath, hstep⟩ := Option.bind_eq_some_iff.mp hstep
      cases hstep
      have hmem := List.mem_of_getElem? hpath
      have hwritten := h.withStatus path .idle nofun fun _ j hj => .inl ((h.refreshes path hmem).2 j hj)
      exact hwritten.withRefreshes _ fun p hp => hwritten.refreshes p (List.mem_of_mem_eraseIdx hp)
  | createOther =>
      cases hstep
      exact h.addJob
  | service a =>
      simp only [PathService.step] at hstep
      split_ifs at hstep with hpermitted
      obtain ⟨svc, hsvc, rfl⟩ := Option.map_eq_some_iff.mp hstep
      exact h.service hpermitted hsvc

instance (s : PathService) : ∀ a, Decidable (s.Orderly a)
  | .startPath => inferInstanceAs (Decidable (s.alreadyRunning = false →
      ∀ p ∈ s.service.progress, p.1 ∈ s.created → p.2.done = false → s.rowRunning p.1 = true))
  | .commitRunning =>
      decidable_of_iff (s.stops.isEmpty = true ∧ s.refreshes.isEmpty = true)
        (by rw [List.isEmpty_iff, List.isEmpty_iff]; rfl)
  | .commitStopped i => inferInstanceAs (Decidable (∀ stop ∈ s.stops[i]?, s.stopFailed stop = false))
  | .commitIdle | .createJob _ | .callStart | .startFails | .stopPath | .callStop _ _
  | .refreshPath | .commitRefresh _ | .createOther | .service _ => .isTrue trivial

/-- What the process finds when it starts: the rows, and the path's last job among its jobs. -/
structure Restarted (s : PathService) : Prop where
  service : s.service = { jobs := s.service.jobs }
  holder : s.holder = none
  stops : s.stops = []
  refreshes : s.refreshes = []
  rows : ∀ j ∈ s.created, j < s.service.jobs.length
  lastJob : ∀ j, s.path.lastJob = some j → j ∈ s.created
  running : s.path.status = .running → s.path.lastJob ≠ none

theorem Restarted.guarded {s : PathService} (h : s.Restarted) : s.Guarded := by
  have hcalls : s.service.calls = [] := by rw [h.service]
  have hprogress : s.service.progress = [] := by rw [h.service]; rfl
  refine ⟨h.lastJob, h.running, h.rows, fun k call hcall => ?_, fun p hp => ?_,
    fun k call hcall => ?_, ?_, fun p hp => ?_, ?_, fun c hc => ?_, fun p hp => ?_⟩
  · rw [hcalls] at hcall
    cases hcall
  · rw [hprogress] at hp
    cases hp
  · rw [hcalls] at hcall
    cases hcall
  · rw [Holds, h.holder]
    trivial
  · rw [hprogress] at hp
    cases hp
  · rw [unfinished, hprogress]
    exact Nat.zero_le _
  · rw [h.stops] at hc
    cases hc
  · rw [h.refreshes] at hp
    cases hp

/-- At every moment at most one run of the path's jobs has begun and not ended, in every run
of the application in which no start passes its check while a run is unfinished whose row no
longer says `running`, and none commits within a stop or a refresh. -/
theorem one_run_for_each_path (s : PathService) (hrestarted : s.Restarted)
    (actions : List PathAction) (horderly : PartialRun.Along step Orderly s actions) :
    PartialRun.Throughout step (fun s => s.processed ≤ 1) s actions := by
  intro pre hpre s' hrun
  have hguarded : s'.Guarded := PartialRun.throughout_of_along
    (fun s a s' h hP hstep => h.step hP hstep) hrestarted.guarded horderly pre hpre s' hrun
  exact (processed_le_unfinished s').trans hguarded.single

/-- A path without jobs yet. -/
def newPath : PathService := { service := { jobs := [] } }

/-- `_start_path_job` for the path's `n`-th job, with the `k`-th call, up to its task's begin. -/
def startsRun (n k : ℕ) : List PathAction :=
  [.createJob true, .callStart, .service (.openRow k true), .service (.createTask k),
    .commitRunning, .service (.run n .begin), .service (.run n (.load ["film.mkv".toList])),
    .service (.run n .next)]

/-- A path that is started, started again, completes, is started and stopped. -/
theorem path_runs_one_job :
    PartialRun.Throughout step (fun s => s.processed ≤ 1) newPath
      (.startPath :: startsRun 0 0 ++ [.startPath, .service (.run 0 (.settle .success)),
        .service (.run 0 .next), .service (.run 0 .close), .refreshPath, .commitRefresh 0,
        .startPath] ++ startsRun 1 1 ++ [.stopPath, .callStop 0 true,
        .service (.storeCancelled 2 true), .service (.cancelTask 2),
        .service (.run 1 (.cancel true)), .service (.stopReturns 2), .commitStopped 0]) :=
  one_run_for_each_path newPath ⟨rfl, rfl, rfl, rfl, nofun, nofun, nofun⟩ _ (by decide)

/-- A path that is started while a stop waits for the task it has cancelled. -/
theorem path_runs_two_jobs :
    ¬ PartialRun.Throughout step (fun s => s.processed ≤ 1) newPath
      (.startPath :: startsRun 0 0 ++ [.stopPath, .callStop 0 true,
        .service (.storeCancelled 1 true), .service (.cancelTask 1), .startPath, .commitIdle] ++
        startsRun 1 2) := by
  intro h
  have hend := h _ List.prefix_rfl _ (Option.some_get (by decide)).symm
  revert hend
  decide

end PathService

end SmartMedia.Scrape
