import SmartMedia.Cron.CronService

/-!
# Does the processor survive its tasks?

The queue, the set of queued ids and the table of running tasks agree in every state, so
no id is queued or executed twice. The processor itself returns as soon as a task that it
awaits ends with a `CancelledError`, which is what `stop_task` raises in it.
-/
namespace SmartMedia.Cron

namespace CronService

def queueIds (c : CronService) : List String := c.taskQueue.map TaskInfo.taskId

def runningIds (c : CronService) : List String := c.runningTasks.map Prod.fst

/-- The three tables agree with each other and with the processor. -/
structure Consistent (c : CronService) : Prop where
  running : c.running = true
  ids : ∃ ids, c.queuedTaskIds = some ids ∧ ∀ id, id ∈ ids ↔ id ∈ c.runningIds ++ c.queueIds
  nodup : (c.runningIds ++ c.queueIds).Nodup
  table : match c.workerTask with
    | some (.awaiting i) => ∃ e, c.executions[i]? = some e ∧ c.runningTasks = [(e.info.taskId, i)]
    | some _ => c.runningTasks = []
    | none => False
  ended : ∀ i e, c.executions[i]? = some e → e.Ended ∨ c.workerTask = some (.awaiting i)

variable {c c' : CronService} {i : ℕ} {e e' : Execution} {a : Action}

theorem mem_runningIds {id : String} : id ∈ c.runningIds ↔ (c.runningTasks.lookup id).isSome := by
  rw [runningIds, List.lookup_isSome_iff, List.mem_map]
  constructor
  · rintro ⟨e, he, rfl⟩
    exact ⟨e, he, beq_self_eq_true e.1⟩
  · rintro ⟨e, he, hid⟩
    exact ⟨e, he, (eq_of_beq hid).symm⟩

/-- An execution goes on, under its own id. -/
theorem Consistent.update (h : c.Consistent) (he : c.executions[i]? = some e)
    (hid : e'.info.taskId = e.info.taskId) (hended : e.Ended → e'.Ended) (history : List TaskInfo) :
    Consistent { c with executions := c.executions.set i e', taskHistory := history } := by
  have hi : i < c.executions.length := (List.getElem?_eq_some_iff.mp he).1
  have hget : ∀ j, (c.executions.set i e')[j]? = if i = j then some e' else c.executions[j]? := by
    intro j
    rw [List.getElem?_set]
    split_ifs with hj
    · rfl
    · rfl
  refine ⟨h.running, h.ids, h.nodup, ?_, fun j d hd => ?_⟩
  · have htable := h.table
    show match c.workerTask with
      | some (.awaiting j) => ∃ d, (c.executions.set i e')[j]? = some d ∧
          c.runningTasks = [(d.info.taskId, j)]
      | some _ => c.runningTasks = []
      | none => False
    cases hw : c.workerTask with
    | none =>
        rw [hw] at htable
        exact htable
    | some w =>
        rw [hw] at htable
        cases w with
        | waiting => exact htable
        | stopped => exact htable
        | awaiting j =>
            obtain ⟨d, hd, hrunning⟩ := htable
            by_cases hj : i = j
            · subst hj
              rw [he] at hd
              obtain rfl := Option.some.inj hd
              refine ⟨e', by rw [hget, if_pos rfl], ?_⟩
              rw [hrunning, hid]
            · exact ⟨d, by rw [hget, if_neg hj, hd], hrunning⟩
  · show d.Ended ∨ c.workerTask = some (.awaiting j)
    replace hd : (c.executions.set i e')[j]? = some d := hd
    rw [hget] at hd
    split_ifs at hd with hj
    · obtain rfl := Option.some.inj hd
      subst hj
      exact (h.ended i e he).imp hended id
    · exact h.ended j d hd

theorem finish_taskId (e : Execution) (outcome : Outcome) :
    (e.finish outcome).info.taskId = e.info.taskId := by
  cases outcome <;> rfl

theorem finish_ended (e : Execution) (outcome : Outcome) : (e.finish outcome).Ended :=
  ⟨outcome, rfl⟩

theorem Consistent.finishExecution (h : c.Consistent) (he : c.executions[i]? = some e)
    (hid : e'.info.taskId = e.info.taskId) (outcome : Outcome) :
    (c.finishExecution i e' outcome).Consistent :=
  h.update he ((finish_taskId e' outcome).trans hid) (fun _ => finish_ended e' outcome) _

theorem Consistent.beginExecution (h : c.Consistent) (he : c.executions[i]? = some e)
    (hcreated : e.progress = .created) : (c.beginExecution i e).Consistent := by
  have hnot : ¬ e.Ended := by
    rintro ⟨outcome, hout⟩
    rw [hcreated] at hout
    cases hout
  rw [CronService.beginExecution]
  split_ifs
  · refine h.update he ?_ (fun _ => ?_) c.taskHistory
    · rfl
    · exact ⟨.cancelled, rfl⟩
  · dsimp only
    split_ifs
    · refine h.update he ?_ (fun hended => absurd hended hnot) c.taskHistory
      rfl
    · refine h.finishExecution he ?_ _
      rfl

theorem Consistent.stopTask (h : c.Consistent) (taskId : String) :
    (c.stopTask taskId).1.Consistent := by
  rw [CronService.stopTask]
  cases c.runningTasks.lookup taskId with
  | none => exact h
  | some i =>
      show Consistent { c with executions := c.executions.modify i Execution.cancel }
      rw [List.modify_eq_set_getElem?]
      cases he : c.executions[i]? with
      | none => exact h
      | some e =>
          refine h.update he ?_ ?_ c.taskHistory
          · rw [Execution.cancel]
            split
            · rfl
            · rfl
          · rintro ⟨outcome, hout⟩
            refine ⟨outcome, ?_⟩
            rw [Execution.cancel, hout]
            exact hout

theorem Consistent.addTask (h : c.Consistent) (taskType : String) (taskId : Option String)
    (timestamp : String) : (c.addTask taskType taskId timestamp).1.Consistent := by
  rw [CronService.addTask]
  generalize taskId.getD (taskType ++ "_" ++ timestamp) = id
  obtain ⟨ids, hids, hmem⟩ := h.ids
  split_ifs with hrunning hqueued
  · exact h
  · exact h
  · have hnew : id ∉ c.runningIds ++ c.queueIds := by
      rw [← hmem]
      simpa [hids] using hqueued
    have hqueue : queueIds { c with taskQueue := c.taskQueue ++ [{ taskId := id, taskType }] } =
        c.queueIds ++ [id] := List.map_append
    refine ⟨h.running, ⟨insert id ids, ?_, fun id' => ?_⟩, ?_, h.table, h.ended⟩
    · show some (insert id (c.queuedTaskIds.getD ∅)) = _
      rw [hids]
      rfl
    · show id' ∈ insert id ids ↔ id' ∈ c.runningIds ++ (c.taskQueue ++ [_]).map TaskInfo.taskId
      rw [Finset.mem_insert, hmem, List.map_append, ← List.append_assoc]
      show id' = id ∨ id' ∈ c.runningIds ++ c.queueIds ↔ id' ∈ c.runningIds ++ c.queueIds ++ [id]
      rw [List.mem_append (t := [id]), List.mem_singleton, or_comm]
    · show (c.runningIds ++ (c.taskQueue ++ [_]).map TaskInfo.taskId).Nodup
      rw [List.map_append, ← List.append_assoc, List.map_singleton]
      exact List.nodup_append_comm.mp (List.nodup_cons.mpr ⟨hnew, h.nodup⟩)

/-- The table says whether an id is running. -/
theorem Consistent.notMem_running (h : c.Consistent) {info : TaskInfo} {rest : List TaskInfo}
    (hqueue : c.taskQueue = info :: rest) : info.taskId ∉ c.runningIds := by
  intro hmem
  have hnodup := h.nodup
  rw [queueIds, hqueue, List.map_cons] at hnodup
  exact (List.nodup_append.mp hnodup).2.2 _ hmem _ List.mem_cons_self rfl

theorem Consistent.get (h : c.Consistent) {info : TaskInfo} {rest : List TaskInfo}
    (hw : c.workerTask = some .waiting) (hqueue : c.taskQueue = info :: rest) :
    ({ c with taskQueue := rest }.processTask info).Consistent := by
  have htable : c.runningTasks = [] := by
    have htable := h.table
    rwa [hw] at htable
  have hlook : (c.runningTasks.lookup info.taskId).isSome = false := by rw [htable]; rfl
  have hids := h.ids
  have hnodup := h.nodup
  rw [runningIds, htable, queueIds, hqueue] at hids hnodup
  have hskip : ¬ (({ c with taskQueue := rest } : CronService).runningTasks.lookup
      info.taskId).isSome = true := by
    show ¬ (c.runningTasks.lookup info.taskId).isSome = true
    rw [hlook]
    exact Bool.false_ne_true
  have hnew : (info.taskId, c.executions.length) :: c.runningTasks =
      [(info.taskId, c.executions.length)] := by rw [htable]
  rw [CronService.processTask, if_neg hskip]
  refine ⟨h.running, ?_, ?_, ⟨{ info := info }, ?_, hnew⟩, fun i e he => ?_⟩
  · rw [runningIds]
    show ∃ ids, c.queuedTaskIds = some ids ∧ ∀ id, id ∈ ids ↔
      id ∈ ((info.taskId, c.executions.length) :: c.runningTasks).map Prod.fst ++
        rest.map TaskInfo.taskId
    rw [hnew]
    exact hids
  · rw [runningIds]
    show (((info.taskId, c.executions.length) :: c.runningTasks).map Prod.fst ++
      rest.map TaskInfo.taskId).Nodup
    rw [hnew]
    exact hnodup
  · exact List.getElem?_concat_length
  · replace he : (c.executions ++ [{ info := info }])[i]? = some e := he
    rcases Nat.lt_or_ge i c.executions.length with hi | hi
    · rw [List.getElem?_append_left hi] at he
      rcases h.ended i e he with hended | hwaiting
      · exact .inl hended
      · rw [hw] at hwaiting
        cases hwaiting
    · have hlt := (List.getElem?_eq_some_iff.mp he).1
      rw [List.length_append, List.length_singleton] at hlt
      obtain rfl : i = c.executions.length := by omega
      exact .inr rfl

theorem Consistent.loop (h : c.Consistent) (hw : c.workerTask = some .waiting) : c.loop = c := by
  have hnext : (if c.running = true then Processor.waiting else .stopped) = .waiting :=
    if_pos h.running
  rw [CronService.loop, hnext, ← hw]

/-- The `finally` leaves no trace of the task. -/
theorem Consistent.cleanup (h : c.Consistent) (hw : c.workerTask = some (.awaiting i))
    (he : c.executions[i]? = some e) (hended : e.Ended) {w : Processor}
    (hnext : w = .waiting ∨ w = .stopped) :
    Consistent { c.cleanup e.info.taskId with workerTask := some w } := by
  have htable : c.runningTasks = [(e.info.taskId, i)] := by
    have htable := h.table
    rw [hw] at htable
    obtain ⟨d, hd, hrunning⟩ := htable
    rw [he] at hd
    obtain rfl := Option.some.inj hd
    exact hrunning
  obtain ⟨ids, hids, hmem⟩ := h.ids
  have hnodup := h.nodup
  rw [runningIds, htable] at hmem hnodup
  rw [List.map_singleton, List.singleton_append, List.nodup_cons] at hnodup
  have hnone : (c.cleanup e.info.taskId).runningTasks = [] := by
    simp [CronService.cleanup, htable]
  refine ⟨h.running, ⟨ids.erase e.info.taskId, ?_, fun id => ?_⟩, ?_, ?_, fun j d hd => ?_⟩
  · show c.queuedTaskIds.map _ = _
    rw [hids]
    rfl
  · rw [runningIds]
    show _ ↔ id ∈ (c.cleanup e.info.taskId).runningTasks.map Prod.fst ++ c.queueIds
    rw [hnone, List.map_nil, List.nil_append, Finset.mem_erase, hmem, List.map_singleton,
      List.singleton_append, List.mem_cons]
    constructor
    · rintro ⟨hne, hin⟩
      exact hin.resolve_left hne
    · intro hin
      refine ⟨?_, .inr hin⟩
      rintro rfl
      exact hnodup.1 hin
  · show ((c.cleanup e.info.taskId).runningTasks.map Prod.fst ++ c.queueIds).Nodup
    rw [hnone]
    exact hnodup.2
  · rcases hnext with rfl | rfl
    · exact hnone
    · exact hnone
  · rcases h.ended j d hd with hd' | hawait
    · exact .inl hd'
    · rw [hw] at hawait
      obtain rfl : i = j := by simpa using hawait
      replace hd : c.executions[i]? = some d := hd
      rw [he] at hd
      obtain rfl := Option.some.inj hd
      exact .inl hended

theorem Consistent.cleanup_loop (h : c.Consistent) (hw : c.workerTask = some (.awaiting i))
    (he : c.executions[i]? = some e) (hended : e.Ended) :
    ((c.cleanup e.info.taskId).loop).Consistent := by
  have hnext : (if (c.cleanup e.info.taskId).running = true then Processor.waiting else .stopped) =
      .waiting := if_pos h.running
  rw [CronService.loop, hnext]
  exact h.cleanup hw he hended (.inl rfl)

/-- The processor resumes when the task that it awaits has ended. -/
theorem resume_eq_some : c.step .resume = some c' ↔
    ∃ i e outcome, c.workerTask = some (.awaiting i) ∧ c.executions[i]? = some e ∧
      e.progress = .ended outcome ∧ c.resume e outcome = c' := by
  constructor
  · intro hs
    rw [CronService.step] at hs
    split at hs
    · rename_i i hw
      split at hs
      · rename_i e he
        split at hs
        · rename_i outcome hended
          exact ⟨i, e, outcome, hw, he, hended, Option.some.inj hs⟩
        · cases hs
      · cases hs
    · cases hs
  · rintro ⟨i, e, outcome, hw, he, hended, rfl⟩
    simp only [CronService.step, hw, he, hended]

theorem Consistent.step (h : c.Consistent) (hs : c.step a = some c') : c'.Consistent := by
  cases a with
  | start currentLoop =>
      have hsame : c.start currentLoop = c := by rw [CronService.start, if_pos h.running]
      rw [CronService.step, hsame] at hs
      exact Option.some.inj hs ▸ h
  | addTask taskType taskId timestamp =>
      exact Option.some.inj hs ▸ h.addTask taskType taskId timestamp
  | stopTask taskId => exact Option.some.inj hs ▸ h.stopTask taskId
  | get =>
      rw [CronService.step] at hs
      split at hs
      · rename_i info rest hw hqueue
        exact Option.some.inj hs ▸ h.get hw hqueue
      · cases hs
  | timeout =>
      rw [CronService.step] at hs
      split at hs
      · rename_i hw
        rw [h.loop hw] at hs
        exact Option.some.inj hs ▸ h
      · cases hs
  | begin i =>
      rw [CronService.step] at hs
      split at hs
      · rename_i e he
        split_ifs at hs with hcreated
        exact Option.some.inj hs ▸ h.beginExecution he hcreated
      · cases hs
  | finish i outcome =>
      rw [CronService.step] at hs
      split at hs
      · rename_i e he
        split_ifs at hs with hstarted
        exact Option.some.inj hs ▸ h.finishExecution he rfl outcome
      · cases hs
  | resume =>
      obtain ⟨i, e, outcome, hw, he, hended, rfl⟩ := resume_eq_some.mp hs
      cases outcome with
      | success => exact h.cleanup_loop hw he ⟨_, hended⟩
      | failure error => exact h.cleanup_loop hw he ⟨_, hended⟩
      | cancelled => exact h.cleanup hw he ⟨_, hended⟩ (.inr rfl)

theorem consistent_started (taskHandlers : List String) (currentLoop : ℕ) :
    (started taskHandlers currentLoop).Consistent := by
  refine ⟨rfl, ⟨∅, rfl, fun id => ?_⟩, List.nodup_nil, rfl, fun i e he => ?_⟩
  · exact iff_of_false (Finset.notMem_empty id) List.not_mem_nil
  · cases he

/-- `add_task` takes a task with this id into the queue. -/
def Accepts (c : CronService) (taskId : String) : Prop :=
  ∀ taskType timestamp,
    (c.addTask taskType (some taskId) timestamp).1.taskQueue = c.taskQueue ++ [({ taskId, taskType } : TaskInfo)]

/-- The processor goes on, no id is queued or executed twice, and an id whose executions
have ended is accepted again, at the latest when the processor has resumed. -/
structure Sound (c : CronService) : Prop where
  alive : c.workerTask ≠ some .stopped
  queued_once : c.queueIds.Nodup
  runs_once : ∀ (i j : ℕ) (e e' : Execution), c.executions[i]? = some e → c.executions[j]? = some e' →
    e.info.taskId = e'.info.taskId → ¬ e.Ended → ¬ e'.Ended → i = j
  frees : ∀ taskId, (∀ e ∈ c.executions, e.info.taskId = taskId → e.Ended) → taskId ∉ c.queueIds →
    c.Accepts taskId ∨ ∃ c', c.step .resume = some c' ∧ c'.Accepts taskId

/-- A queued task stays in the queue until it gets an execution. -/
def KeepsQueue (c : CronService) (a : Action) : Prop :=
  ∀ c', c.step a = some c' → ∀ info ∈ c.taskQueue,
    info ∈ c'.taskQueue ∨ c'.executions = c.executions ++ [({ info } : Execution)]

/-- The task that the processor resumes from did not end with a `CancelledError`. -/
def ResumesNormally (c : CronService) (a : Action) : Prop :=
  a = .resume → ∀ i e, c.workerTask = some (.awaiting i) → c.executions[i]? = some e →
    e.progress ≠ .ended .cancelled

theorem Consistent.accepts (h : c.Consistent) {taskId : String} (hrunning : taskId ∉ c.runningIds)
    (hqueue : taskId ∉ c.queueIds) : c.Accepts taskId := by
  intro taskType timestamp
  obtain ⟨ids, hids, hmem⟩ := h.ids
  have hnew : taskId ∉ ids := by
    rw [hmem, List.mem_append]
    exact not_or_intro hrunning hqueue
  have hnot : ¬ (c.queuedTaskIds.any fun ids => taskId ∈ ids) = true := by simpa [hids] using hnew
  rw [mem_runningIds] at hrunning
  simp only [CronService.addTask, Option.getD_some, if_neg hrunning, if_neg hnot]

theorem Consistent.frees (h : c.Consistent) {taskId : String}
    (hended : ∀ e ∈ c.executions, e.info.taskId = taskId → e.Ended) (hqueue : taskId ∉ c.queueIds) :
    c.Accepts taskId ∨ ∃ c', c.step .resume = some c' ∧ c'.Accepts taskId := by
  by_cases hrunning : taskId ∈ c.runningIds
  · have htable := h.table
    cases hw : c.workerTask with
    | none =>
        rw [hw] at htable
        exact htable.elim
    | some w =>
        rw [hw] at htable
        cases w with
        | waiting =>
            rw [runningIds, htable] at hrunning
            exact absurd hrunning List.not_mem_nil
        | stopped =>
            rw [runningIds, htable] at hrunning
            exact absurd hrunning List.not_mem_nil
        | awaiting i =>
            obtain ⟨e, he, hrow⟩ := htable
            rw [runningIds, hrow, List.map_singleton, List.mem_singleton] at hrunning
            obtain ⟨outcome, hout⟩ := hended e (List.mem_of_getElem? he) hrunning.symm
            have hs : c.step .resume = some (c.resume e outcome) :=
              resume_eq_some.mpr ⟨i, e, outcome, hw, he, hout, rfl⟩
            have hnone : (c.resume e outcome).runningTasks = [] ∧
                (c.resume e outcome).queueIds = c.queueIds := by
              cases outcome <;> simp [CronService.resume, CronService.loop, CronService.cleanup, hrow,
                queueIds]
            refine .inr ⟨_, hs, (h.step hs).accepts ?_ ?_⟩
            · rw [runningIds, hnone.1]
              exact List.not_mem_nil
            · rw [hnone.2]
              exact hqueue
  · exact .inl (h.accepts hrunning hqueue)

theorem Consistent.sound (h : c.Consistent) (halive : c.workerTask ≠ some .stopped) : c.Sound := by
  refine ⟨halive, (List.nodup_append.mp h.nodup).2.1, fun i j e e' he he' _ hopen hopen' => ?_,
    fun taskId hended hqueue => h.frees hended hqueue⟩
  have hi := (h.ended i e he).resolve_left hopen
  have hj := (h.ended j e' he').resolve_left hopen'
  rw [hi] at hj
  simpa using hj

/-- Between two steps of the processor it stays where it is, and the queue only grows. -/
theorem Consistent.between (h : c.Consistent) (hget : a ≠ .get) (hresume : a ≠ .resume)
    (hs : c.step a = some c') : c'.workerTask = c.workerTask ∧ c.taskQueue ⊆ c'.taskQueue := by
  cases a with
  | start currentLoop =>
      have hsame : c.start currentLoop = c := by rw [CronService.start, if_pos h.running]
      rw [CronService.step, hsame] at hs
      obtain rfl := Option.some.inj hs
      exact ⟨rfl, List.Subset.refl _⟩
  | addTask taskType taskId timestamp =>
      obtain rfl := Option.some.inj hs
      rw [CronService.addTask]
      generalize taskId.getD (taskType ++ "_" ++ timestamp) = id
      split_ifs
      · exact ⟨rfl, List.Subset.refl _⟩
      · exact ⟨rfl, List.Subset.refl _⟩
      · exact ⟨rfl, List.subset_append_left _ _⟩
  | stopTask taskId =>
      obtain rfl := Option.some.inj hs
      rw [CronService.stopTask]
      cases c.runningTasks.lookup taskId with
      | none => exact ⟨rfl, List.Subset.refl _⟩
      | some i => exact ⟨rfl, List.Subset.refl _⟩
  | get => exact absurd rfl hget
  | timeout =>
      rw [CronService.step] at hs
      split at hs
      · rename_i hw
        rw [h.loop hw] at hs
        obtain rfl := Option.some.inj hs
        exact ⟨rfl, List.Subset.refl _⟩
      · cases hs
  | begin i =>
      rw [CronService.step] at hs
      split at hs
      · split_ifs at hs
        obtain rfl := Option.some.inj hs
        rw [CronService.beginExecution]
        dsimp only
        split_ifs
        · exact ⟨rfl, List.Subset.refl _⟩
        · exact ⟨rfl, List.Subset.refl _⟩
        · exact ⟨rfl, List.Subset.refl _⟩
      · cases hs
  | finish i outcome =>
      rw [CronService.step] at hs
      split at hs
      · split_ifs at hs
        obtain rfl := Option.some.inj hs
        exact ⟨rfl, List.Subset.refl _⟩
      · cases hs
  | resume => exact absurd rfl hresume

/-- The processor takes the first task of the queue, which is not running. -/
theorem Consistent.get_step (h : c.Consistent) (hs : c.step .get = some c') :
    ∃ info rest i, c.taskQueue = info :: rest ∧ c'.taskQueue = rest ∧
      c'.executions = c.executions ++ [({ info } : Execution)] ∧
        c'.workerTask = some (.awaiting i) := by
  rw [CronService.step] at hs
  split at hs
  · rename_i info rest hw hqueue
    have hskip : ¬ (({ c with taskQueue := rest } : CronService).runningTasks.lookup
        info.taskId).isSome = true := fun hsome => h.notMem_running hqueue (mem_runningIds.mpr hsome)
    rw [CronService.processTask, if_neg hskip] at hs
    obtain rfl := Option.some.inj hs
    exact ⟨info, rest, _, hqueue, rfl, rfl, rfl⟩
  · cases hs

theorem Consistent.keepsQueue (h : c.Consistent) (a : Action) : c.KeepsQueue a := by
  intro c' hs info hinfo
  by_cases hget : a = .get
  · subst hget
    obtain ⟨first, rest, i, hqueue, hrest, hexecutions, -⟩ := h.get_step hs
    rw [hqueue] at hinfo
    rcases List.mem_cons.mp hinfo with rfl | hinfo
    · exact .inr hexecutions
    · exact .inl (hrest ▸ hinfo)
  by_cases hresume : a = .resume
  · subst hresume
    obtain ⟨i, e, outcome, -, -, -, rfl⟩ := resume_eq_some.mp hs
    cases outcome with
    | success => exact .inl hinfo
    | failure error => exact .inl hinfo
    | cancelled => exact .inl hinfo
  exact .inl ((h.between hget hresume hs).2 hinfo)

/-- Only a resumption from a cancelled task ends the processor. -/
theorem Consistent.alive_step (h : c.Consistent) (halive : c.workerTask ≠ some .stopped)
    (hnormal : c.ResumesNormally a) (hs : c.step a = some c') : c'.workerTask ≠ some .stopped := by
  by_cases hget : a = .get
  · subst hget
    obtain ⟨-, -, i, -, -, -, hw⟩ := h.get_step hs
    rw [hw]
    exact nofun
  by_cases hresume : a = .resume
  · subst hresume
    obtain ⟨i, e, outcome, hw, he, hended, rfl⟩ := resume_eq_some.mp hs
    have hgoes : ((c.cleanup e.info.taskId).loop).workerTask ≠ some .stopped := by
      have hnext : (if (c.cleanup e.info.taskId).running = true then Processor.waiting
          else .stopped) = .waiting := if_pos h.running
      rw [CronService.loop, hnext]
      exact nofun
    cases outcome with
    | success => exact hgoes
    | failure error => exact hgoes
    | cancelled => exact absurd hended (hnormal rfl i e hw he)
  rw [(h.between hget hresume hs).1]
  exact halive

/-- The processor and the queue are as promised in every state of a run exactly when the
processor never resumes from a task that ended with a `CancelledError`. -/
theorem processor_survives_iff (taskHandlers : List String) (currentLoop : ℕ) (as : List Action) :
    PartialRun.Throughout step Sound (started taskHandlers currentLoop) as ∧
        PartialRun.Along step KeepsQueue (started taskHandlers currentLoop) as ↔
      PartialRun.Along step ResumesNormally (started taskHandlers currentLoop) as := by
  have hconsistent : ∀ pre c, PartialRun.exec step (started taskHandlers currentLoop) pre = some c →
      c.Consistent := fun pre c hrun => PartialRun.invariant_of_step (fun _ _ _ h hs => h.step hs)
        (consistent_started taskHandlers currentLoop) hrun
  constructor
  · rintro ⟨hsound, -⟩
    rw [PartialRun.along_iff_split]
    rintro pre a post rfl c hrun rfl i e hw he hcancelled
    have hs : c.step .resume = some (c.resume e .cancelled) :=
      resume_eq_some.mpr ⟨i, e, .cancelled, hw, he, hcancelled, rfl⟩
    have hpre : pre ++ [Action.resume] <+: pre ++ Action.resume :: post :=
      (List.prefix_append_right_inj pre).mpr ⟨post, rfl⟩
    refine (hsound _ hpre (c.resume e .cancelled) ?_).alive rfl
    rw [PartialRun.exec_append, hrun, Option.bind_some, PartialRun.exec_cons, hs]
    rfl
  · intro hnormal
    constructor
    · have halive : PartialRun.Throughout step
          (fun c => c.Consistent ∧ c.workerTask ≠ some .stopped) (started taskHandlers currentLoop) as :=
        PartialRun.throughout_of_along
          (fun c a c' h hnormal hs => ⟨h.1.step hs, h.1.alive_step h.2 hnormal hs⟩)
          ⟨consistent_started taskHandlers currentLoop, nofun⟩ hnormal
      exact fun pre hpre c hrun => (halive pre hpre c hrun).1.sound (halive pre hpre c hrun).2
    · rw [PartialRun.along_iff_split]
      intro pre a post _ c hrun
      exact (hconsistent pre c hrun).keepsQueue a

/-- One task is stopped while it runs, and one waits. -/
def stoppedWhileRunning : List Action :=
  [.addTask "scan" (some "a") "", .addTask "scan" (some "b") "", .get, .begin 0, .stopTask "a",
    .finish 0 .cancelled, .resume]

/-- The processor is gone, and the second task stays in the queue for good. -/
theorem stop_task_ends_processor :
    ∃ c, PartialRun.exec step (started ["scan"] 0) stoppedWhileRunning = some c ∧
      c.running = true ∧ c.workerTask = some .stopped ∧ c.queueIds = ["b"] ∧
      ¬ PartialRun.Throughout step Sound (started ["scan"] 0) stoppedWhileRunning := by
  have hrun : (PartialRun.exec step (started ["scan"] 0) stoppedWhileRunning).map
      (fun c => (c.running, c.workerTask, c.queueIds)) = some (true, some .stopped, ["b"]) := by
    decide +kernel
  obtain ⟨c, hc, hout⟩ := Option.map_eq_some_iff.mp hrun
  obtain ⟨hrunning, hout⟩ := Prod.mk.inj hout
  obtain ⟨hstopped, hqueue⟩ := Prod.mk.inj hout
  refine ⟨c, hc, hrunning, hstopped, hqueue, fun hsound => ?_⟩
  exact (hsound _ List.prefix_rfl c hc).alive hstopped

end CronService

end SmartMedia.Cron
