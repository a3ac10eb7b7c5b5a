import SmartMedia.Workflow.CloudWorkflow

/-!
# Runs of cloud workflow tasks

Every task accounts for the renames that its runner has started, whatever happens between two
waits; a cancellation starts none; and a runner keeps its task in the table as long as the
clock is not set back behind too many others.
-/
namespace SmartMedia.Workflow

section Runners
variable {task : Task} {started : List Operation} {runner : Runner} {wake : Wake} {after : Next}
  {report : Report} {operation : Operation} {rest before plan : List Operation} {id : ℕ} {now : ℤ}

/-- What a task and its runner agree on does not change with the number and the time. -/
theorem Task.Agrees.stamp {r : Option Runner} (h : task.Agrees started r) :
    ({ task with id, updatedAt := now } : Task).Agrees started r := by
  cases r with
  | none => exact ⟨h.finished, h.planned, h.completed, h.unreported⟩
  | some runner => exact ⟨h.status, h.autoExecute, h.execute, h.waiting⟩

theorem Report.Covers.record (h : report.Covers plan before) (result : RenameResult) :
    (report.record operation.fid result).Covers plan (before ++ [operation]) := by
  have hresults : (report.results ++ [(operation.fid, result)]).map (·.1) =
      (before ++ [operation]).map (·.fid) := by
    rw [List.map_append, List.map_append, h.results]
    rfl
  have hcounts := h.counts
  have hlength : (before ++ [operation]).length = before.length + 1 := List.length_append
  unfold Report.record
  dsimp only
  split
  · split
    · refine ⟨h.total, hresults, ?_⟩
      dsimp only
      omega
    · refine ⟨h.total, hresults, ?_⟩
      dsimp only
      omega
  · refine ⟨h.total, hresults, ?_⟩
    dsimp only
    omega

/-- A task that its runner leaves behind after an error or a cancellation. -/
theorem Task.Runs.abandon {status : Status} (h : task.Runs started runner)
    (hplanned : started <+: task.plan) (hfinished : status.finished = true)
    (hstatus : status ≠ .completed) (error : Option String) {stage : Stage} {message : String} :
    ({ task with status, stage, message, error } : Task).Finished started :=
  ⟨hfinished, hplanned, fun hcompleted => absurd hcompleted hstatus, fun _ => h.execute⟩

/-- What a runner has started is always the beginning of its plan. -/
theorem Task.Runs.planned (h : task.Runs started runner) : started <+: task.plan := by
  have hwaiting := h.waiting
  unfold Waiting.Agrees at hwaiting
  split at hwaiting
  · rw [hwaiting.2]
    exact List.nil_prefix
  · rw [hwaiting.2]
    exact List.nil_prefix
  · obtain ⟨-, before, rfl, hplan, -⟩ := hwaiting
    exact ⟨_, by rw [hplan, List.append_assoc, List.singleton_append]⟩
  · exact ⟨_, hwaiting.2.1.symm⟩
  · exact ⟨[], by rw [List.append_nil, hwaiting.2.1]⟩
  · exact hwaiting

/-- While it works on its plan, a runner that is not cancelled is shown as running. -/
theorem Runner.status_waiting (hcancelled : runner.cancelled = false) {waiting : Waiting}
    (hstart : waiting ≠ .start) (hclose : waiting ≠ .close none) :
    ({ runner with waiting } : Runner).status = .running := by
  unfold Runner.status
  dsimp only
  rw [hcancelled, if_neg Bool.false_ne_true]
  split
  · contradiction
  · contradiction
  · rfl

/-- What holds after the steps of a runner. -/
def Next.Agrees (task : Task) (started : List Operation) : Next → Prop
  | .waits runner change rename =>
      (change.elim task (· task)).Runs (started ++ rename.toList) runner
  | .ends change => (change task).Finished started
  | .vanishes => task.Finished started

theorem Next.agrees_waits (h : task.Runs started runner) :
    (Next.waits runner none none).Agrees task started := by
  change task.Runs (started ++ []) runner
  rw [List.append_nil]
  exact h

theorem agrees_previewed {preview : Preview} (hstatus : task.status = .running)
    (hauto : task.autoExecute = runner.autoExecute) (hnone : task.execute = none)
    (hcancelled : runner.cancelled = false) :
    (runner.previewed id preview).Agrees task [] := by
  unfold Runner.previewed
  split
  · rename_i hmanual
    refine ⟨rfl, List.nil_prefix, fun _ => ?_, fun h => absurd rfl h⟩
    have hmanual' : task.autoExecute = false := hauto.trans hmanual
    change if task.autoExecute = true then _ else _
    rw [hmanual', if_neg Bool.false_ne_true]
    exact ⟨rfl, hnone⟩
  · rename_i hauto'
    have hexecutes : task.autoExecute = true := hauto.trans (Bool.eq_true_of_not_eq_false hauto')
    cases hoperations : preview.operations with
    | nil =>
        refine ⟨rfl, List.nil_prefix, fun _ => ?_, fun h => absurd rfl h⟩
        change if task.autoExecute = true then [] = preview.operations ∧ _ else _
        rw [if_pos hexecutes, hoperations]
        refine ⟨rfl, _, rfl, ?_, rfl, rfl⟩
        change 0 = preview.operations.length
        rw [hoperations]
        rfl
    | cons operation rest =>
        refine ⟨?_, hauto, hnone, hexecutes, [], rfl, hoperations, ?_, rfl, rfl⟩
        · rw [Runner.status_waiting hcancelled Waiting.noConfusion Waiting.noConfusion]
          exact hstatus
        · change rest.length + 1 = preview.operations.length
          rw [hoperations]
          rfl

/-- After a rename the runner is one operation further. -/
theorem agrees_renamed (h : task.Runs (before ++ [operation]) runner)
    (hauto : task.autoExecute = true) (hcancelled : runner.cancelled = false)
    (hstatus : task.status = .running) (hplan : task.plan = before ++ operation :: rest)
    (hcovers : report.Covers task.plan (before ++ [operation])) :
    (runner.renamed report rest).Agrees task (before ++ [operation]) := by
  have hplan' : task.plan = before ++ [operation] ++ rest := by
    rw [hplan, List.append_assoc, List.singleton_append]
  cases rest with
  | nil =>
      rw [List.append_nil] at hplan'
      refine Next.agrees_waits ⟨?_, h.autoExecute, h.execute, hauto, hplan', hcovers⟩
      rw [hstatus]
      exact (Runner.status_waiting hcancelled Waiting.noConfusion (fun h => by cases h)).symm
  | cons next rest =>
      by_cases hbatch : report.results.length % 10 = 0
      · rw [Runner.renamed, if_pos hbatch]
        refine Next.agrees_waits ⟨?_, h.autoExecute, h.execute, hauto, hplan', hcovers⟩
        rw [hstatus]
        exact (Runner.status_waiting hcancelled Waiting.noConfusion Waiting.noConfusion).symm
      · rw [Runner.renamed, if_neg hbatch]
        refine ⟨?_, h.autoExecute, h.execute, hauto, before ++ [operation], rfl, hplan', hcovers⟩
        exact hstatus.trans
          (Runner.status_waiting hcancelled Waiting.noConfusion Waiting.noConfusion).symm

/-- A runner that is at work is shown as running. -/
theorem Task.Runs.running (h : task.Runs started runner) (hcancelled : runner.cancelled = false)
    (hstart : runner.waiting ≠ .start) (hclose : runner.waiting ≠ .close none) :
    task.status = .running :=
  h.status.trans (Runner.status_waiting hcancelled hstart hclose)

/-- A task and its runner agree again after the steps of the runner. -/
theorem Task.Runs.next (h : task.Runs started runner) (hnext : runner.next id wake = some after) :
    after.Agrees task started := by
  have hplanned := h.planned
  have hwaiting := h.waiting
  unfold Runner.next at hnext
  split at hnext
  · rename_i hw hc
    cases hnext
    rw [hw] at hwaiting
    change Task.Runs _ (started ++ []) _
    rw [List.append_nil]
    refine ⟨?_, h.autoExecute, h.execute, hwaiting⟩
    exact (Runner.status_waiting hc Waiting.noConfusion Waiting.noConfusion).symm
  · rename_i hw hc
    cases hnext
    have hstatus : task.status = .cancelled := by
      rw [h.status, Runner.status, if_pos hc]
    refine ⟨?_, hplanned, fun hcompleted => ?_, fun _ => h.execute⟩
    · rw [hstatus]
      rfl
    · rw [hstatus] at hcompleted
      cases hcompleted
  · rename_i preview hw hc
    cases hnext
    have hstatus := h.running hc (fun hs => by cases hw.symm.trans hs) fun hs => by cases hw.symm.trans hs
    rw [hw] at hwaiting
    rw [hwaiting.2]
    exact agrees_previewed hstatus h.autoExecute h.execute hc
  · cases hnext
    exact h.abandon hplanned rfl Status.noConfusion _
  · cases hnext
    exact h.abandon hplanned rfl Status.noConfusion task.error
  · rename_i report operation rest result hw hc
    cases hnext
    have hstatus := h.running hc (fun hs => by cases hw.symm.trans hs) fun hs => by cases hw.symm.trans hs
    rw [hw] at hwaiting
    obtain ⟨hauto, before, rfl, hplan, hcovers⟩ := hwaiting
    exact agrees_renamed h hauto hc hstatus hplan (hcovers.record result)
  · rename_i hw hc
    cases hnext
    refine Next.agrees_waits ⟨?_, h.autoExecute, h.execute, hplanned⟩
    rw [h.status, Runner.status, if_pos hc]
    rfl
  · rename_i hw hc
    cases hnext
    refine Next.agrees_waits ⟨?_, h.autoExecute, h.execute, hplanned⟩
    rw [h.status, Runner.status, if_pos hc]
    rfl
  · rename_i report operation rest hw hc
    cases hnext
    have hstatus := h.running hc (fun hs => by cases hw.symm.trans hs) fun hs => by cases hw.symm.trans hs
    rw [hw] at hwaiting
    refine ⟨?_, h.autoExecute, h.execute, hwaiting.1, started, rfl, hwaiting.2.1, hwaiting.2.2⟩
    exact hstatus.trans
      (Runner.status_waiting hc Waiting.noConfusion Waiting.noConfusion).symm
  · rename_i report hw hc
    cases hnext
    rw [hw] at hwaiting
    refine ⟨rfl, hplanned, fun _ => ?_, fun h => absurd rfl h⟩
    change if task.autoExecute = true then _ else _
    rw [if_pos hwaiting.1]
    exact ⟨hwaiting.2.1.symm, report, rfl, hwaiting.2.2⟩
  · cases hnext
    exact h.abandon hplanned rfl Status.noConfusion task.error
  · cases hnext
    exact h.abandon hplanned rfl Status.noConfusion task.error
  · cases hnext
    exact h.abandon hplanned rfl Status.noConfusion _
  · cases hnext

/-- A cancellation is shown at once, and is met by the runner later. -/
theorem Task.Runs.cancel (h : task.Runs started runner)
    (message : String) :
    ({ task with status := .cancelled, stage := .cancelled, message } : Task).Runs started
      { runner with cancelled := true } :=
  ⟨rfl, h.autoExecute, h.execute, h.waiting⟩

/-- A runner that has been cancelled, or has met its cancellation. -/
def Runner.Stopped (runner : Runner) : Prop := runner.cancelled = true ∨ runner.waiting = .close none

/-- All that is left to a runner that has been cancelled: it starts nothing. -/
theorem Runner.Stopped.next (h : runner.Stopped) (hnext : runner.next id wake = some after) :
    after = .vanishes ∨ (∃ change, after = .ends change ∧
        (change = cancelTask ∨ ∃ error, change = failTask error)) ∨
      ∃ runner' : Runner, after = .waits runner' none none ∧ runner'.Stopped := by
  have hnot : runner.cancelled = false → runner.waiting ≠ .close none → False := by
    intro hc hw
    rcases h with h | h
    · cases hc.symm.trans h
    · exact hw h
  unfold Runner.next at hnext
  split at hnext
  · rename_i hw hc
    exact (hnot hc fun hs => by cases hw.symm.trans hs).elim
  · cases hnext
    exact .inl rfl
  · rename_i hw hc
    exact (hnot hc fun hs => by cases hw.symm.trans hs).elim
  · cases hnext
    exact .inr (.inl ⟨_, rfl, .inr ⟨_, rfl⟩⟩)
  · cases hnext
    exact .inr (.inl ⟨_, rfl, .inl rfl⟩)
  · rename_i hw hc
    exact (hnot hc fun hs => by cases hw.symm.trans hs).elim
  · cases hnext
    exact .inr (.inr ⟨_, rfl, .inr rfl⟩)
  · cases hnext
    exact .inr (.inr ⟨_, rfl, .inr rfl⟩)
  · rename_i hw hc
    exact (hnot hc fun hs => by cases hw.symm.trans hs).elim
  · rename_i hw hc
    exact (hnot hc fun hs => by cases hw.symm.trans hs).elim
  · cases hnext
    exact .inr (.inl ⟨_, rfl, .inl rfl⟩)
  · cases hnext
    exact .inr (.inl ⟨_, rfl, .inl rfl⟩)
  · cases hnext
    exact .inr (.inl ⟨_, rfl, .inr ⟨_, rfl⟩⟩)
  · cases hnext

end Runners

namespace Workflows
section Steps
variable {s s' : Workflows} {e : WorkflowEvent} {id : ℕ} {now : ℤ} {task : Task}
  {change : Task → Task} {tasks : List Task} {handles : List ℕ}

theorem Task.changed_id (task : Task) : (task.changed id now change).id = task.id := by
  rw [Task.changed]
  split_ifs <;> rfl

theorem mem_of_mem_prune (h : task ∈ pruneWorkflowTasks tasks handles) : task ∈ tasks := by
  rw [pruneWorkflowTasks] at h
  split_ifs at h
  · exact h
  · exact List.mem_of_mem_filter h

theorem nodup_prune (h : (tasks.map (·.id)).Nodup) :
    ((pruneWorkflowTasks tasks handles).map (·.id)).Nodup := by
  rw [pruneWorkflowTasks]
  split_ifs
  · exact h
  · exact (List.filter_sublist.map _).nodup h

/-- Tasks with a handle are never removed. -/
theorem mem_prune_of_handle (h : task ∈ tasks) (hhandle : task.id ∈ handles) :
    task ∈ pruneWorkflowTasks tasks handles := by
  rw [pruneWorkflowTasks]
  split_ifs
  · exact h
  · refine List.mem_filter.mpr ⟨h, ?_⟩
    rw [Bool.or_eq_true]
    exact .inr (List.contains_iff_mem.mpr hhandle)

theorem map_changed_id : (tasks.map (Task.changed id now change)).map (·.id) = tasks.map (·.id) := by
  rw [List.map_map]
  exact List.map_congr_left fun task _ => Task.changed_id task

/-- The table, the numbers and the handles fit, and every task agrees with its runner. -/
structure Consistent (s : Workflows) : Prop where
  ids : (s.tasks.map (·.id)).Nodup
  old : ∀ task ∈ s.tasks, task.id < s.nextId
  known : ∀ id runner, s.runners id = some runner → id ∈ s.handles
  handles : ∀ id ∈ s.handles, id < s.nextId
  issued : ∀ rename ∈ s.renames, rename.1 < s.nextId
  agrees : ∀ task ∈ s.tasks, task.Agrees (s.renamesOf task.id) (s.runners task.id)

theorem renamesOf_eq_nil (h : ∀ rename ∈ s.renames, rename.1 < id) : s.renamesOf id = [] := by
  have hfilter : s.renames.filter (·.1 = id) = [] :=
    List.filter_eq_nil_iff.mpr fun rename hrename hid =>
      (h rename hrename).ne (of_decide_eq_true hid)
  rw [renamesOf, hfilter]
  rfl

/-- A new task. -/
theorem Consistent.create (h : s.Consistent) {autoExecute : Bool}
    (hstep : s.step (.create autoExecute now) = some s') : s'.Consistent := by
  cases hstep
  refine ⟨nodup_prune ?_, fun task htask => ?_, fun id runner hrunner => ?_, fun id hid => ?_,
    fun rename hrename => Nat.lt_succ_of_lt (h.issued rename hrename), fun task htask => ?_⟩
  · rw [List.map_append, List.map_singleton]
    refine List.nodup_append.mpr ⟨h.ids, List.nodup_singleton _, fun id hid other hother => ?_⟩
    obtain ⟨task, htask, rfl⟩ := List.mem_map.mp hid
    rw [List.mem_singleton.mp hother]
    exact (h.old task htask).ne
  · rcases List.mem_append.mp (mem_of_mem_prune htask) with htask | htask
    · exact Nat.lt_succ_of_lt (h.old task htask)
    · rw [List.mem_singleton.mp htask]
      exact Nat.lt_succ_self _
  · by_cases hid : id = s.nextId
    · rw [hid]
      exact List.mem_append_right _ List.mem_cons_self
    · dsimp only at hrunner
      rw [Function.update_of_ne hid] at hrunner
      exact List.mem_append_left _ (h.known id runner hrunner)
  · rcases List.mem_append.mp hid with hid | hid
    · exact Nat.lt_succ_of_lt (h.handles id hid)
    · rw [List.mem_singleton.mp hid]
      exact Nat.lt_succ_self _
  · rcases List.mem_append.mp (mem_of_mem_prune htask) with htask | htask
    · dsimp only
      rw [Function.update_of_ne (h.old task htask).ne]
      exact h.agrees task htask
    · rw [List.mem_singleton.mp htask]
      dsimp only [baseWorkflowTask]
      rw [Function.update_self]
      exact ⟨rfl, rfl, rfl, rfl, renamesOf_eq_nil h.issued⟩

/-- The tasks agree with the runners again when one of them moves. -/
theorem agrees_changed {runners : ℕ → Option Runner} {runner : Option Runner}
    {started : ℕ → List Operation}
    (hothers : ∀ task ∈ tasks, task.id ≠ id → task.Agrees (started task.id) (runners task.id))
    (hown : ∀ task ∈ tasks, task.id = id → (change task).Agrees (started id) runner) :
    ∀ task ∈ tasks.map (Task.changed id now change),
      task.Agrees (started task.id) (Function.update runners id runner task.id) := by
  intro task' htask'
  obtain ⟨task, htask, rfl⟩ := List.mem_map.mp htask'
  rw [Task.changed_id, Task.changed]
  by_cases hid : task.id = id
  · rw [if_pos hid, hid, Function.update_self]
    exact (hown task htask hid).stamp
  · rw [if_neg hid, Function.update_of_ne hid]
    exact hothers task htask hid

theorem agrees_unchanged {runners : ℕ → Option Runner} {runner : Option Runner}
    {started : ℕ → List Operation}
    (hothers : ∀ task ∈ tasks, task.id ≠ id → task.Agrees (started task.id) (runners task.id))
    (hown : ∀ task ∈ tasks, task.id = id → task.Agrees (started id) runner) :
    ∀ task ∈ tasks, task.Agrees (started task.id) (Function.update runners id runner task.id) := by
  intro task htask
  by_cases hid : task.id = id
  · rw [hid, Function.update_self]
    exact hown task htask hid
  · rw [Function.update_of_ne hid]
    exact hothers task htask hid

theorem Consistent.runs (h : s.Consistent) {runner : Runner} (hrunner : s.runners id = some runner)
    (htask : task ∈ s.tasks) (hid : task.id = id) : task.Runs (s.renamesOf id) runner := by
  have hagrees := h.agrees task htask
  rw [hid, hrunner] at hagrees
  exact hagrees

theorem filter_rename (rename : Option Operation) (id other : ℕ) :
    (((rename.map (id, ·)).toList.filter (·.1 = other)).map (·.2)) =
      if other = id then rename.toList else [] := by
  cases rename with
  | none => exact (ite_self _).symm
  | some operation =>
      by_cases hid : other = id
      · simp [hid]
      · simp [hid, Ne.symm hid]

theorem renamesOf_waits {runner : Runner} {change : Option (Task → Task)} (rename : Option Operation)
    (other : ℕ) : (s.apply id now (.waits runner change rename)).renamesOf other =
      s.renamesOf other ++ if other = id then rename.toList else [] := by
  have hrenames : (s.apply id now (.waits runner change rename)).renames =
      s.renames ++ (rename.map (id, ·)).toList := by
    cases change <;> rfl
  rw [renamesOf, hrenames, List.filter_append, List.map_append, filter_rename]
  rfl

/-- A runner goes on. -/
theorem Consistent.waits (h : s.Consistent) {runner runner' : Runner} {change : Option (Task → Task)}
    {rename : Option Operation} (hrunner : s.runners id = some runner)
    (hnext : ∀ task ∈ s.tasks, task.id = id →
      (Next.waits runner' change rename).Agrees task (s.renamesOf id)) :
    (s.apply id now (.waits runner' change rename)).Consistent := by
  have hknown := h.known id runner hrunner
  have hrenames : ∀ other, (s.apply id now (.waits runner' change rename)).renamesOf other = _ :=
    renamesOf_waits rename
  have hothers : ∀ task ∈ s.tasks, task.id ≠ id → task.Agrees
      ((s.apply id now (.waits runner' change rename)).renamesOf task.id) (s.runners task.id) := by
    intro task htask hid
    rw [hrenames, if_neg hid, List.append_nil]
    exact h.agrees task htask
  have hissued : ∀ r ∈ s.renames ++ (rename.map (id, ·)).toList, r.1 < s.nextId := by
    intro r hr
    rcases List.mem_append.mp hr with hr | hr
    · exact h.issued r hr
    · obtain ⟨operation, -, rfl⟩ := Option.map_eq_some_iff.mp (Option.mem_toList.mp hr)
      exact h.handles id hknown
  have hrunners : ∀ other r, Function.update s.runners id (some runner') other = some r →
      other ∈ s.handles := by
    intro other r hother
    by_cases hid : other = id
    · rw [hid]
      exact hknown
    · rw [Function.update_of_ne hid] at hother
      exact h.known other r hother
  have hown : ∀ task ∈ s.tasks, task.id = id → (change.elim task (· task)).Agrees
      ((s.apply id now (.waits runner' change rename)).renamesOf id) (some runner') := by
    intro task htask hid
    rw [hrenames, if_pos rfl]
    exact hnext task htask hid
  cases change with
  | none => exact ⟨h.ids, h.old, hrunners, h.handles, hissued, agrees_unchanged hothers hown⟩
  | some change =>
      refine ⟨?_, fun task htask => ?_, hrunners, h.handles, hissued, agrees_changed hothers hown⟩
      · exact map_changed_id.symm ▸ h.ids
      · obtain ⟨old, hold, rfl⟩ := List.mem_map.mp htask
        rw [Task.changed_id]
        exact h.old old hold

/-- A runner ends. -/
theorem Consistent.ends (h : s.Consistent)
    (hnext : ∀ task ∈ s.tasks, task.id = id → (change task).Finished (s.renamesOf id)) :
    (s.apply id now (.ends change)).Consistent := by
  refine ⟨?_, fun task htask => ?_, fun other r hother => ?_,
    fun other hother => h.handles other (List.mem_of_mem_filter hother), h.issued,
    agrees_changed (fun task htask _ => h.agrees task htask) hnext⟩
  · exact map_changed_id.symm ▸ h.ids
  · obtain ⟨old, hold, rfl⟩ := List.mem_map.mp htask
    rw [Task.changed_id]
    exact h.old old hold
  · have hid : other ≠ id := by
      rintro rfl
      have hnone : Function.update s.runners other none other = none := Function.update_self ..
      cases hnone.symm.trans hother
    have hother' : Function.update s.runners id none other = some r := hother
    rw [Function.update_of_ne hid] at hother'
    exact List.mem_filter.mpr ⟨h.known other r hother', decide_eq_true hid⟩

theorem Consistent.vanishes (h : s.Consistent)
    (hnext : ∀ task ∈ s.tasks, task.id = id → task.Finished (s.renamesOf id)) :
    (s.apply id now .vanishes).Consistent := by
  refine ⟨h.ids, h.old, fun other r hother => ?_, h.handles, h.issued,
    agrees_unchanged (fun task htask _ => h.agrees task htask) hnext⟩
  have hid : other ≠ id := by
    rintro rfl
    have hnone : Function.update s.runners other none other = none := Function.update_self ..
    cases hnone.symm.trans hother
  have hother' : Function.update s.runners id none other = some r := hother
  rw [Function.update_of_ne hid] at hother'
  exact h.known other r hother'

theorem Consistent.wake (h : s.Consistent) {wake : Wake} (hstep : s.step (.wake id wake now) = some s') :
    s'.Consistent := by
  obtain ⟨runner, hrunner, hstep⟩ := Option.bind_eq_some_iff.mp hstep
  obtain ⟨next, hnext, hstep⟩ := Option.bind_eq_some_iff.mp hstep
  cases hstep
  have hagrees : ∀ task ∈ s.tasks, task.id = id → next.Agrees task (s.renamesOf id) :=
    fun task htask hid => (h.runs hrunner htask hid).next hnext
  cases next with
  | waits runner' change rename => exact h.waits hrunner hagrees
  | ends change => exact h.ends hagrees
  | vanishes => exact h.vanishes hagrees

/-- What a request to cancel does: nothing to a task that is over, and to no other task. -/
theorem cancel_cases (hstep : s.step (.cancel id now) = some s') :
    s' = s ∧ (∀ task, s.tasks.find? (·.id = id) = some task → task.status.finished = true) ∨
    ∃ task, s.tasks.find? (·.id = id) = some task ∧ task.status.finished = false ∧
      ∃ runner, s' = (s.update id now fun task =>
        { task with status := .cancelled, stage := .cancelled, message := "cancel requested" }).setRunner
          id runner ∧
        (id ∈ s.handles → runner = (s.runners id).map fun runner => { runner with cancelled := true }) ∧
        (id ∉ s.handles → runner = s.runners id) := by
  rw [step] at hstep
  split at hstep
  · cases hstep
    rename_i hnone
    refine .inl ⟨rfl, fun task htask => ?_⟩
    cases hnone.symm.trans htask
  · rename_i task htask
    split at hstep
    · cases hstep
      rename_i hfinished
      refine .inl ⟨rfl, fun other hother => ?_⟩
      rw [← Option.some.inj (htask.symm.trans hother)]
      exact hfinished
    · rename_i hopen
      refine .inr ⟨task, htask, Bool.eq_false_of_not_eq_true hopen, ?_⟩
      dsimp only at hstep
      split at hstep
      · rename_i hhandle
        cases hstep
        have hmem : id ∈ s.handles := List.contains_iff_mem.mp hhandle
        exact ⟨_, rfl, fun _ => rfl, fun hnot => absurd hmem hnot⟩
      · rename_i hhandle
        cases hstep
        have hmem : id ∉ s.handles := fun hmem => hhandle (List.contains_iff_mem.mpr hmem)
        refine ⟨s.runners id, ?_, fun hnot => absurd hnot hmem, fun _ => rfl⟩
        rw [setRunner]
        change _ = ({ s.update id now _ with runners := Function.update s.runners id (s.runners id) } : Workflows)
        rw [Function.update_eq_self]
        rfl

theorem Consistent.cancel (h : s.Consistent) (hstep : s.step (.cancel id now) = some s') :
    s'.Consistent := by
  rcases cancel_cases hstep with ⟨rfl, -⟩ | ⟨task, hfind, hopen, runner, rfl, hhandle, -⟩
  · exact h
  · have htask : task ∈ s.tasks := List.mem_of_find?_eq_some hfind
    have hid : task.id = id := by simpa using List.find?_some hfind
    -- a task that is not over has a runner, and so a handle
    cases hrunner : s.runners id with
    | none =>
        have hagrees := h.agrees task htask
        rw [hid, hrunner] at hagrees
        have hfinished := hagrees.finished
        rw [hopen] at hfinished
        cases hfinished
    | some running =>
        have hknown := h.known id running hrunner
        have hrunner' := hhandle hknown
        rw [hrunner] at hrunner'
        subst hrunner'
        refine ⟨?_, fun task htask => ?_, fun other r hother => ?_, h.handles, h.issued,
          agrees_changed (fun task htask _ => h.agrees task htask) fun task htask hid => ?_⟩
        · exact map_changed_id.symm ▸ h.ids
        · obtain ⟨old, hold, rfl⟩ := List.mem_map.mp htask
          rw [Task.changed_id]
          exact h.old old hold
        · by_cases hsame : other = id
          · rw [hsame]
            exact hknown
          · have hother' : Function.update s.runners id _ other = some r := hother
            rw [Function.update_of_ne hsame] at hother'
            exact h.known other r hother'
        · exact (h.runs hrunner htask hid).cancel _

theorem Consistent.step (h : s.Consistent) (hstep : s.step e = some s') : s'.Consistent := by
  cases e with
  | create autoExecute now => exact h.create hstep
  | cancel id now => exact h.cancel hstep
  | wake id wake now => exact h.wake hstep

theorem consistent_of_exec {events : List WorkflowEvent}
    (hrun : PartialRun.exec step {} events = some s) : s.Consistent := by
  refine PartialRun.invariant_of_step (fun _ _ _ h hstep => h.step hstep) ?_ hrun
  exact ⟨List.nodup_nil, List.forall_mem_nil _, fun _ _ h => (Option.some_ne_none _ h.symm).elim,
    List.forall_mem_nil _, List.forall_mem_nil _, List.forall_mem_nil _⟩

/-- Every task accounts for the renames that were started for it: they are the beginning of its
plan, each of them once and in its order; a task that was completed has made all of them and
reports on each, or was only to show its preview. No task stays open without a runner. -/
theorem renames_accounted (events : List WorkflowEvent) (s : Workflows)
    (hrun : PartialRun.exec step {} events = some s) (task : Task) (htask : task ∈ s.tasks) :
    s.renamesOf task.id <+: task.plan ∧
      (task.status = .completed →
        if task.autoExecute then
          s.renamesOf task.id = task.plan ∧
            ∃ report, task.execute = some report ∧ report.Covers task.plan task.plan
        else s.renamesOf task.id = [] ∧ task.execute = none) ∧
      (task.status ≠ .completed → task.execute = none) ∧
      (task.status.finished = false → s.runners task.id ≠ none) := by
  have hagrees := (consistent_of_exec hrun).agrees task htask
  cases hrunner : s.runners task.id with
  | none =>
      rw [hrunner] at hagrees
      have hover : task.Finished (s.renamesOf task.id) := hagrees
      refine ⟨hover.planned, fun hcompleted => ?_, hover.unreported, fun hopen => ?_⟩
      · have hfacts := hover.completed hcompleted
        split_ifs at hfacts ⊢
        · obtain ⟨hall, report, hreport, hcovers⟩ := hfacts
          rw [hall] at hcovers
          exact ⟨hall, report, hreport, hcovers⟩
        · exact hfacts
      · have hfinished := hover.finished
        rw [hopen] at hfinished
        cases hfinished
  | some runner =>
      rw [hrunner] at hagrees
      have hruns : task.Runs (s.renamesOf task.id) runner := hagrees
      refine ⟨hruns.planned, fun hcompleted => ?_, fun _ => hruns.execute, fun _ => Option.some_ne_none _⟩
      have hstatus := hruns.status.symm.trans hcompleted
      unfold Runner.status at hstatus
      split at hstatus
      · cases hstatus
      · split at hstatus <;> cases hstatus

def samplePreview : Preview where
  batchId := ['b']
  totalItems := 3
  items := [⟨['1'], ['x']⟩, ⟨['2'], []⟩, ⟨['3'], ['z']⟩]

/-- A task up to its first rename, and the rest of it. -/
def sampleBegin : List WorkflowEvent :=
  [.create true 1, .wake 0 .started 2, .wake 0 (.previewed samplePreview) 3]

def sampleEnd : List WorkflowEvent :=
  [.wake 0 (.renamed (.renamed "success")) 4, .wake 0 (.renamed (.failed "HTTP 500")) 5,
    .wake 0 .closed 6]

theorem sample_accounted : ∃ s task, PartialRun.exec step {} (sampleBegin ++ sampleEnd) = some s ∧
    task ∈ s.tasks ∧ task.status = .completed ∧ s.renamesOf task.id <+: task.plan ∧
      (task.status = .completed →
        if task.autoExecute then
          s.renamesOf task.id = task.plan ∧
            ∃ report, task.execute = some report ∧ report.Covers task.plan task.plan
        else s.renamesOf task.id = [] ∧ task.execute = none) ∧
      (task.status ≠ .completed → task.execute = none) ∧
      (task.status.finished = false → s.runners task.id ≠ none) :=
  ⟨_, _, rfl, List.mem_cons_self, rfl,
    renames_accounted (sampleBegin ++ sampleEnd) _ rfl _ List.mem_cons_self⟩

/-- A cancelled task: what it has started, and what can become of it. -/
structure Stopped (id : ℕ) (started : List Operation) (s : Workflows) : Prop where
  started : s.renamesOf id = started
  known : id < s.nextId
  runner : ∀ runner, s.runners id = some runner → runner.Stopped
  tasks : ∀ task ∈ s.tasks, task.id = id →
    (task.status = .cancelled ∨ task.status = .failed) ∧ task.execute = none

/-- The other tasks are not touched by an update. -/
theorem mem_changed_of_ne {other : ℕ} (h : task ∈ tasks.map (Task.changed other now change))
    (hother : task.id ≠ other) : task ∈ tasks := by
  obtain ⟨old, hold, rfl⟩ := List.mem_map.mp h
  rw [Task.changed_id] at hother
  rw [Task.changed, if_neg hother]
  exact hold

theorem Stopped.wake {started : List Operation} {other : ℕ} {wake : Wake} (h : Stopped id started s)
    (hstep : s.step (.wake other wake now) = some s') : Stopped id started s' := by
  obtain ⟨runner, hrunner, hstep⟩ := Option.bind_eq_some_iff.mp hstep
  obtain ⟨after, hnext, hstep⟩ := Option.bind_eq_some_iff.mp hstep
  cases hstep
  by_cases hid : id = other
  · subst hid
    rcases (h.runner runner hrunner).next hnext with rfl | ⟨change, rfl, hchange⟩ |
      ⟨runner', rfl, hstopped⟩
    · refine ⟨h.started, h.known, fun r hr => ?_, h.tasks⟩
      have hnone : Function.update s.runners id none id = none := Function.update_self ..
      cases hnone.symm.trans hr
    · refine ⟨h.started, h.known, fun r hr => ?_, fun task htask hid => ?_⟩
      · have hnone : Function.update s.runners id none id = none := Function.update_self ..
        cases hnone.symm.trans hr
      · obtain ⟨old, hold, rfl⟩ := List.mem_map.mp htask
        rw [Task.changed_id] at hid
        have hexecute := (h.tasks old hold hid).2
        rw [Task.changed, if_pos hid]
        rcases hchange with rfl | ⟨error, rfl⟩
        · exact ⟨.inl rfl, hexecute⟩
        · exact ⟨.inr rfl, hexecute⟩
    · refine ⟨?_, h.known, fun r hr => ?_, h.tasks⟩
      · rw [renamesOf_waits, if_pos rfl]
        exact (List.append_nil _).trans h.started
      · have hsome : Function.update s.runners id (some runner') id = some runner' :=
          Function.update_self ..
        rw [← Option.some.inj (hsome.symm.trans hr)]
        exact hstopped
  · have hrunners : ∀ (r : Option Runner) runner, Function.update s.runners other r id = some runner →
        runner.Stopped := by
      intro r runner hr
      rw [Function.update_of_ne hid] at hr
      exact h.runner runner hr
    have htasks : ∀ change, ∀ task ∈ s.tasks.map (Task.changed other now change), task.id = id →
        (task.status = .cancelled ∨ task.status = .failed) ∧ task.execute = none := by
      intro change task htask htaskid
      exact h.tasks task (mem_changed_of_ne htask (htaskid.trans_ne hid)) htaskid
    cases after with
    | waits runner' change rename =>
        refine ⟨?_, ?_, ?_, ?_⟩
        · rw [renamesOf_waits, if_neg hid, List.append_nil]
          exact h.started
        · cases change <;> exact h.known
        · cases change <;> exact hrunners _
        · cases change with
          | none => exact h.tasks
          | some change => exact htasks change
    | ends change => exact ⟨h.started, h.known, hrunners _, htasks change⟩
    | vanishes => exact ⟨h.started, h.known, hrunners _, h.tasks⟩

theorem Stopped.step {started : List Operation} (h : Stopped id started s)
    (hstep : s.step e = some s') : Stopped id started s' := by
  cases e with
  | create autoExecute now =>
      cases hstep
      refine ⟨h.started, Nat.lt_succ_of_lt h.known, fun r hr => ?_, fun task htask hid => ?_⟩
      · dsimp only at hr
        rw [Function.update_of_ne h.known.ne] at hr
        exact h.runner r hr
      · rcases List.mem_append.mp (mem_of_mem_prune htask) with htask | htask
        · exact h.tasks task htask hid
        · rw [List.mem_singleton.mp htask] at hid
          exact (h.known.ne hid.symm).elim
  | cancel other now =>
      rcases cancel_cases hstep with ⟨rfl, -⟩ | ⟨task, hfind, hopen, runner, rfl, -, -⟩
      · exact h
      · have htask : task ∈ s.tasks := List.mem_of_find?_eq_some hfind
        have hother : task.id = other := by simpa using List.find?_some hfind
        have hid : id ≠ other := by
          rintro rfl
          rcases (h.tasks task htask hother).1 with hstatus | hstatus
          · rw [hstatus] at hopen
            cases hopen
          · rw [hstatus] at hopen
            cases hopen
        refine ⟨h.started, h.known, fun r hr => ?_, fun task htask htaskid => ?_⟩
        · have hr' : Function.update s.runners other runner id = some r := hr
          rw [Function.update_of_ne hid] at hr'
          exact h.runner r hr'
        · exact h.tasks task (mem_changed_of_ne htask (htaskid.trans_ne hid)) htaskid
  | wake other wake now => exact h.wake hstep

/-- A new task survives its own pruning exactly if fewer tasks than are kept have its time or a
later one. -/
theorem mem_prune_new_iff {id : ℕ} (autoExecute : Bool) (hnew : ∀ task ∈ tasks, task.id ≠ id)
    (hhandle : id ∉ handles) :
    (∃ task ∈ pruneWorkflowTasks (tasks ++ [baseWorkflowTask id autoExecute now]) handles,
        task.id = id) ↔
      (tasks.filter (now ≤ ·.updatedAt)).length < cloudWorkflowMaxKeep := by
  let task := baseWorkflowTask id autoExecute now
  have hlast : task ∈ tasks ++ [task] := List.mem_append_right _ List.mem_cons_self
  have hlength : (tasks ++ [task]).length = tasks.length + 1 := List.length_append
  have hfilter : (tasks.filter (now ≤ ·.updatedAt)).length ≤ tasks.length := List.length_filter_le _ _
  by_cases hfew : (tasks ++ [task]).length ≤ cloudWorkflowMaxKeep
  · rw [pruneWorkflowTasks, if_pos hfew]
    exact ⟨fun _ => by omega, fun _ => ⟨task, hlast, rfl⟩⟩
  · have hsort := StableSort.insertionSort_concat (r := Newer)
      (fun _ _ _ hab hbc => le_trans hbc hab) tasks task
    have hbefore : ((tasks.filter (Newer · task)).insertionSort Newer).length =
        (tasks.filter (now ≤ ·.updatedAt)).length := List.length_insertionSort _ _
    rw [pruneWorkflowTasks, if_neg hfew]
    constructor
    · rintro ⟨kept, hkept, hid⟩
      by_contra hmany
      rw [Nat.not_lt, ← hbefore] at hmany
      have hkeep := (List.mem_filter.mp hkept).2
      rw [Bool.or_eq_true, List.contains_iff_mem, List.contains_iff_mem, hid] at hkeep
      rcases hkeep with hkeep | hkeep
      · obtain ⟨other, hother, hsame⟩ := List.mem_map.mp hkeep
        rw [hsort, List.take_append_of_le_length hmany] at hother
        have hmem := (List.mem_insertionSort Newer).mp (List.mem_of_mem_take hother)
        exact hnew other (List.mem_of_mem_filter hmem) hsame
      · exact hhandle hkeep
    · intro hroom
      refine ⟨task, List.mem_filter.mpr ⟨hlast, ?_⟩, rfl⟩
      rw [Bool.or_eq_true, List.contains_iff_mem]
      refine .inl (List.mem_map_of_mem ?_)
      rw [← hbefore] at hroom
      obtain ⟨more, hmore⟩ := Nat.exists_eq_add_of_lt hroom
      rw [hsort, hmore, Nat.add_assoc, List.take_length_add_append, List.take_succ_cons]
      exact List.mem_append_right _ List.mem_cons_self

/-- A new task is newer than all but a few: fewer than are kept have its time or a later one. -/
def Timely (s : Workflows) : WorkflowEvent → Prop
  | .create _ now => (s.tasks.filter (now ≤ ·.updatedAt)).length < cloudWorkflowMaxKeep
  | .cancel .. | .wake .. => True

instance (s : Workflows) : ∀ e, Decidable (s.Timely e)
  | .create _ now =>
      inferInstanceAs (Decidable ((s.tasks.filter (now ≤ ·.updatedAt)).length < cloudWorkflowMaxKeep))
  | .cancel .. | .wake .. => .isTrue trivial

/-- Every runner finds its task. -/
def Found (s : Workflows) : Prop :=
  ∀ id runner, s.runners id = some runner → ∃ task ∈ s.tasks, task.id = id

theorem Found.of_ids (h : s.Found)
    (hids : s'.tasks.map (·.id) = s.tasks.map (·.id))
    (hrunners : ∀ id runner, s'.runners id = some runner → ∃ runner, s.runners id = some runner) :
    s'.Found := by
  intro id runner hrunner
  obtain ⟨old, hold⟩ := hrunners id runner hrunner
  obtain ⟨task, htask, hid⟩ := h id old hold
  have hmem : id ∈ s'.tasks.map (·.id) := by
    rw [hids, ← hid]
    exact List.mem_map_of_mem htask
  obtain ⟨task', htask', hid'⟩ := List.mem_map.mp hmem
  exact ⟨task', htask', hid'⟩

theorem Found.wake {wake : Wake} (h : s.Found) (hstep : s.step (.wake id wake now) = some s') :
    s'.Found := by
  obtain ⟨runner, hrunner, hstep⟩ := Option.bind_eq_some_iff.mp hstep
  obtain ⟨after, -, hstep⟩ := Option.bind_eq_some_iff.mp hstep
  cases hstep
  have hset : ∀ (r : Option Runner) other running, Function.update s.runners id r other = some running →
      ∃ running, s.runners other = some running := by
    intro r other running hother
    by_cases hid : other = id
    · rw [hid]
      exact ⟨runner, hrunner⟩
    · rw [Function.update_of_ne hid] at hother
      exact ⟨running, hother⟩
  cases after with
  | waits runner' change rename =>
      cases change with
      | none => exact h.of_ids rfl (hset _)
      | some change => exact h.of_ids map_changed_id (hset _)
  | ends change => exact h.of_ids map_changed_id (hset _)
  | vanishes => exact h.of_ids rfl (hset _)

theorem Found.cancel (h : s.Found) (hc : s.Consistent) (hstep : s.step (.cancel id now) = some s') :
    s'.Found := by
  rcases cancel_cases hstep with ⟨rfl, -⟩ | ⟨task, -, -, runner, rfl, hhandle, hnone⟩
  · exact h
  · refine h.of_ids map_changed_id fun other running hother => ?_
    by_cases hid : other = id
    · have hown : Function.update s.runners id runner other = some running := hother
      rw [hid, Function.update_self] at hown
      rw [hid]
      by_cases hmem : id ∈ s.handles
      · rw [hhandle hmem] at hown
        obtain ⟨old, hold, -⟩ := Option.map_eq_some_iff.mp hown
        exact ⟨old, hold⟩
      · rw [hnone hmem] at hown
        exact ⟨running, hown⟩
    · have hold : Function.update s.runners id runner other = some running := hother
      rw [Function.update_of_ne hid] at hold
      exact ⟨running, hold⟩

/-- A step keeps the tasks of all runners exactly if it makes no task that is too old. -/
theorem found_step_iff (hc : s.Consistent) (h : s.Found) (hstep : s.step e = some s') :
    s'.Found ↔ s.Timely e := by
  cases e with
  | create autoExecute now =>
      have hnew : ∀ task ∈ s.tasks, task.id ≠ s.nextId := fun task htask => (hc.old task htask).ne
      have hhandle : s.nextId ∉ s.handles := fun hmem => (hc.handles _ hmem).ne rfl
      cases hstep
      rw [Timely, ← mem_prune_new_iff autoExecute hnew hhandle]
      constructor
      · intro hfound
        exact hfound s.nextId { autoExecute } (Function.update_self ..)
      · intro hkept id runner hrunner
        by_cases hid : id = s.nextId
        · rw [hid]
          exact hkept
        · have hrunner' : Function.update s.runners s.nextId _ id = some runner := hrunner
          rw [Function.update_of_ne hid] at hrunner'
          obtain ⟨task, htask, rfl⟩ := h id runner hrunner'
          exact ⟨task, mem_prune_of_handle (List.mem_append_left _ htask)
            (hc.known _ runner hrunner'), rfl⟩
  | cancel id now => exact iff_of_true (h.cancel hc hstep) trivial
  | wake id wake now => exact iff_of_true (h.wake hstep) trivial

/-- In every run all runners find their tasks, so that no update of theirs is lost and every task at
work can be asked for, exactly if no task is made with the clock behind too many others. -/
theorem tasks_found_iff (events : List WorkflowEvent) (s : Workflows)
    (hrun : PartialRun.exec step {} events = some s) :
    PartialRun.Throughout step Found {} events ↔ PartialRun.Along step Timely {} events := by
  have hinit : Consistent {} ∧ Found {} :=
    ⟨consistent_of_exec (rfl : PartialRun.exec step {} [] = some {}),
      fun _ _ h => (Option.some_ne_none _ h.symm).elim⟩
  have hboth := PartialRun.throughout_iff_along (I := fun s => s.Consistent ∧ s.Found) (P := Timely)
    (fun s e s' h hstep => (and_iff_right (h.1.step hstep)).trans (found_step_iff h.1 h.2 hstep))
    hinit hrun
  rw [← hboth]
  constructor
  · intro hfound pre hpre t ht
    exact ⟨consistent_of_exec ht, hfound pre hpre t ht⟩
  · intro hfound pre hpre t ht
    exact (hfound pre hpre t ht).2

/-- Fifty tasks and one more, each made with the clock set back. -/
def settingBack : List WorkflowEvent := (List.range 51).map fun n => .create false (-n)

theorem settingBack_loses : ¬ PartialRun.Throughout step Found {} settingBack := by
  obtain ⟨s, hrun⟩ : ∃ s, PartialRun.exec step {} settingBack = some s := ⟨_, rfl⟩
  rw [tasks_found_iff settingBack s hrun]
  decide +kernel

end Steps

end Workflows

end SmartMedia.Workflow
