import Mathlib.Data.List.Nodup
import SmartMedia.Library.PartialRun
import SmartMedia.Platform.TaskWorker

/-!
# The platform: one task table and everybody who works on it

Any number of workers, API requests and starting processes act on one table. Each
ORM read (which takes copies), each commit and each guarded bulk UPDATE is one
atomic step, and an action list is an arbitrary interleaving of them. A call that
sits between its read and its commit is kept with the copies it read; sessions do
not expire objects on commit and do not compare with the current row on a flush.
Rows are not deleted.
-/
namespace SmartMedia.Platform

/-- A `claim_next_task` between its SELECT and its UPDATE. -/
structure Claim where
  owner : String
  leaseSeconds : ℕ
  now : Time
  uuid : String
  candidate : ℕ
  deriving DecidableEq, Repr

/-- A `recover_expired_leases` between its SELECT and its commit. `renewed` is a
history variable no step reads: the tasks that got a heartbeat in between. -/
structure Recovery where
  now : Time
  selected : List (ℕ × Task)
  renewed : List ℕ := []
  nodup : (selected.map Prod.fst).Nodup
  deriving DecidableEq

/-- A `cancel_task` between its read and its commit. -/
structure Cancel where
  id : ℕ
  now : Time
  copy : Task
  update : TaskUpdate
  made : cancelUpdate now copy = some update
  deriving DecidableEq

/-- A `record_task_failure` between its read and its commit. -/
structure FailureRecord where
  id : ℕ
  owner : String
  error : String
  baseDelay : ℕ
  maxDelay : ℕ
  now : Time
  copy : Task
  accepted : failureAccepted owner copy = true
  deriving DecidableEq

def FailureRecord.update (f : FailureRecord) : TaskUpdate :=
  failureUpdate f.error f.baseDelay f.maxDelay f.now f.copy

/-- The table and the calls in flight; a call that has ended leaves `none` behind. -/
structure System where
  tasks : Table := []
  claims : List (Option Claim) := []
  runs : List Run := []
  recoveries : List (Option Recovery) := []
  cancels : List (Option Cancel) := []
  failures : List (Option FailureRecord) := []
  deriving DecidableEq

inductive Action where
  | create (taskIn : TaskCreate) (now : Time)
  | claimSelect (owner : String) (leaseSeconds : ℕ) (now : Time) (uuid : String)
  | claimUpdate (k : ℕ)
  | heartbeat (k leaseSeconds : ℕ) (now : Time)
  | recoverSelect (now : Time)
  | recoverCommit (k : ℕ)
  | runStep (k : ℕ) (now : Time) (ev : RunEvent)
  | cancelRead (id : ℕ) (now : Time)
  | cancelCommit (k : ℕ)
  | failureRead (id : ℕ) (owner error : String) (baseDelay maxDelay : ℕ) (now : Time)
  | failureCommit (k : ℕ)
  deriving DecidableEq, Repr

/-- The rows `recover_expired_leases` selects, with their keys. -/
def expiredRows (now : Time) (tasks : Table) : List (ℕ × Task) :=
  (tasks.zipIdx.filter fun r => expired now r.1).map Prod.swap

theorem expiredRows_nodup (now : Time) (tasks : Table) :
    ((expiredRows now tasks).map Prod.fst).Nodup := by
  have h : ((tasks.zipIdx.filter fun r => expired now r.1).map Prod.snd).Sublist
      (tasks.zipIdx.map Prod.snd) := List.filter_sublist.map _
  simp only [expiredRows, List.map_map]
  refine List.Nodup.sublist h ?_
  rw [List.zipIdx_map_snd]
  exact List.nodup_range' ..

namespace System

/-- The row updates an action commits in a state; nothing when a guard fails. -/
def commits (s : System) : Action → List (ℕ × TaskUpdate)
  | .claimUpdate k =>
      match s.claims[k]?.join with
      | some c => match s.tasks[c.candidate]? with
          | some row => if claimable c.now row
              then [(c.candidate, Platform.claimUpdate c.owner c.leaseSeconds c.now row)] else []
          | none => []
      | none => []
  | .heartbeat k leaseSeconds now =>
      match s.runs[k]? with
      | some r => match s.tasks[r.taskId]? with
          | some row => if r.heartbeats && heartbeatable r.owner row
              then [(r.taskId, heartbeatUpdate leaseSeconds now)] else []
          | none => []
      | none => []
  | .recoverCommit k =>
      match s.recoveries[k]?.join with
      | some rec => rec.selected.map fun p => (p.1, recoverUpdate rec.now p.2)
      | none => []
  | .runStep k now ev =>
      match s.runs[k]? with
      | some r => match r.advance now s.tasks[r.taskId]? ev with
          | some (u, _) => [(r.taskId, u)]
          | none => []
      | none => []
  | .cancelCommit k =>
      match s.cancels[k]?.join with
      | some w => [(w.id, w.update)]
      | none => []
  | .failureCommit k =>
      match s.failures[k]?.join with
      | some w => [(w.id, w.update)]
      | none => []
  | _ => []

/-- The table after an action's commits. -/
def flushed (s : System) (a : Action) : Table := Table.updateAll (s.commits a) s.tasks

/-- One atomic step; `none` when the acting call is not at that point. -/
def step (s : System) : Action → Option System
  | .create taskIn now => some { s with tasks := s.tasks ++ [createTask taskIn now] }
  | .claimSelect owner leaseSeconds now uuid =>
      -- an empty owner raises ValueError before the session is used
      if owner = "" then none
      else match claimCandidate now s.tasks with
        | none => some s
        | some candidate => some { s with
            claims := s.claims ++ [some { owner, leaseSeconds, now, uuid, candidate }] }
  | .claimUpdate k => do
      let c ← s.claims[k]?.join
      let row ← s.tasks[c.candidate]?
      if claimable c.now row then
        let tasks := s.flushed (.claimUpdate k)
        let copy ← tasks[c.candidate]?
        some { s with
          tasks
          claims := s.claims.set k none
          runs := s.runs ++ [{ taskId := c.candidate, owner := c.owner, uuid := c.uuid, copy }] }
      else some { s with claims := s.claims.set k none }
  | .heartbeat k leaseSeconds now => do
      let r ← s.runs[k]?
      if r.heartbeats then
        let renewed := (s.commits (.heartbeat k leaseSeconds now)).map Prod.fst
        some { s with
          tasks := s.flushed (.heartbeat k leaseSeconds now)
          recoveries := s.recoveries.map fun rec =>
            rec.map fun rec => { rec with renewed := renewed ++ rec.renewed } }
      else none
  | .recoverSelect now => some { s with
      recoveries := s.recoveries ++
        [some ⟨now, expiredRows now s.tasks, [], expiredRows_nodup now s.tasks⟩] }
  | .recoverCommit k => do
      let _ ← s.recoveries[k]?.join
      some { s with
        tasks := s.flushed (.recoverCommit k)
        recoveries := s.recoveries.set k none }
  | .runStep k now ev => do
      let r ← s.runs[k]?
      let (_, r') ← r.advance now s.tasks[r.taskId]? ev
      some { s with
        tasks := s.flushed (.runStep k now ev)
        runs := s.runs.set k r' }
  | .cancelRead id now => do
      let copy ← s.tasks[id]?
      match made : cancelUpdate now copy with
      | none => some s
      | some update =>
          some { s with cancels := s.cancels ++ [some { id, now, copy, update, made }] }
  | .cancelCommit k => do
      let _ ← s.cancels[k]?.join
      some { s with
        tasks := s.flushed (.cancelCommit k)
        cancels := s.cancels.set k none }
  | .failureRead id owner error baseDelay maxDelay now => do
      let copy ← s.tasks[id]?
      if accepted : failureAccepted owner copy = true then
        some { s with failures := s.failures ++
          [some { id, owner, error, baseDelay, maxDelay, now, copy, accepted }] }
      else some s
  | .failureCommit k => do
      let _ ← s.failures[k]?.join
      some { s with
        tasks := s.flushed (.failureCommit k)
        failures := s.failures.set k none }

/-- The state after an interleaving. -/
abbrev exec (s : System) (as : List Action) : Option System := PartialRun.exec step s as

/-- States the platform can reach from an empty table. -/
def Reachable (s : System) : Prop := ∃ as, exec {} as = some s

/-- Who commits the update `u` to row `id` by the action, and out of what. -/
inductive Writes (s : System) : Action → ℕ → TaskUpdate → Prop
  | claim {k : ℕ} {c : Claim} {row : Task} : s.claims[k]?.join = some c →
      s.tasks[c.candidate]? = some row → claimable c.now row = true →
      Writes s (.claimUpdate k) c.candidate (Platform.claimUpdate c.owner c.leaseSeconds c.now row)
  | heartbeat {k leaseSeconds : ℕ} {now : Time} {r : Run} {row : Task} : s.runs[k]? = some r →
      s.tasks[r.taskId]? = some row → r.heartbeats = true → heartbeatable r.owner row = true →
      Writes s (.heartbeat k leaseSeconds now) r.taskId (heartbeatUpdate leaseSeconds now)
  | recover {k id : ℕ} {rec : Recovery} {copy : Task} : s.recoveries[k]?.join = some rec →
      (id, copy) ∈ rec.selected → Writes s (.recoverCommit k) id (recoverUpdate rec.now copy)
  | run {k : ℕ} {now : Time} {ev : RunEvent} {r r' : Run} {u : TaskUpdate} :
      s.runs[k]? = some r → r.advance now s.tasks[r.taskId]? ev = some (u, r') →
      Writes s (.runStep k now ev) r.taskId u
  | cancel {k : ℕ} {w : Cancel} : s.cancels[k]?.join = some w →
      Writes s (.cancelCommit k) w.id w.update
  | failure {k : ℕ} {f : FailureRecord} : s.failures[k]?.join = some f →
      Writes s (.failureCommit k) f.id f.update

variable {s s' : System} {a : Action} {id : ℕ} {u : TaskUpdate} {t : Task}

theorem writes_of_mem (h : (id, u) ∈ s.commits a) : s.Writes a id u := by
  cases a with
  | claimUpdate k =>
      simp only [commits] at h
      split at h <;> [skip; cases h]
      split at h <;> [skip; cases h]
      split_ifs at h with hc
      · cases List.mem_singleton.mp h
        exact .claim ‹_› ‹_› hc
      · cases h
  | heartbeat k leaseSeconds now =>
      simp only [commits] at h
      split at h <;> [skip; cases h]
      split at h <;> [skip; cases h]
      split_ifs at h with hc
      · cases List.mem_singleton.mp h
        rw [Bool.and_eq_true] at hc
        exact .heartbeat ‹_› ‹_› hc.1 hc.2
      · cases h
  | recoverCommit k =>
      simp only [commits] at h
      split at h <;> [skip; cases h]
      obtain ⟨⟨i, copy⟩, hp, he⟩ := List.mem_map.mp h
      cases he
      exact .recover ‹_› hp
  | runStep k now ev =>
      simp only [commits] at h
      split at h <;> [skip; cases h]
      split at h <;> [skip; cases h]
      cases List.mem_singleton.mp h
      exact .run ‹_› ‹_›
  | cancelCommit k =>
      simp only [commits] at h
      split at h <;> [skip; cases h]
      cases List.mem_singleton.mp h
      exact .cancel ‹_›
  | failureCommit k =>
      simp only [commits] at h
      split at h <;> [skip; cases h]
      cases List.mem_singleton.mp h
      exact .failure ‹_›
  | create _ _ | claimSelect _ _ _ _ | recoverSelect _ | cancelRead _ _
  | failureRead _ _ _ _ _ _ => cases h

theorem mem_of_writes (h : s.Writes a id u) : (id, u) ∈ s.commits a := by
  cases h with
  | claim hc ht hg => simp [commits, hc, ht, hg]
  | heartbeat hr ht hb hg => simp [commits, hr, ht, hb, hg]
  | recover hr hm =>
      simp only [commits, hr]
      exact List.mem_map.mpr ⟨_, hm, rfl⟩
  | run hr ha => simp [commits, hr, ha]
  | cancel hw => simp [commits, hw]
  | failure hf => simp [commits, hf]

/-- An action updates a row at most once. -/
theorem commits_nodup (s : System) (a : Action) : ((s.commits a).map Prod.fst).Nodup := by
  cases a with
  | recoverCommit k =>
      simp only [commits]
      split
      · rename_i rec _
        simpa only [List.map_map, Function.comp_def] using rec.nodup
      · exact List.nodup_nil
  | claimUpdate k =>
      simp only [commits]
      split <;> [skip; simp]
      split <;> [skip; simp]
      split_ifs <;> simp
  | heartbeat k _ _ =>
      simp only [commits]
      split <;> [skip; simp]
      split <;> [skip; simp]
      split_ifs <;> simp
  | runStep k now ev =>
      simp only [commits]
      split <;> [skip; simp]
      split <;> simp
  | cancelCommit k | failureCommit k =>
      simp only [commits]
      split <;> simp
  | create _ _ | claimSelect _ _ _ _ | recoverSelect _ | cancelRead _ _
  | failureRead _ _ _ _ _ _ => exact List.nodup_nil

/-- Everything a step can do, guards included. -/
inductive Stepped (s : System) : Action → System → Prop
  | create (taskIn : TaskCreate) (now : Time) :
      Stepped s (.create taskIn now) { s with tasks := s.tasks ++ [createTask taskIn now] }
  | idle {a : Action} : s.commits a = [] → (∀ k, a ≠ .claimUpdate k) → Stepped s a s
  | claimSelect (leaseSeconds : ℕ) (uuid : String) {owner : String} {now : Time} {candidate : ℕ} :
      owner ≠ "" → claimCandidate now s.tasks = some candidate →
      Stepped s (.claimSelect owner leaseSeconds now uuid) { s with
        claims := s.claims ++ [some { owner, leaseSeconds, now, uuid, candidate }] }
  | claimMiss {k : ℕ} : s.commits (.claimUpdate k) = [] →
      Stepped s (.claimUpdate k) { s with claims := s.claims.set k none }
  | claimUpdate {k : ℕ} {c : Claim} {row copy : Task} : s.claims[k]?.join = some c →
      s.tasks[c.candidate]? = some row → claimable c.now row = true →
      (s.flushed (.claimUpdate k))[c.candidate]? = some copy →
      Stepped s (.claimUpdate k) { s with
        tasks := s.flushed (.claimUpdate k)
        claims := s.claims.set k none
        runs := s.runs ++ [{ taskId := c.candidate, owner := c.owner, uuid := c.uuid, copy }] }
  | heartbeat (k leaseSeconds : ℕ) (now : Time) :
      Stepped s (.heartbeat k leaseSeconds now) { s with
        tasks := s.flushed (.heartbeat k leaseSeconds now)
        recoveries := s.recoveries.map fun rec => rec.map fun rec => { rec with
          renewed := (s.commits (.heartbeat k leaseSeconds now)).map Prod.fst ++ rec.renewed } }
  | recoverSelect (now : Time) : Stepped s (.recoverSelect now) { s with
      recoveries := s.recoveries ++
        [some ⟨now, expiredRows now s.tasks, [], expiredRows_nodup now s.tasks⟩] }
  | recoverCommit {k : ℕ} {rec : Recovery} : s.recoveries[k]?.join = some rec →
      Stepped s (.recoverCommit k) { s with
        tasks := s.flushed (.recoverCommit k), recoveries := s.recoveries.set k none }
  | runStep {k : ℕ} {now : Time} {ev : RunEvent} {r r' : Run} {u : TaskUpdate} :
      s.runs[k]? = some r → r.advance now s.tasks[r.taskId]? ev = some (u, r') →
      Stepped s (.runStep k now ev) { s with
        tasks := s.flushed (.runStep k now ev), runs := s.runs.set k r' }
  | cancelRead {w : Cancel} : s.tasks[w.id]? = some w.copy →
      Stepped s (.cancelRead w.id w.now) { s with cancels := s.cancels ++ [some w] }
  | cancelCommit {k : ℕ} {w : Cancel} : s.cancels[k]?.join = some w →
      Stepped s (.cancelCommit k) { s with
        tasks := s.flushed (.cancelCommit k), cancels := s.cancels.set k none }
  | failureRead {f : FailureRecord} : s.tasks[f.id]? = some f.copy →
      Stepped s (.failureRead f.id f.owner f.error f.baseDelay f.maxDelay f.now)
        { s with failures := s.failures ++ [some f] }
  | failureCommit {k : ℕ} {f : FailureRecord} : s.failures[k]?.join = some f →
      Stepped s (.failureCommit k) { s with
        tasks := s.flushed (.failureCommit k), failures := s.failures.set k none }

theorem stepped (h : s.step a = some s') : s.Stepped a s' := by
  cases a with
  | create taskIn now => cases h; exact .create taskIn now
  | claimSelect owner leaseSeconds now uuid =>
      simp only [step] at h
      split_ifs at h with ho
      split at h
      · cases h
        exact .idle rfl (fun _ he => by cases he)
      · cases h
        exact .claimSelect leaseSeconds uuid ho ‹_›
  | claimUpdate k =>
      simp only [step, Option.bind_eq_bind, Option.bind_eq_some_iff] at h
      obtain ⟨c, hc, row, hrow, h⟩ := h
      split_ifs at h with hg
      · obtain ⟨copy, hcopy, h⟩ := Option.bind_eq_some_iff.mp h
        cases h
        exact .claimUpdate hc hrow hg hcopy
      · cases h
        exact .claimMiss (by simp [commits, hc, hrow, hg])
  | heartbeat k leaseSeconds now =>
      simp only [step, Option.bind_eq_bind, Option.bind_eq_some_iff] at h
      obtain ⟨r, -, h⟩ := h
      split_ifs at h
      cases h
      exact .heartbeat k leaseSeconds now
  | recoverSelect now => cases h; exact .recoverSelect now
  | recoverCommit k =>
      simp only [step, Option.bind_eq_bind, Option.bind_eq_some_iff] at h
      obtain ⟨rec, hrec, h⟩ := h
      cases h
      exact .recoverCommit hrec
  | runStep k now ev =>
      simp only [step, Option.bind_eq_bind, Option.bind_eq_some_iff] at h
      obtain ⟨r, hr, ⟨u, r'⟩, ha, h⟩ := h
      cases h
      exact .runStep hr ha
  | cancelRead id now =>
      simp only [step, Option.bind_eq_bind, Option.bind_eq_some_iff] at h
      obtain ⟨copy, hcopy, h⟩ := h
      split at h
      · cases h
        exact .idle rfl (fun _ he => by cases he)
      · rename_i update made
        cases h
        exact .cancelRead (w := ⟨id, now, copy, update, made⟩) hcopy
  | cancelCommit k =>
      simp only [step, Option.bind_eq_bind, Option.bind_eq_some_iff] at h
      obtain ⟨w, hw, h⟩ := h
      cases h
      exact .cancelCommit hw
  | failureRead id owner error baseDelay maxDelay now =>
      simp only [step, Option.bind_eq_bind, Option.bind_eq_some_iff] at h
      obtain ⟨copy, hcopy, h⟩ := h
      split_ifs at h with hacc
      · cases h
        exact .failureRead (f := ⟨id, owner, error, baseDelay, maxDelay, now, copy, hacc⟩) hcopy
      · cases h
        exact .idle rfl (fun _ he => by cases he)
  | failureCommit k =>
      simp only [step, Option.bind_eq_bind, Option.bind_eq_some_iff] at h
      obtain ⟨f, hf, h⟩ := h
      cases h
      exact .failureCommit hf

/-- A step replaces the table by the flushed one, or appends a created row. -/
theorem step_tasks (h : s.step a = some s') :
    s'.tasks = s.flushed a ∨
      ∃ taskIn now, a = .create taskIn now ∧ s'.tasks = s.tasks ++ [createTask taskIn now] := by
  cases stepped h with
  | create taskIn now => exact .inr ⟨taskIn, now, rfl, rfl⟩
  | idle hc _ | claimMiss hc => exact .inl (by simp [flushed, hc, Table.updateAll])
  | _ => exact .inl rfl

/-- A row the action writes gets the update. -/
theorem step_row_of_writes (h : s.step a = some s') (hw : s.Writes a id u)
    (ht : s.tasks[id]? = some t) : s'.tasks[id]? = some (u.apply t) := by
  have hm := mem_of_writes hw
  rcases step_tasks h with he | ⟨taskIn, now, rfl, -⟩
  · rw [he]
    exact Table.get_updateAll_of_mem (s.commits_nodup a) hm ht
  · cases hm

/-- A row the action does not write keeps its value. -/
theorem step_row_of_not_writes (h : s.step a = some s') (hw : ∀ u, ¬ s.Writes a id u)
    (ht : s.tasks[id]? = some t) : s'.tasks[id]? = some t := by
  rcases step_tasks h with he | ⟨taskIn, now, rfl, he⟩
  · rw [he, flushed, Table.get_updateAll_of_notMem fun u hu => hw u (writes_of_mem hu), ht]
  · rw [he, List.getElem?_append_left (List.getElem?_eq_some_iff.mp ht).1, ht]

theorem step_row (h : s.step a = some s') (ht : s.tasks[id]? = some t) :
    (∃ u, s.Writes a id u ∧ s'.tasks[id]? = some (u.apply t)) ∨
      ((∀ u, ¬ s.Writes a id u) ∧ s'.tasks[id]? = some t) := by
  by_cases hw : ∃ u, s.Writes a id u
  · obtain ⟨u, hu⟩ := hw
    exact .inl ⟨u, hu, step_row_of_writes h hu ht⟩
  · have hn : ∀ u, ¬ s.Writes a id u := fun u hu => hw ⟨u, hu⟩
    exact .inr ⟨hn, step_row_of_not_writes h hn ht⟩

/-- Rows come into the table by `create_task` only. -/
theorem step_row_new (h : s.step a = some s') (hn : s.tasks[id]? = none)
    (ht : s'.tasks[id]? = some t) : ∃ taskIn now, t = createTask taskIn now := by
  rcases step_tasks h with he | ⟨taskIn, now, rfl, he⟩
  · have hl : s'.tasks.length = s.tasks.length := by rw [he, flushed, Table.length_updateAll]
    have hlt := (List.getElem?_eq_some_iff.mp ht).1
    have hle := List.getElem?_eq_none_iff.mp hn
    omega
  · have hle := List.getElem?_eq_none_iff.mp hn
    rw [he, List.getElem?_append_right hle] at ht
    have hmem := List.mem_of_getElem? ht
    exact ⟨taskIn, now, List.mem_singleton.mp hmem⟩

/-- The list of runs grows by a claim, moves by a run's own step, and else stays. -/
theorem step_runs (h : s.step a = some s') :
    (∃ k c copy, a = .claimUpdate k ∧ s.claims[k]?.join = some c ∧ s'.runs =
        s.runs ++ [{ taskId := c.candidate, owner := c.owner, uuid := c.uuid, copy }]) ∨
      (∃ k now ev r u r', a = .runStep k now ev ∧ s.runs[k]? = some r ∧
        r.advance now s.tasks[r.taskId]? ev = some (u, r') ∧ s'.runs = s.runs.set k r') ∨
      ((∀ k now ev, a ≠ .runStep k now ev) ∧ s'.runs = s.runs) := by
  cases hs : stepped h with
  | claimUpdate hc _ _ _ => exact .inl ⟨_, _, _, rfl, hc, rfl⟩
  | runStep hr ha => exact .inr (.inl ⟨_, _, _, _, _, _, rfl, hr, ha, rfl⟩)
  | idle hc _ =>
      refine .inr (.inr ⟨?_, rfl⟩)
      rintro k now ev rfl
      simp only [step, Option.bind_eq_bind, Option.bind_eq_some_iff] at h
      obtain ⟨r, hr, ⟨u, r'⟩, ha, -⟩ := h
      simp [commits, hr, ha] at hc
  | _ => exact .inr (.inr ⟨fun _ _ _ he => (by cases he), rfl⟩)

/-- A run moves by its own steps only. -/
theorem step_run {k : ℕ} {r : Run} (h : s.step a = some s') (hr : s.runs[k]? = some r) :
    (∃ now ev u r', a = .runStep k now ev ∧
        r.advance now s.tasks[r.taskId]? ev = some (u, r') ∧ s'.runs[k]? = some r') ∨
      ((∀ now ev, a ≠ .runStep k now ev) ∧ s'.runs[k]? = some r) := by
  have hlt := (List.getElem?_eq_some_iff.mp hr).1
  rcases step_runs h with ⟨j, c, copy, rfl, -, he⟩ | ⟨j, now, ev, q, u, r', rfl, hq, ha, he⟩ |
    ⟨hne, he⟩
  · exact .inr ⟨fun _ _ he => (by cases he), by rw [he, List.getElem?_append_left hlt, hr]⟩
  · by_cases hjk : j = k
    · subst hjk
      obtain rfl : q = r := Option.some.inj (hq.symm.trans hr)
      exact .inl ⟨now, ev, u, r', rfl, ha, by rw [he]; exact List.getElem?_set_self hlt⟩
    · refine .inr ⟨fun _ _ h => hjk (by cases h; rfl), ?_⟩
      rw [he, List.getElem?_set_ne hjk, hr]
  · exact .inr ⟨hne k, by rw [he, hr]⟩

/-- The row `id` is there and has the retry budget of the copy; the budget is the one
column the platform never updates. -/
def SameTask (s : System) (id : ℕ) (copy : Task) : Prop :=
  ∃ t, s.tasks[id]? = some t ∧ t.maxAttempts = copy.maxAttempts

/-- Every copy in flight was read from a row of the table. -/
structure Sound (s : System) : Prop where
  runs : ∀ (k : ℕ) (r : Run), s.runs[k]? = some r → s.SameTask r.taskId r.copy
  recoveries : ∀ (k : ℕ) (rec : Recovery), s.recoveries[k]?.join = some rec →
    ∀ id copy, (id, copy) ∈ rec.selected → s.SameTask id copy
  cancels : ∀ (k : ℕ) (w : Cancel), s.cancels[k]?.join = some w → s.SameTask w.id w.copy
  failures : ∀ (k : ℕ) (f : FailureRecord), s.failures[k]?.join = some f → s.SameTask f.id f.copy

theorem SameTask.step {copy : Task} (hs : s.SameTask id copy) (h : s.step a = some s') :
    s'.SameTask id copy := by
  obtain ⟨t, ht, hm⟩ := hs
  rcases step_row h ht with ⟨u, -, ht'⟩ | ⟨-, ht'⟩
  · exact ⟨u.apply t, ht', hm⟩
  · exact ⟨t, ht', hm⟩

end System

section Slots
variable {β : Type} {l : List (Option β)} {j k : ℕ} {x y : β}

/-- Ending the call at `k` brings no call into flight. -/
theorem join_of_set_none (h : (l.set k none)[j]?.join = some x) : l[j]?.join = some x := by
  by_cases hkj : k = j
  · subst hkj
    by_cases hk : k < l.length
    · simp [List.getElem?_set_self hk] at h
    · rw [List.getElem?_eq_none (by simpa using hk)] at h
      cases h
  · rwa [List.getElem?_set_ne hkj] at h

/-- Starting a call brings just that one into flight. -/
theorem join_of_append (h : (l ++ [some y])[j]?.join = some x) : l[j]?.join = some x ∨ x = y := by
  by_cases hj : j < l.length
  · rw [List.getElem?_append_left hj] at h
    exact .inl h
  · rw [List.getElem?_append_right (not_lt.mp hj)] at h
    rcases hd : j - l.length with _ | n
    · simp only [hd, List.getElem?_cons_zero, Option.join_some, Option.some.injEq] at h
      exact .inr h.symm
    · simp [hd] at h

end Slots

namespace System
variable {s s' : System} {a : Action}

/-- A run keeps a copy of its own row, whatever it reads and commits. -/
theorem Sound.runs_step (hs : s.Sound) (h : s.step a = some s') (k : ℕ) (r : Run)
    (hr : s'.runs[k]? = some r) : s'.SameTask r.taskId r.copy := by
  rcases step_runs h with ⟨j, c, copy, rfl, hc, he⟩ | ⟨j, now, ev, q, u, r', rfl, hq, ha, he⟩ |
    ⟨-, he⟩
  · rw [he] at hr
    by_cases hk : k < s.runs.length
    · rw [List.getElem?_append_left hk] at hr
      exact (hs.runs k r hr).step h
    · rw [List.getElem?_append_right (not_lt.mp hk)] at hr
      cases List.mem_singleton.mp (List.mem_of_getElem? hr)
      cases stepped h with
      | claimMiss _ => simp at he
      | idle _ hne => exact absurd rfl (hne j)
      | claimUpdate hc' _ _ hcopy =>
          rw [← (List.cons.inj (List.append_cancel_left he)).1]
          exact ⟨_, hcopy, rfl⟩
  · rw [he] at hr
    by_cases hjk : j = k
    · subst hjk
      rw [List.getElem?_set_self (List.getElem?_eq_some_iff.mp hq).1] at hr
      cases hr
      have hspec := Run.advance_spec ha
      rw [hspec.taskId]
      obtain ⟨t, ht, hm⟩ := hs.runs j q hq
      have hsame : s.SameTask q.taskId r.copy := by
        rcases hspec.budget with hb | ⟨t', ht', hb⟩
        · exact ⟨t, ht, hm.trans hb.symm⟩
        · exact ⟨t', ht', hb.symm⟩
      exact hsame.step h
    · rw [List.getElem?_set_ne hjk] at hr
      exact (hs.runs k r hr).step h
  · rw [he] at hr
    exact (hs.runs k r hr).step h

theorem mem_expiredRows {now : Time} {tasks : Table} {id : ℕ} {copy : Task}
    (h : (id, copy) ∈ expiredRows now tasks) :
    tasks[id]? = some copy ∧ expired now copy = true := by
  obtain ⟨⟨t, i⟩, hm, he⟩ := List.mem_map.mp h
  cases he
  obtain ⟨hz, hx⟩ := List.mem_filter.mp hm
  exact ⟨List.mem_zipIdx_iff_getElem?.mp hz, hx⟩

theorem Sound.recoveries_step (hs : s.Sound) (h : s.step a = some s') (k : ℕ) (rec : Recovery)
    (hr : s'.recoveries[k]?.join = some rec) (id : ℕ) (copy : Task)
    (hm : (id, copy) ∈ rec.selected) : s'.SameTask id copy := by
  refine SameTask.step (s := s) ?_ h
  cases stepped h with
  | recoverSelect now =>
      rcases join_of_append hr with hr | rfl
      · exact hs.recoveries k rec hr id copy hm
      · exact ⟨copy, (mem_expiredRows hm).1, rfl⟩
  | recoverCommit _ => exact hs.recoveries k rec (join_of_set_none hr) id copy hm
  | heartbeat j leaseSeconds now =>
      simp only [List.getElem?_map] at hr
      obtain ⟨rec', hr', rfl⟩ : ∃ rec', s.recoveries[k]?.join = some rec' ∧ rec = { rec' with
          renewed := (s.commits (.heartbeat j leaseSeconds now)).map Prod.fst ++ rec'.renewed } := by
        rcases hk : s.recoveries[k]? with _ | _ | rec' <;> simp_all
      exact hs.recoveries k rec' hr' id copy hm
  | _ => exact hs.recoveries k rec hr id copy hm

theorem Sound.step (hs : s.Sound) (h : s.step a = some s') : s'.Sound where
  runs := hs.runs_step h
  recoveries := hs.recoveries_step h
  cancels k w hw := by
    refine SameTask.step (s := s) ?_ h
    cases stepped h with
    | cancelRead hrow =>
        rcases join_of_append hw with hw | rfl
        · exact hs.cancels k w hw
        · exact ⟨_, hrow, rfl⟩
    | cancelCommit _ => exact hs.cancels k w (join_of_set_none hw)
    | _ => exact hs.cancels k w hw
  failures k f hf := by
    refine SameTask.step (s := s) ?_ h
    cases stepped h with
    | failureRead hrow =>
        rcases join_of_append hf with hf | rfl
        · exact hs.failures k f hf
        · exact ⟨_, hrow, rfl⟩
    | failureCommit _ => exact hs.failures k f (join_of_set_none hf)
    | _ => exact hs.failures k f hf

theorem sound_init : ({} : System).Sound :=
  ⟨fun _ _ h => by simp at h, fun _ _ h => by simp at h, fun _ _ h => by simp at h,
    fun _ _ h => by simp at h⟩

/-- Copies in flight are copies of existing rows, in every reachable state. -/
theorem sound_of_exec {as : List Action} (h : exec {} as = some s) : s.Sound :=
  PartialRun.invariant_of_step (fun _ _ _ hs h => hs.step h) sound_init h

end System

end SmartMedia.Platform
