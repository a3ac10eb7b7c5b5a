import Mathlib.Logic.Relation
import SmartMedia.WriteQueue.Queue

/-!
# What the workers do to the task objects

A worker writes to a task object in six ways only, and only to the tasks it has in
hand. What the rest of the development says about the tasks of a group is derived from
this.
-/
set_option linter.unusedSectionVars false

namespace SmartMedia.WriteQueue

universe u

variable {V : Type u} [DecidableEq V]

/-- The write after an execution: an UPDATE has lost its `id`. -/
def Write.popped (w : Write V) : Write V :=
  if w.operation = .update then { w with data := w.data.erase "id" } else w

/-- An execution changes the task in no other way, whether it raises or not. -/
theorem executeSingleTask_write (models : Models V) (i : ℕ) (w : Write V)
    (fault : Option Fault) (s : Session V) :
    (executeSingleTask models i w fault s).write = w.popped := by
  unfold executeSingleTask Write.popped
  cases hop : w.operation with
  | insert =>
      simp only [executeInsert]
      split <;> rfl
  | update =>
      simp only [executeUpdate]
      repeat' split
      all_goals simp_all
  | delete =>
      simp only [executeDelete]
      repeat' split
      all_goals simp_all
  | upsert =>
      simp only [executeHook, executeFallback]
      repeat' split
      all_goals simp_all

/-- The session after an execution has the writes of tasks it had before, and possibly
that of this one. -/
theorem executeSingleTask_tasks (models : Models V) (i : ℕ) (w : Write V)
    (fault : Option Fault) (s : Session V) (j : ℕ)
    (hj : j ∈ (executeSingleTask models i w fault s).session.tasks) : j ∈ s.tasks ∨ j = i := by
  revert hj
  simp only [executeSingleTask, executeInsert, executeUpdate, executeDelete, executeHook,
    executeFallback]
  repeat' split
  all_goals
    simp only [Session.tasks, Session.hold, Session.afterHook, Session.add, Session.delete, Session.rollback,
      Session.restart, Session.assign_held, Session.assign_committed, List.mem_append,
      List.mem_singleton, List.not_mem_nil, List.append_nil]
    tauto

/-- What a worker does to the object of a task it executes. -/
inductive WorkerWrite : WriteTask V → WriteTask V → Prop
  | attempt (t) : WorkerWrite t (t.attempt t.write.popped)
  | succeed (t) : WorkerWrite t t.succeed
  | fail (t e) : WorkerWrite t (t.fail e)
  | countRetry (t) : WorkerWrite t t.countRetry
  | raisePriority (t) : WorkerWrite t t.raisePriority
  | commit (t) : WorkerWrite t t.commit

/-- The object of a task after a write to it. -/
theorem AsyncWriteQueue.modify_object {q : AsyncWriteQueue V} {i : ℕ} {t : WriteTask V}
    (ht : q.objects[i]? = some t) (f : WriteTask V → WriteTask V) :
    (q.modify i f).objects[i]? = some (f t) := by
  rw [AsyncWriteQueue.modify, List.getElem?_modify, ht]
  simp

/-- What the execution of the tasks `is` leaves of the queue. -/
structure Evolves (is : List ℕ) (q q' : AsyncWriteQueue V) : Prop where
  object : ∀ {j t}, q.objects[j]? = some t → ∃ t', q'.objects[j]? = some t' ∧
    Relation.ReflTransGen WorkerWrite t t' ∧ (j ∉ is → t' = t)
  length : q'.objects.length = q.objects.length
  queue : ∀ j ∈ q'.queue, j ∈ q.queue ∨ j ∈ is
  mergeCache : q'.mergeCache = q.mergeCache
  workers : q'.workers = q.workers

namespace Evolves
variable {q q' q'' : AsyncWriteQueue V} {is js : List ℕ} {i : ℕ} {f : WriteTask V → WriteTask V}

theorem refl : Evolves is q q :=
  ⟨fun {_ t} ht => ⟨t, ht, .refl, fun _ => rfl⟩, rfl, fun _ => .inl, rfl, rfl⟩

/-- Every object comes from one that was there before. -/
theorem object_of (h : Evolves is q q') {j : ℕ} {t' : WriteTask V} (ht' : q'.objects[j]? = some t') :
    ∃ t, q.objects[j]? = some t ∧ Relation.ReflTransGen WorkerWrite t t' ∧ (j ∉ is → t' = t) := by
  obtain ⟨hlt, -⟩ := List.getElem?_eq_some_iff.mp ht'
  rw [h.length] at hlt
  obtain ⟨t'', ht'', hrest⟩ := h.object (List.getElem?_eq_getElem hlt)
  cases ht'.symm.trans ht''
  exact ⟨_, List.getElem?_eq_getElem hlt, hrest⟩

theorem untouched (h : Evolves is q q') (hi : i ∉ is) : q'.objects[i]? = q.objects[i]? := by
  cases hq : q.objects[i]? with
  | none =>
      rw [List.getElem?_eq_none_iff] at hq ⊢
      rw [h.length]
      exact hq
  | some t =>
      obtain ⟨t', ht', -, hsame⟩ := h.object hq
      rw [ht', hsame hi]

theorem trans (h : Evolves is q q') (h' : Evolves is q' q'') : Evolves is q q'' := by
  refine ⟨fun {j t} ht => ?_, h'.length.trans h.length, fun j hj => ?_,
    h'.mergeCache.trans h.mergeCache, h'.workers.trans h.workers⟩
  · obtain ⟨t₁, ht₁, hw₁, hn₁⟩ := h.object ht
    obtain ⟨t₂, ht₂, hw₂, hn₂⟩ := h'.object ht₁
    exact ⟨t₂, ht₂, hw₁.trans hw₂, fun hj => (hn₂ hj).trans (hn₁ hj)⟩
  · rcases h'.queue j hj with hj | hj
    · exact h.queue j hj
    · exact .inr hj

theorem mono (h : Evolves is q q') (hsub : is ⊆ js) : Evolves js q q' := by
  refine ⟨fun {j t} ht => ?_, h.length, fun j hj => (h.queue j hj).imp_right (@hsub j),
    h.mergeCache, h.workers⟩
  obtain ⟨t', ht', hw, hn⟩ := h.object ht
  exact ⟨t', ht', hw, fun hj => hn fun hi => hj (hsub hi)⟩

/-- Metrics and the database are not spoken of. -/
theorem congr {q₁' : AsyncWriteQueue V} (h : Evolves is q q') (ho : q₁'.objects = q'.objects)
    (hq : q₁'.queue = q'.queue) (hm : q₁'.mergeCache = q'.mergeCache)
    (hw : q₁'.workers = q'.workers) : Evolves is q q₁' :=
  ⟨ho ▸ h.object, ho ▸ h.length, hq ▸ h.queue, hm ▸ h.mergeCache, hw ▸ h.workers⟩

theorem modify (hi : i ∈ is) (hf : ∀ t, q.objects[i]? = some t → WorkerWrite t (f t)) :
    Evolves is q (q.modify i f) := by
  refine ⟨fun {j t} ht => ?_, List.length_modify _ _ _, fun _ => .inl, rfl, rfl⟩
  by_cases hj : i = j
  · subst hj
    refine ⟨f t, ?_, .single (hf t ht), fun h => absurd hi h⟩
    rw [AsyncWriteQueue.modify, List.getElem?_modify, ht]
    simp
  · refine ⟨t, ?_, .refl, fun _ => rfl⟩
    rw [AsyncWriteQueue.modify, List.getElem?_modify, ht]
    simp [hj]

theorem push (hi : i ∈ is) : Evolves is q (q.push i) := by
  refine ⟨fun {_ t} ht => ⟨t, ht, .refl, fun _ => rfl⟩, rfl, fun j hj => ?_, rfl, rfl⟩
  rw [AsyncWriteQueue.push, List.mem_orderedInsert] at hj
  exact hj.elim (fun h => .inr (h ▸ hi)) .inl

theorem setTable (model : String) (table : Table V) : Evolves is q (q.setTable model table) :=
  refl.congr rfl rfl rfl rfl

theorem failTask (hi : i ∈ is) (e : String) : Evolves is q (q.failTask i e) :=
  (modify hi fun t _ => .fail t e).congr rfl rfl rfl rfl

theorem completeTask (hi : i ∈ is) : Evolves is q (q.completeTask i) :=
  (modify hi fun t _ => .succeed t).congr rfl rfl rfl rfl

theorem retryTask (hi : i ∈ is) (e : String) : Evolves is q (q.retryTask i e) := by
  have hcount : Evolves is q (q.modify i WriteTask.countRetry) := modify hi fun t _ => .countRetry t
  unfold AsyncWriteQueue.retryTask
  dsimp only
  split
  · exact hcount
  · split_ifs
    · exact hcount.trans (failTask hi e)
    · exact hcount.trans ((modify hi fun t _ => .raisePriority t).trans (push hi))

theorem runTask (models : Models V) (s : Session V) (hi : i ∈ is) (fault : Option Fault) :
    Evolves is q (AsyncWriteQueue.runTask models q s i fault).1 := by
  unfold AsyncWriteQueue.runTask
  split
  · exact refl
  · rename_i t ht
    have hattempt : Evolves is q (q.modify i fun t' =>
        t'.attempt (executeSingleTask models i t.write fault s).write) := by
      refine modify hi fun t' ht' => ?_
      rw [executeSingleTask_write, Option.some.inj (ht.symm.trans ht')]
      exact .attempt t'
    dsimp only
    split
    · exact hattempt.trans (completeTask hi)
    · exact hattempt.trans (retryTask hi _)

theorem runTasks (models : Models V) (s : Session V) (js : List ℕ) (hsub : js ⊆ is)
    (faults : List (Option Fault)) :
    Evolves is q (AsyncWriteQueue.runTasks models q s js faults).1 := by
  induction js generalizing q s faults with
  | nil => exact refl
  | cons j js ih =>
      rw [List.cons_subset] at hsub
      exact (runTask models s hsub.1 _).trans (ih _ hsub.2 _)

theorem foldl {g : AsyncWriteQueue V → ℕ → AsyncWriteQueue V}
    (hg : ∀ q i, i ∈ is → Evolves is q (g q i)) (js : List ℕ) (hsub : js ⊆ is) :
    Evolves is q (js.foldl g q) := by
  induction js generalizing q with
  | nil => exact refl
  | cons j js ih =>
      rw [List.cons_subset] at hsub
      exact (hg q j hsub.1).trans (ih hsub.2)

theorem markCommitted (js : List ℕ) (hsub : js ⊆ is) : Evolves is q (q.markCommitted js) :=
  foldl (fun _ _ hi => modify hi fun t _ => .commit t) js hsub

theorem retryTasks (e : String) : Evolves is q (q.retryTasks is e) :=
  foldl (fun _ _ hi => retryTask hi e) is fun _ h => h

/-- The session of a group speaks of tasks of the group only. -/
theorem runTasks_session (models : Models V) (s : Session V) (js : List ℕ)
    (faults : List (Option Fault)) (j : ℕ)
    (hj : j ∈ (AsyncWriteQueue.runTasks models q s js faults).2.tasks) : j ∈ s.tasks ∨ j ∈ js := by
  induction js generalizing q s faults with
  | nil => exact .inl hj
  | cons i js ih =>
      have hturn : ∀ j, j ∈ (AsyncWriteQueue.runTask models q s i (faults.headD none)).2.tasks →
          j ∈ s.tasks ∨ j = i := by
        intro j hj
        unfold AsyncWriteQueue.runTask at hj
        split at hj
        · exact .inl hj
        · dsimp only at hj
          split at hj <;> exact executeSingleTask_tasks models i _ _ s j hj
      rcases ih _ _ hj with hj | hj
      · rcases hturn j hj with hj | rfl
        · exact .inl hj
        · exact .inr List.mem_cons_self
      · exact .inr (List.mem_cons_of_mem i hj)

theorem closeSession (models : Models V) {s : Session V} (hs : ∀ j ∈ s.tasks, j ∈ is)
    (model : String) (commitFault : Option String) :
    Evolves is q (q.closeSession models s model is commitFault) := by
  have hmark : Evolves is q (q.markCommitted s.committed) :=
    markCommitted _ fun j hj => hs j (List.mem_append_left _ hj)
  unfold AsyncWriteQueue.closeSession
  split
  · exact (markCommitted s.tasks hs).congr rfl rfl rfl rfl
  · exact hmark.trans ((setTable _ _).trans (retryTasks _))

theorem executeModelBatch (models : Models V) (model : String) (faults : List (Option Fault))
    (commitFault : Option String) :
    Evolves is q (q.executeModelBatch models model is faults commitFault) := by
  unfold AsyncWriteQueue.executeModelBatch
  split_ifs
  · refine (runTasks models (Session.begin (q.db model)) is (fun _ h => h) faults).trans
      (closeSession models (fun j hj => ?_) model commitFault)
    exact (runTasks_session models _ is faults j hj).resolve_left List.not_mem_nil
  · exact foldl (fun _ _ hi => failTask hi _) is fun _ h => h

end Evolves

namespace AsyncWriteQueue
variable {q : AsyncWriteQueue V} {sub : Submission V}

theorem addToGroup_perm (model : String) (i : ℕ) (groups : List (String × List ℕ)) :
    ((addToGroup model i groups).flatMap Prod.snd).Perm (i :: groups.flatMap Prod.snd) := by
  induction groups with
  | nil => exact .refl _
  | cons g rest ih =>
      unfold addToGroup
      split_ifs
      · simp only [List.flatMap_cons, List.append_assoc]
        exact List.perm_middle
      · simp only [List.flatMap_cons]
        exact (ih.append_left g.2).trans List.perm_middle

/-- A batch is split into groups, and no task is dropped or doubled. -/
theorem grouped_perm {tasks : List ℕ} (h : ∀ i ∈ tasks, i < q.objects.length) :
    ((q.grouped tasks).flatMap Prod.snd).Perm tasks := by
  have hfold : ∀ groups, ((tasks.foldl q.groupTask groups).flatMap Prod.snd).Perm
      (groups.flatMap Prod.snd ++ tasks) := by
    induction tasks with
    | nil => exact fun groups => by simp
    | cons i tasks ih =>
        intro groups
        have hi : q.objects[i]? = some (q.objects.get ⟨i, h i List.mem_cons_self⟩) :=
          List.getElem?_eq_getElem _
        rw [List.foldl_cons, groupTask, hi]
        refine (ih (fun j hj => h j (List.mem_cons_of_mem i hj)) _).trans ?_
        exact ((addToGroup_perm _ i groups).append_right tasks).trans List.perm_middle.symm
  exact hfold []

/-- The queue after `submit` created the task object. -/
def created (q : AsyncWriteQueue V) (sub : Submission V) : AsyncWriteQueue V :=
  { q with objects := q.objects ++ [sub.task (q.objects.length + 1)] }

/-- A new merge key is cached. -/
def cached (q : AsyncWriteQueue V) (sub : Submission V) : AsyncWriteQueue V :=
  { q.created sub with
    mergeCache := q.mergeCache ++ (sub.key.map fun key => (key, q.objects.length)).toList }

theorem getElem?_concat {objects : List (WriteTask V)} {t t' : WriteTask V} {j : ℕ}
    (h : (objects ++ [t])[j]? = some t') :
    objects[j]? = some t' ∨ j = objects.length ∧ t' = t := by
  rcases lt_trichotomy j objects.length with hj | hj | hj
  · rw [List.getElem?_append_left hj] at h
    exact .inl h
  · subst hj
    rw [List.getElem?_concat_length] at h
    exact .inr ⟨rfl, (Option.some.inj h).symm⟩
  · rw [List.getElem?_eq_none (by simp; omega)] at h
    cases h

/-- A task that finds room is in the heap. -/
def enqueued (q : AsyncWriteQueue V) (i : ℕ) : AsyncWriteQueue V :=
  let q := (q.modify i fun t => { t with enqueued := true }).push i
  { q with metrics := { q.metrics with
      totalTasks := q.metrics.totalTasks + 1
      currentQueueSize := q.queue.length
      peakQueueSize := max q.metrics.peakQueueSize q.queue.length } }

theorem enqueue_of_lt {i : ℕ} (h : q.queue.length < q.maxQueueSize) :
    q.enqueue i = (q.enqueued i, .ok i) := if_neg (by omega)

/-- The four ways out of `submit`. -/
inductive Submitted (q : AsyncWriteQueue V) (sub : Submission V) :
    AsyncWriteQueue V × Except String ℕ → Prop
  | notRunning : q.running = false → Submitted q sub (q, .error "Write queue is not running")
  | merged {key : String} {j : ℕ} : q.running = true → sub.key = some key →
      q.mergeCache.lookup key = some j →
      Submitted q sub ((q.created sub).mergeInto j sub.write.data, .ok j)
  | full : q.running = true → (∀ key, sub.key = some key → q.mergeCache.lookup key = none) →
      q.maxQueueSize ≤ q.queue.length →
      Submitted q sub (q.cached sub, .error "Write queue is full")
  | accepted : q.running = true → (∀ key, sub.key = some key → q.mergeCache.lookup key = none) →
      q.queue.length < q.maxQueueSize →
      Submitted q sub ((q.cached sub).enqueued q.objects.length, .ok q.objects.length)

theorem submitted (q : AsyncWriteQueue V) (sub : Submission V) :
    Submitted q sub (q.submit sub) := by
  cases hrun : q.running with
  | false =>
      rw [submit, hrun]
      exact .notRunning hrun
  | true =>
      have hnew : (∀ key, sub.key = some key → q.mergeCache.lookup key = none) →
          Submitted q sub ((q.cached sub).enqueue q.objects.length) := by
        intro hkey
        by_cases hfull : q.maxQueueSize ≤ q.queue.length
        · have hout : (q.cached sub).enqueue q.objects.length =
              (q.cached sub, .error "Write queue is full") := if_pos hfull
          rw [hout]
          exact .full hrun hkey hfull
        · have hlt : q.queue.length < q.maxQueueSize := by omega
          rw [enqueue_of_lt (q := q.cached sub) hlt]
          exact .accepted hrun hkey hlt
      cases hkey : sub.key with
      | none =>
          have hcached : q.created sub = q.cached sub := by simp [cached, created, hkey]
          have hout : q.submit sub = (q.cached sub).enqueue q.objects.length := by
            rw [submit, if_pos hrun, ← hcached]
            simp only [hkey, created]
          rw [hout]
          exact hnew fun key h => (by rw [hkey] at h; cases h)
      | some key =>
          cases hlook : q.mergeCache.lookup key with
          | some j =>
              have hout := Submitted.merged hrun hkey hlook
              simpa [submit, hrun, hkey, hlook, created] using hout
          | none =>
              have hout : q.submit sub = (q.cached sub).enqueue q.objects.length := by
                simp [submit, hrun, hkey, hlook, cached, created]
              rw [hout]
              refine hnew fun key' h => ?_
              rw [← Option.some.inj (hkey.symm.trans h), hlook]

/-- After a group the worker has the tasks of the other groups. -/
theorem afterGroup_spec (q : AsyncWriteQueue V) (k : ℕ) (rest : List (String × List ℕ)) :
    (q.afterGroup k rest).objects = q.objects ∧ (q.afterGroup k rest).queue = q.queue ∧
      (q.afterGroup k rest).mergeCache = q.mergeCache ∧
      ∃ w : Worker, (q.afterGroup k rest).workers = q.workers.set k w ∧
        w.tasks = rest.flatMap Prod.snd := by
  cases rest with
  | nil => exact ⟨rfl, rfl, rfl, .looping, rfl, rfl⟩
  | cons g rest => exact ⟨rfl, rfl, rfl, .executing (g :: rest), rfl, rfl⟩

/-- The queue after worker `k` popped its first task `i`. -/
def popped (q : AsyncWriteQueue V) (k : ℕ) (tasks : List ℕ) (i : ℕ) (rest : List ℕ) :
    AsyncWriteQueue V :=
  { q.setWorker k (.collecting (tasks ++ [i])) with
    queue := rest
    mergeCache := q.mergeCache.filter fun e => e.2 ≠ i }

/-- What each action requires and leaves. -/
inductive Stepped (models : Models V) (q : AsyncWriteQueue V) :
    Action V → AsyncWriteQueue V → Prop
  | start : Stepped models q .start q.startWorkers
  | stop : Stepped models q .stop { q with running := false }
  | clear : Stepped models q .clear q.clearQueue
  | submit (sub : Submission V) : Stepped models q (.submit sub) (q.submit sub).1
  | enter {k} : q.workers[k]? = some .looping →
      Stepped models q (.enter k)
        (q.setWorker k (if q.running then .collecting [] else .stopped))
  | pop {k tasks i rest} : q.workers[k]? = some (.collecting tasks) → q.queue = i :: rest →
      tasks.length < q.batchSize → Stepped models q (.pop k) (q.popped k tasks i rest)
  | emptyBatch {k} : q.workers[k]? = some (.collecting []) →
      Stepped models q (.startBatch k) (q.setWorker k .looping)
  | startBatch {k tasks} : q.workers[k]? = some (.collecting tasks) → tasks ≠ [] →
      Stepped models q (.startBatch k) (q.setWorker k (.executing (q.grouped tasks)))
  | runGroup {k model is rest} (faults commitFault) :
      q.workers[k]? = some (.executing ((model, is) :: rest)) →
      Stepped models q (.runGroup k faults commitFault)
        ((q.executeModelBatch models model is faults commitFault).afterGroup k rest)

theorem stepped {models : Models V} {q q' : AsyncWriteQueue V} {a : Action V}
    (h : q.step models a = some q') : Stepped models q a q' := by
  cases a with
  | start =>
      cases h
      exact .start
  | stop =>
      cases h
      exact .stop
  | clear =>
      cases h
      exact .clear
  | submit sub =>
      cases h
      exact .submit sub
  | enter k =>
      simp only [step] at h
      split at h
      · cases h
        exact .enter ‹_›
      · cases h
  | pop k =>
      simp only [step, popTask] at h
      split at h
      · rename_i tasks hk
        split at h
        · cases h
        · rename_i i rest hq
          split_ifs at h with hsize
          cases h
          exact .pop hk hq hsize
      · cases h
  | startBatch k =>
      simp only [step] at h
      split at h
      · cases h
        exact .emptyBatch ‹_›
      · cases h
        rename_i tasks hne hk
        exact .startBatch hk hne
      · cases h
  | runGroup k faults commitFault =>
      simp only [step] at h
      split at h
      · cases h
        exact .runGroup faults commitFault ‹_›
      · cases h

end AsyncWriteQueue

end SmartMedia.WriteQueue
