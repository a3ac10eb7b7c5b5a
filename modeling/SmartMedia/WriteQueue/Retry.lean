import Mathlib.Order.Lattice.Nat
import SmartMedia.WriteQueue.Evolution

/-!
# Does a retry apply the same write?

A retried task is the same object as before, and an execution works on the object's own
data: an UPDATE pops the `id` before anything else can go wrong. So a task applies what
was accepted until it is an UPDATE with an `id` that was executed once; its retries find
no `id`, do nothing and succeed.
-/
set_option linter.unusedSectionVars false

namespace SmartMedia.WriteQueue

universe u

variable {V : Type u} [DecidableEq V]

namespace Write

theorem popped_popped (w : Write V) : w.popped.popped = w.popped := by
  by_cases h : w.operation = .update
  · have herase : (w.data.erase "id").erase "id" = w.data.erase "id" := by
      refine Finmap.ext_lookup fun k => ?_
      by_cases hk : k = "id"
      · rw [hk, Finmap.lookup_erase, Finmap.lookup_erase]
      · rw [Finmap.lookup_erase_ne hk]
    simp [popped, h, herase]
  · simp [popped, h]

theorem popped_data_eq {w : Write V} :
    w.popped.data = w.data ↔ ¬ (w.operation = .update ∧ "id" ∈ w.data) := by
  by_cases h : w.operation = .update
  · have hpop : w.popped.data = w.data.erase "id" := by simp [popped, h]
    rw [hpop, and_iff_right h]
    constructor
    · intro he hid
      rw [← he] at hid
      exact Finmap.notMem_erase_self hid
    · intro hid
      refine Finmap.ext_lookup fun k => ?_
      by_cases hk : k = "id"
      · rw [hk, Finmap.lookup_erase, Finmap.lookup_eq_none.mpr hid]
      · rw [Finmap.lookup_erase_ne hk]
  · simp [popped, h]

theorem popped_eq {w : Write V} :
    w.popped = w ↔ ¬ (w.operation = .update ∧ "id" ∈ w.data) := by
  rw [← popped_data_eq]
  refine ⟨fun h => congrArg Write.data h, fun h => ?_⟩
  unfold popped at h ⊢
  split_ifs at h ⊢
  · exact congrArg (fun data => { w with data := data }) h
  · rfl

end Write

namespace WriteTask

/-- A later attempt uses the operation, the model and the data that were accepted, and
has the effect a first attempt would have, in every session. -/
structure SameWrite (models : Models V) (t : WriteTask V) : Prop where
  operation : t.write.operation = t.accepted.operation
  modelClass : t.write.modelClass = t.accepted.modelClass
  data : t.write.data = t.accepted.data
  effect : ∀ i fault s, executeSingleTask models i t.write fault s =
    executeSingleTask models i t.accepted fault s

/-- An executed UPDATE whose accepted data name an `id`. -/
def LostId (t : WriteTask V) : Prop :=
  t.accepted.operation = .update ∧ "id" ∈ t.accepted.data ∧ 0 < t.attempts

/-- The write is what is left of the accepted one after the attempts so far. -/
def Traced (t : WriteTask V) : Prop :=
  t.write = if t.attempts = 0 then t.accepted else t.accepted.popped

theorem Traced.sameWrite_iff {models : Models V} {t : WriteTask V} (h : t.Traced) :
    t.SameWrite models ↔ ¬ t.LostId := by
  have hdata : t.write.data = t.accepted.data ↔ ¬ t.LostId := by
    unfold Traced at h
    unfold LostId
    split_ifs at h with ha
    · simp [h, ha]
    · rw [h, Write.popped_data_eq]
      simp [Nat.pos_of_ne_zero ha]
  constructor
  · intro hsame
    exact hdata.mp hsame.data
  · intro hlost
    have hwrite : t.write = t.accepted := by
      unfold Traced at h
      split_ifs at h with ha
      · exact h
      · rw [h] at hdata ⊢
        exact Write.popped_eq.mpr (Write.popped_data_eq.mp (hdata.mpr hlost))
    exact ⟨by rw [hwrite], by rw [hwrite], by rw [hwrite], fun _ _ _ => by rw [hwrite]⟩

theorem Traced.step {t t' : WriteTask V} (h : t.Traced) (hw : WorkerWrite t t') : t'.Traced := by
  cases hw with
  | attempt =>
      have hpop : t.write.popped = t.accepted.popped := by
        unfold Traced at h
        split_ifs at h
        · rw [h]
        · rw [h, Write.popped_popped]
      exact hpop
  | succeed => exact h
  | fail => exact h
  | countRetry => exact h
  | raisePriority => exact h
  | commit => exact h

end WriteTask

namespace AsyncWriteQueue
variable {models : Models V} {q q' : AsyncWriteQueue V} {a : Action V}

/-- Every write is accounted for, and a task in the merge cache was never executed. -/
structure Traced (q : AsyncWriteQueue V) : Prop where
  object : ∀ (j : ℕ) (t : WriteTask V), q.objects[j]? = some t → t.Traced
  queued : ∀ j ∈ q.queue, j < q.objects.length
  inHand : ∀ w ∈ q.workers, ∀ j ∈ w.tasks, j < q.objects.length
  cached : ∀ e ∈ q.mergeCache, (∀ w ∈ q.workers, e.2 ∉ w.tasks) ∧
    ∀ t, q.objects[e.2]? = some t → t.attempts = 0

theorem traced_initial (maxQueueSize batchSize maxWorkers : ℕ) (db : String → Table V) :
    (initial maxQueueSize batchSize maxWorkers db).Traced := by
  constructor <;> simp [initial]

/-- A worker takes over tasks it already had or that left the merge cache. -/
theorem Traced.setWorker (h : q.Traced) {k : ℕ} {w : Worker}
    (hbound : ∀ j ∈ w.tasks, j < q.objects.length)
    (hcache : ∀ e ∈ q.mergeCache, e.2 ∉ w.tasks) : (q.setWorker k w).Traced := by
  have hset : ∀ w' ∈ (q.setWorker k w).workers, w' ∈ q.workers ∨ w' = w := by
    intro w' hw'
    exact List.mem_or_eq_of_mem_set hw'
  refine ⟨h.object, h.queued, fun w' hw' => ?_, fun e he => ⟨fun w' hw' => ?_, (h.cached e he).2⟩⟩
  · rcases hset w' hw' with hw' | rfl
    · exact h.inHand w' hw'
    · exact hbound
  · rcases hset w' hw' with hw' | rfl
    · exact (h.cached e he).1 w' hw'
    · exact hcache e he

theorem Traced.evolve {is : List ℕ} (h : q.Traced) (he : Evolves is q q')
    (hbound : ∀ j ∈ is, j < q.objects.length) (hcache : ∀ e ∈ q.mergeCache, e.2 ∉ is) :
    q'.Traced := by
  constructor
  · intro j t' ht'
    obtain ⟨t, ht, hw, -⟩ := he.object_of ht'
    exact hw.rec (h.object j t ht) fun _ hstep ih => ih.step hstep
  · intro j hj
    rw [he.length]
    exact (he.queue j hj).elim (h.queued j) (hbound j)
  · rw [he.workers, he.length]
    exact h.inHand
  · rw [he.mergeCache, he.workers]
    intro e hmem
    refine ⟨(h.cached e hmem).1, fun t' ht' => ?_⟩
    obtain ⟨t, ht, -, hkeep⟩ := he.object_of ht'
    rw [hkeep (hcache e hmem)]
    exact (h.cached e hmem).2 t ht

theorem Traced.created (h : q.Traced) (sub : Submission V) : (q.created sub).Traced := by
  have hlen : (q.created sub).objects.length = q.objects.length + 1 := by
    simp [AsyncWriteQueue.created]
  refine ⟨fun j t ht => ?_, fun j hj => ?_, fun w hw j hj => ?_, fun e he => ⟨?_, fun t ht => ?_⟩⟩
  · rcases getElem?_concat ht with ht | ⟨-, rfl⟩
    · exact h.object j t ht
    · rfl
  · have hlt := h.queued j hj
    omega
  · have hlt := h.inHand w hw j hj
    omega
  · exact (h.cached e he).1
  · rcases getElem?_concat ht with ht | ⟨-, rfl⟩
    · exact (h.cached e he).2 t ht
    · rfl

/-- The new object is in no hand yet. -/
theorem Traced.cache (h : q.Traced) (sub : Submission V) : (q.cached sub).Traced := by
  have hcreated := h.created sub
  refine ⟨hcreated.object, hcreated.queued, hcreated.inHand, fun e he => ?_⟩
  rcases List.mem_append.mp he with he | he
  · exact hcreated.cached e he
  · obtain ⟨key, -, rfl⟩ : ∃ key, sub.key = some key ∧ (key, q.objects.length) = e := by
      simpa using he
    refine ⟨fun w hw hj => absurd (h.inHand w hw _ hj) (lt_irrefl _), fun t ht => ?_⟩
    rcases getElem?_concat ht with ht | ⟨-, rfl⟩
    · rw [List.getElem?_eq_none le_rfl] at ht
      cases ht
    · rfl

/-- A change of one object that keeps its account and its number of attempts. -/
theorem Traced.modify (h : q.Traced) {i : ℕ} {f : WriteTask V → WriteTask V}
    (hf : ∀ t, q.objects[i]? = some t → (f t).Traced ∧ (f t).attempts = t.attempts) :
    (q.modify i f).Traced := by
  have hback : ∀ (j : ℕ) (t' : WriteTask V), (q.modify i f).objects[j]? = some t' →
      ∃ t, q.objects[j]? = some t ∧ t'.Traced ∧ t'.attempts = t.attempts := by
    intro j t' ht'
    rw [AsyncWriteQueue.modify, List.getElem?_modify] at ht'
    obtain ⟨t, ht, rfl⟩ := Option.map_eq_some_iff.mp ht'
    by_cases hij : i = j
    · subst hij
      exact ⟨t, ht, by simpa using hf t ht⟩
    · exact ⟨t, ht, by simpa [hij] using h.object j t ht⟩
  have hlen : (q.modify i f).objects.length = q.objects.length := List.length_modify _ _ _
  refine ⟨fun j t ht => ?_, fun j hj => ?_, fun w hw j hj => ?_, fun e he => ⟨?_, fun t ht => ?_⟩⟩
  · obtain ⟨-, -, ht, -⟩ := hback j t ht
    exact ht
  · exact hlen ▸ h.queued j hj
  · exact hlen ▸ h.inHand w hw j hj
  · exact (h.cached e he).1
  · obtain ⟨t₀, ht₀, -, ha⟩ := hback e.2 t ht
    rw [ha]
    exact (h.cached e he).2 t₀ ht₀

theorem Traced.submit (h : q.Traced) (sub : Submission V) : (q.submit sub).1.Traced := by
  have hout := submitted q sub
  generalize q.submit sub = out at hout ⊢
  cases hout with
  | notRunning => exact h
  | @merged key j _ _ hlook =>
      have hmem : (key, j) ∈ q.mergeCache := by
        obtain ⟨l₁, l₂, he, -⟩ := List.lookup_eq_some_iff.mp hlook
        simp [he]
      have hcreated := h.created sub
      have hmerged : ((q.created sub).modify j fun t => t.merge sub.write.data).Traced := by
        refine hcreated.modify fun t ht => ⟨?_, rfl⟩
        have hzero : t.attempts = 0 := (hcreated.cached _ hmem).2 t ht
        have hwrite : t.write = t.accepted := by
          have ht := hcreated.object j t ht
          rwa [WriteTask.Traced, if_pos hzero] at ht
        have hkept : (t.merge sub.write.data).write = (t.merge sub.write.data).accepted := by
          simp only [WriteTask.merge, hwrite]
        exact hkept.trans (if_pos hzero).symm
      exact ⟨hmerged.object, hmerged.queued, hmerged.inHand, hmerged.cached⟩
  | full => exact h.cache sub
  | accepted =>
      have hcached := h.cache sub
      have hmodify : ((q.cached sub).modify q.objects.length fun t =>
          { t with enqueued := true }).Traced :=
        hcached.modify fun t ht => ⟨hcached.object _ t ht, rfl⟩
      refine ⟨hmodify.object, fun j hj => ?_, hmodify.inHand, hmodify.cached⟩
      have hlen : ((q.cached sub).enqueued q.objects.length).objects.length =
          q.objects.length + 1 := by
        simp [enqueued, AsyncWriteQueue.modify, AsyncWriteQueue.push, AsyncWriteQueue.cached,
          AsyncWriteQueue.created]
      have hlt : j < q.objects.length + 1 := by
        rcases (List.mem_orderedInsert _).mp hj with rfl | hj
        · omega
        · exact (h.queued j hj).trans (Nat.lt_succ_self _)
      exact hlen ▸ hlt

theorem Traced.step (h : q.Traced) (hs : q.step models a = some q') : q'.Traced := by
  cases stepped hs with
  | start =>
      unfold startWorkers
      split_ifs
      · exact h
      · have hnew : ∀ w ∈ q.workers ++ List.replicate q.maxWorkers .looping,
            w ∈ q.workers ∨ w = .looping := by
          intro w hw
          exact (List.mem_append.mp hw).imp_right List.eq_of_mem_replicate
        refine ⟨h.object, h.queued, fun w hw => ?_, fun e he => ⟨fun w hw => ?_, (h.cached e he).2⟩⟩
        · rcases hnew w hw with hw | rfl
          · exact h.inHand w hw
          · simp [Worker.tasks]
        · rcases hnew w hw with hw | rfl
          · exact (h.cached e he).1 w hw
          · simp [Worker.tasks]
  | stop => exact ⟨h.object, h.queued, h.inHand, h.cached⟩
  | clear => exact ⟨h.object, by simp [clearQueue], h.inHand, by simp [clearQueue]⟩
  | submit sub => exact h.submit sub
  | enter _ =>
      split_ifs
      · exact h.setWorker (by simp [Worker.tasks]) (by simp [Worker.tasks])
      · exact h.setWorker (by simp [Worker.tasks]) (by simp [Worker.tasks])
  | @pop k tasks i rest hk hq _ =>
      have hmem := List.mem_of_getElem? hk
      -- the popped task leaves the cache before the worker holds it
      have hrest : ({ q with
          queue := rest
          mergeCache := q.mergeCache.filter fun e => e.2 ≠ i } : AsyncWriteQueue V).Traced := by
        refine ⟨h.object, fun j hj => h.queued j (hq ▸ List.mem_cons_of_mem i hj), h.inHand,
          fun e he => h.cached e (List.mem_of_mem_filter he)⟩
      refine hrest.setWorker (k := k) (w := .collecting (tasks ++ [i])) (fun j hj => ?_)
        fun e he hj => ?_
      · rcases List.mem_append.mp hj with hj | hj
        · exact h.inHand _ hmem j hj
        · rw [List.mem_singleton.mp hj]
          exact h.queued i (hq ▸ List.mem_cons_self)
      · obtain ⟨he, hne⟩ := List.mem_filter.mp he
        rcases List.mem_append.mp hj with hj | hj
        · exact (h.cached e he).1 _ hmem hj
        · exact of_decide_eq_true hne (List.mem_singleton.mp hj)
  | emptyBatch _ => exact h.setWorker (by simp [Worker.tasks]) (by simp [Worker.tasks])
  | @startBatch k tasks hk _ =>
      have hmem := List.mem_of_getElem? hk
      have hperm := grouped_perm (h.inHand _ hmem)
      refine h.setWorker (fun j hj => ?_) fun e he hj => ?_
      · exact h.inHand _ hmem j (hperm.mem_iff.mp hj)
      · exact (h.cached e he).1 _ hmem (hperm.mem_iff.mp hj)
  | @runGroup k model is rest faults commitFault hk =>
      have hmem := List.mem_of_getElem? hk
      have hsub : ∀ j ∈ is, j ∈ (Worker.executing ((model, is) :: rest)).tasks := by
        intro j hj
        simp [Worker.tasks, hj]
      have hrest : ∀ j ∈ (Worker.executing rest).tasks,
          j ∈ (Worker.executing ((model, is) :: rest)).tasks := by
        intro j hj
        rw [Worker.tasks, List.flatMap_cons]
        exact List.mem_append_right is hj
      have he : Evolves is q _ := .executeModelBatch models model faults commitFault
      have hq := h.evolve he (fun j hj => h.inHand _ hmem j (hsub j hj))
        fun e hcache hj => (h.cached e hcache).1 _ hmem (hsub _ hj)
      obtain ⟨ho, hqueue, hcache, w, hw, htasks⟩ := afterGroup_spec
        (q.executeModelBatch models model is faults commitFault) k rest
      have hset := hq.setWorker (k := k) (w := w) (fun j hj => ?_) fun e hcache hj => ?_
      · refine ⟨?_, ?_, ?_, ?_⟩
        · rw [ho]
          exact hset.object
        · rw [ho, hqueue]
          exact hset.queued
        · rw [ho, hw]
          exact hset.inHand
        · rw [ho, hcache, hw]
          exact hset.cached
      · rw [htasks] at hj
        rw [he.length]
        exact h.inHand _ hmem j (hrest j hj)
      · rw [htasks] at hj
        rw [he.mergeCache] at hcache
        exact (h.cached e hcache).1 _ hmem (hrest _ hj)

/-- Of every task, in every state: its attempts apply the same write exactly if it is not
an executed UPDATE with an `id`. -/
theorem same_write_iff {maxQueueSize batchSize maxWorkers : ℕ} {db : String → Table V}
    {as : List (Action V)}
    (hrun : PartialRun.exec (step models) (initial maxQueueSize batchSize maxWorkers db) as =
      some q) : ∀ t ∈ q.objects, t.SameWrite models ↔ ¬ t.LostId := by
  intro t ht
  have htraced : q.Traced := PartialRun.invariant_of_step (fun _ _ _ h hs => Traced.step h hs)
    (traced_initial maxQueueSize batchSize maxWorkers db) hrun
  obtain ⟨j, hj⟩ := List.mem_iff_getElem?.mp ht
  exact (htraced.object j t hj).sameWrite_iff

/-- The silent success: a retried UPDATE whose `id` was popped assigns nothing. -/
theorem retried_update_assigns_nothing {w : Write V} (hop : w.operation = .update) (i : ℕ)
    (fault : Option Fault) (s : Session V) :
    executeSingleTask models i w.popped fault s = ⟨w.popped, s.hold i, none⟩ := by
  have hpop : w.popped.operation = .update := by simp [Write.popped, hop]
  have hkey : models.key w.popped.data "id" = none := by
    simp [Write.popped, hop, Models.key, Finmap.lookup_erase]
  have htwice : { w.popped with data := w.popped.data.erase "id" } = w.popped := by
    have hidem := w.popped_popped
    rwa [Write.popped, if_pos hpop] at hidem
  have hexec : executeSingleTask models i w.popped fault s =
      executeUpdate models i w.popped fault s := by
    unfold executeSingleTask
    rw [hpop]
  rw [hexec, executeUpdate, hkey]
  exact congrArg (fun w' => Attempt.mk w' (s.hold i) none) htwice

end AsyncWriteQueue

/-- Models without hooks over natural numbers as column values; 0 stands for `None`. -/
def plainModels : Models ℕ where
  truthy v := v ≠ 0
  null := 0
  registered _ := true
  hasFileId _ := false
  constructorError _ _ := none
  createOrUpdate _ := none
  firstByFileId _ _ := none
  freshId rows := rows.keys.sup id + 1
  conflict := "UNIQUE constraint failed"

def kwargs (fields : List (String × ℕ)) : Data ℕ :=
  fields.foldr (fun e data => data.insert e.1 e.2) ∅

/-- One row of the model `Item`. -/
def oneItem (model : String) : Table ℕ :=
  if model = "Item" then (∅ : Table ℕ).insert 7 (kwargs [("name", 1)]) else ∅

/-- One worker takes one task and executes its group. -/
def oneBatch (faults : List (Option Fault)) (commitFault : Option String) : List (Action ℕ) :=
  [.enter 0, .pop 0, .startBatch 0, .runGroup 0 faults commitFault]

/-- A write whose first execution meets a locked database. -/
def lockedOnce (w : Write ℕ) : List (Action ℕ) :=
  [.start, .submit { write := w, callback := true }] ++
    oneBatch [some (.statement "database is locked")] none ++ oneBatch [] none

namespace AsyncWriteQueue

def cell (q : AsyncWriteQueue ℕ) (model : String) (id : ℕ) (column : String) : Option ℕ :=
  ((q.db model).lookup id).bind (Finmap.lookup column)

/-- A DELETE is repeated as it was accepted. -/
theorem delete_retried :
    ∃ q t, PartialRun.exec (step plainModels) (initial 10 10 1 oneItem)
        (lockedOnce ⟨.delete, "Item", kwargs [("id", 7)]⟩) = some q ∧ t ∈ q.objects ∧
      t.attempts = 2 ∧ t.SameWrite plainModels := by
  have hrun : (PartialRun.exec (step plainModels) (initial 10 10 1 oneItem)
      (lockedOnce ⟨.delete, "Item", kwargs [("id", 7)]⟩)).map
        (fun q => q.objects.map fun t => (t.attempts, t.accepted.operation)) =
      some [(2, .delete)] := by decide +kernel
  obtain ⟨q, hq, ht⟩ := Option.map_eq_some_iff.mp hrun
  obtain ⟨t, hobj, ht⟩ := List.map_eq_singleton_iff.mp ht
  have hmem : t ∈ q.objects := hobj ▸ List.mem_singleton_self t
  obtain ⟨hattempts, hop⟩ := Prod.mk.inj ht
  refine ⟨q, t, hq, hmem, hattempts, (same_write_iff hq t hmem).mpr fun hlost => ?_⟩
  rw [WriteTask.LostId, hop] at hlost
  cases hlost.1

/-- An UPDATE is not: the second execution is told a success and the row stays as it was. -/
theorem update_lost_on_retry :
    ∃ q t, PartialRun.exec (step plainModels) (initial 10 10 1 oneItem)
        (lockedOnce ⟨.update, "Item", kwargs [("id", 7), ("name", 5)]⟩) = some q ∧
      t ∈ q.objects ∧ t.told = [none] ∧ q.metrics.completedTasks = 1 ∧
      q.cell "Item" 7 "name" = some 1 ∧
      ¬ t.SameWrite plainModels := by
  have hrun : (PartialRun.exec (step plainModels) (initial 10 10 1 oneItem)
      (lockedOnce ⟨.update, "Item", kwargs [("id", 7), ("name", 5)]⟩)).map
        (fun q => (q.objects.map fun t => (t.told, decide ("id" ∈ t.write.data),
          decide ("id" ∈ t.accepted.data)), q.metrics.completedTasks, q.cell "Item" 7 "name")) =
      some ([([none], false, true)], 1, some 1) := by decide +kernel
  obtain ⟨q, hq, hout⟩ := Option.map_eq_some_iff.mp hrun
  obtain ⟨hobj, hout⟩ := Prod.mk.inj hout
  obtain ⟨t, hobj, ht⟩ := List.map_eq_singleton_iff.mp hobj
  obtain ⟨htold, ht⟩ := Prod.mk.inj ht
  obtain ⟨hwrite, haccepted⟩ := Prod.mk.inj ht
  obtain ⟨hcompleted, hrow⟩ := Prod.mk.inj hout
  refine ⟨q, t, hq, hobj ▸ List.mem_singleton_self t, htold, hcompleted, hrow, fun hsame => ?_⟩
  rw [hsame.data] at hwrite
  exact of_decide_eq_false hwrite (of_decide_eq_true haccepted)

end AsyncWriteQueue

end SmartMedia.WriteQueue
