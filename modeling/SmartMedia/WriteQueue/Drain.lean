import SmartMedia.WriteQueue.MergeCache

/-!
# Draining the queue without task failures

One worker takes the heap off in batches and executes them while nothing fails. What
this leaves in the database is said in terms of the writes alone: for each model, the
batches in order, each as one session over the writes of that model.
-/
set_option linter.unusedSectionVars false

namespace SmartMedia.WriteQueue

universe u

variable {V : Type u} [DecidableEq V]

/-- The session after these writes of tasks; `none` if one of them raises. -/
def runWrites (models : Models V) (s : Session V) : List (ℕ × Write V) → Option (Session V)
  | [] => some s
  | e :: ws =>
      match (executeSingleTask models e.1 e.2 none s).error with
      | none => runWrites models (executeSingleTask models e.1 e.2 none s).session ws
      | some _ => none

/-- The table that a group with these writes leaves; `none` if something raises. -/
def groupTable (models : Models V) (ws : List (ℕ × Write V)) (table : Table V) :
    Option (Table V) :=
  (runWrites models (Session.begin table) ws).bind fun s => (s.commit models none).toOption

namespace AsyncWriteQueue
variable {models : Models V} {q q' : AsyncWriteQueue V} {is : List ℕ} {i : ℕ}

/-- Nothing was retried and nothing has failed. -/
def NoFailures (q : AsyncWriteQueue V) : Prop :=
  ∀ t ∈ q.objects, t.retryCount = 0 ∧ t.failed = 0

/-- The writes of these tasks. -/
def writes (q : AsyncWriteQueue V) (is : List ℕ) : List (ℕ × Write V) :=
  is.filterMap fun i => (q.objects[i]?).map fun t => (i, t.write)

/-- A worker never takes a failure or a call back. -/
theorem workerWrite_grows {t t' : WriteTask V} (h : Relation.ReflTransGen WorkerWrite t t') :
    t.retryCount ≤ t'.retryCount ∧ t.failed ≤ t'.failed ∧ t'.callback = t.callback ∧
      (t.told ≠ [] → t'.told ≠ []) := by
  induction h with
  | refl => exact ⟨le_rfl, le_rfl, rfl, id⟩
  | tail _ hstep ih =>
      obtain ⟨hr, hf, hc, ht⟩ := ih
      cases hstep with
      | attempt => exact ⟨hr, hf, hc, ht⟩
      | succeed =>
          refine ⟨hr, hf, hc, fun h => ?_⟩
          simp only [WriteTask.succeed, WriteTask.tell]
          split_ifs
          · simp
          · exact ht h
      | fail =>
          refine ⟨hr, hf.trans (Nat.le_succ _), hc, fun h => ?_⟩
          simp only [WriteTask.fail, WriteTask.tell]
          split_ifs
          · simp
          · exact ht h
      | countRetry => exact ⟨hr.trans (Nat.le_succ _), hf, hc, ht⟩
      | raisePriority => exact ⟨hr, hf, hc, ht⟩
      | commit => exact ⟨hr, hf, hc, ht⟩

theorem NoFailures.of_evolves (h : q'.NoFailures) (he : Evolves is q q') : q.NoFailures := by
  intro t ht
  obtain ⟨j, hj⟩ := List.mem_iff_getElem?.mp ht
  obtain ⟨t', ht', hw, -⟩ := he.object hj
  obtain ⟨hr, hf, -, -⟩ := workerWrite_grows hw
  have hzero := h t' (List.mem_of_getElem? ht')
  omega

theorem not_noFailures_failTask (hi : i < q.objects.length) (e : String) :
    ¬ (q.failTask i e).NoFailures := by
  intro h
  have hobj := modify_object (List.getElem?_eq_getElem hi) fun t => t.fail e
  have hzero := (h _ (List.mem_of_getElem? hobj)).2
  simp [WriteTask.fail, WriteTask.tell] at hzero

theorem not_noFailures_retryTask (hi : i < q.objects.length) (e : String) :
    ¬ (q.retryTask i e).NoFailures := by
  intro h
  have hobj := modify_object (List.getElem?_eq_getElem hi) WriteTask.countRetry
  have hcount : ¬ (q.modify i WriteTask.countRetry).NoFailures := fun h => by
    have hzero := (h _ (List.mem_of_getElem? hobj)).1
    simp [WriteTask.countRetry] at hzero
  have hlen : i < (q.modify i WriteTask.countRetry).objects.length :=
    (List.getElem?_eq_some_iff.mp hobj).1
  unfold retryTask at h
  simp only [hobj] at h
  split_ifs at h
  · exact not_noFailures_failTask hlen e h
  · have hraised : Evolves [i] (q.modify i WriteTask.countRetry)
        (((q.modify i WriteTask.countRetry).modify i WriteTask.raisePriority).push i) :=
      (Evolves.modify List.mem_cons_self fun t _ => .raisePriority t).trans
      (Evolves.push List.mem_cons_self)
    exact hcount (h.of_evolves hraised)

/-- A task of a group that is not touched keeps its write. -/
theorem writes_congr (h : ∀ i ∈ is, q'.objects[i]? = q.objects[i]?) : q'.writes is = q.writes is := by
  unfold writes
  exact List.filterMap_congr fun i hi => by rw [h i hi]

/-- The callback of task `i` has been called, if it has one. -/
def Called (q : AsyncWriteQueue V) (i : ℕ) : Prop :=
  ∀ t, q.objects[i]? = some t → t.callback = true → t.told ≠ []

theorem Called.of_evolves (h : q.Called i) (he : Evolves is q q') : q'.Called i := by
  intro t' ht' hcall
  obtain ⟨t, ht, hw, -⟩ := he.object_of ht'
  obtain ⟨-, -, hc, htold⟩ := workerWrite_grows hw
  exact htold (h t ht (hc ▸ hcall))

theorem writes_cons {t : WriteTask V} (ht : q.objects[i]? = some t) (is : List ℕ) :
    q.writes (i :: is) = (i, t.write) :: q.writes is := by
  simp [writes, ht]

theorem NoFailures.modify (h : q.NoFailures) {f : WriteTask V → WriteTask V}
    (hf : ∀ t, (f t).retryCount = t.retryCount ∧ (f t).failed = t.failed) :
    (q.modify i f).NoFailures := by
  intro t' ht'
  obtain ⟨j, hj⟩ := List.mem_iff_getElem?.mp ht'
  rw [AsyncWriteQueue.modify, List.getElem?_modify] at hj
  obtain ⟨t, ht, rfl⟩ := Option.map_eq_some_iff.mp hj
  have hzero := h t (List.mem_of_getElem? ht)
  by_cases hij : i = j
  · simpa [hij, hf t] using hzero
  · simpa [hij] using hzero

/-- Without an exception the loop of a group leaves the session of its writes. -/
theorem runTasks_ok {s s' : Session V} (hq : q.NoFailures) (hnodup : is.Nodup)
    (hvalid : ∀ i ∈ is, i < q.objects.length)
    (h : runWrites models s (q.writes is) = some s') :
    (runTasks models q s is []).2 = s' ∧ (runTasks models q s is []).1.NoFailures ∧
      (runTasks models q s is []).1.queue = q.queue ∧ (runTasks models q s is []).1.db = q.db ∧
      ∀ i ∈ is, (runTasks models q s is []).1.Called i := by
  induction is generalizing q s with
  | nil =>
      obtain rfl : s = s' := Option.some.inj h
      exact ⟨rfl, hq, rfl, rfl, fun i hi => absurd hi List.not_mem_nil⟩
  | cons i is ih =>
      rw [List.nodup_cons] at hnodup
      rw [List.forall_mem_cons] at hvalid
      have ht := List.getElem?_eq_getElem hvalid.1
      generalize q.objects[i] = t at ht
      rw [writes_cons ht, runWrites] at h
      cases herr : (executeSingleTask models i t.write none s).error with
      | some e => simp [herr] at h
      | none =>
          simp only [herr] at h
          let q₁ := (q.modify i fun t' => t'.attempt (executeSingleTask models i t.write none
            s).write).completeTask i
          have hturn : runTask models q s i none =
              (q₁, (executeSingleTask models i t.write none s).session) := by
            simp only [runTask, ht, herr]
            rfl
          have hevolves : Evolves [i] q q₁ := by
            have hrun := Evolves.runTask (q := q) models s (List.mem_singleton_self i) none
            rwa [hturn] at hrun
          have hattempt := hq.modify (i := i) (f := fun t' => t'.attempt
            (executeSingleTask models i t.write none s).write) fun _ => ⟨rfl, rfl⟩
          have hq₁ : q₁.NoFailures :=
            hattempt.modify (i := i) (f := WriteTask.succeed) fun _ => ⟨rfl, rfl⟩
          have hcalled : q₁.Called i := by
            intro t' ht' hcall
            have hobj := modify_object (modify_object ht fun t' => t'.attempt
              (executeSingleTask models i t.write none s).write) WriteTask.succeed
            obtain rfl := Option.some.inj (hobj.symm.trans ht')
            have hcallback : t.callback = true := hcall
            simp [WriteTask.succeed, WriteTask.tell, WriteTask.attempt, hcallback]
          have huntouched : ∀ j ∈ is, q₁.objects[j]? = q.objects[j]? := by
            intro j hj
            refine hevolves.untouched fun hji => hnodup.1 ?_
            rwa [← List.mem_singleton.mp hji]
          have hlen : ∀ j ∈ is, j < q₁.objects.length := by
            intro j hj
            rw [hevolves.length]
            exact hvalid.2 j hj
          obtain ⟨hs, hno, hqueue, hdb, hall⟩ := ih hq₁ hnodup.2 hlen (writes_congr huntouched ▸ h)
          have hrun : runTasks models q s (i :: is) [] =
              runTasks models q₁ (executeSingleTask models i t.write none s).session is [] := by
            rw [runTasks, List.headD_nil, hturn]
            rfl
          rw [hrun]
          refine ⟨hs, hno, hqueue, hdb, fun j hj => ?_⟩
          rcases List.mem_cons.mp hj with rfl | hj
          · exact hcalled.of_evolves (Evolves.runTasks models _ is (List.Subset.refl is) [])
          · exact hall j hj

/-- An exception leaves a failure behind. -/
theorem runTasks_raised {s : Session V} (hnodup : is.Nodup)
    (hvalid : ∀ i ∈ is, i < q.objects.length) (h : runWrites models s (q.writes is) = none) :
    ¬ (runTasks models q s is []).1.NoFailures := by
  induction is generalizing q s with
  | nil => cases h
  | cons i is ih =>
      rw [List.nodup_cons] at hnodup
      rw [List.forall_mem_cons] at hvalid
      have ht := List.getElem?_eq_getElem hvalid.1
      generalize q.objects[i] = t at ht
      have hevolves := Evolves.runTask (q := q) models s (List.mem_singleton_self i) none
      have hrun : runTasks models q s (i :: is) [] =
          runTasks models (runTask models q s i none).1 (runTask models q s i none).2 is [] := rfl
      rw [hrun]
      rw [writes_cons ht, runWrites] at h
      cases herr : (executeSingleTask models i t.write none s).error with
      | some e =>
          have hturn : (runTask models q s i none).1 = (q.modify i fun t' => t'.attempt
              (executeSingleTask models i t.write none s).write).retryTask i e := by
            simp only [runTask, ht, herr]
          have hlen : i < (q.modify i fun t' => t'.attempt
              (executeSingleTask models i t.write none s).write).objects.length := by
            rw [modify, List.length_modify]
            exact hvalid.1
          intro hno
          have hfirst := hno.of_evolves (Evolves.runTasks models _ is (List.Subset.refl is) [])
          rw [hturn] at hfirst
          exact not_noFailures_retryTask hlen e hfirst
      | none =>
          simp only [herr] at h
          have hsession : (runTask models q s i none).2 =
              (executeSingleTask models i t.write none s).session := by
            simp only [runTask, ht, herr]
          rw [hsession]
          refine ih hnodup.2 (fun j hj => hevolves.length ▸ hvalid.2 j hj) ?_
          rw [writes_congr fun j hj => hevolves.untouched fun hji => hnodup.1 ?_]
          · exact h
          · rwa [← List.mem_singleton.mp hji]

theorem markCommitted_frame (q : AsyncWriteQueue V) (js : List ℕ) :
    (q.markCommitted js).queue = q.queue ∧ (q.markCommitted js).db = q.db := by
  induction js generalizing q with
  | nil => exact ⟨rfl, rfl⟩
  | cons j js ih => exact ih (q.modify j WriteTask.commit)

theorem NoFailures.markCommitted (h : q.NoFailures) (js : List ℕ) :
    (q.markCommitted js).NoFailures := by
  induction js generalizing q with
  | nil => exact h
  | cons j js ih => exact ih (h.modify fun _ => ⟨rfl, rfl⟩)

/-- A group whose writes go through: its table is committed and its callbacks are called. -/
theorem executeModelBatch_ok {model : String} {table : Table V} (hq : q.NoFailures)
    (hnodup : is.Nodup) (hvalid : ∀ i ∈ is, i < q.objects.length)
    (hreg : models.registered model = true)
    (h : groupTable models (q.writes is) (q.db model) = some table) :
    (q.executeModelBatch models model is [] none).NoFailures ∧
      (q.executeModelBatch models model is [] none).queue = q.queue ∧
      (q.executeModelBatch models model is [] none).db = Function.update q.db model table ∧
      ∀ i ∈ is, (q.executeModelBatch models model is [] none).Called i := by
  obtain ⟨s, hs, hcommit⟩ := Option.bind_eq_some_iff.mp h
  obtain ⟨hsession, hno, hqueue, hdb, hcalled⟩ := runTasks_ok hq hnodup hvalid hs
  have htable : s.commit models none = .ok table := by
    cases hc : s.commit models none with
    | error e => simp [hc, Except.toOption] at hcommit
    | ok table' =>
        simp only [hc, Except.toOption, Option.some.injEq] at hcommit
        rw [hcommit]
  have hsame : ∀ i ∈ is, ((runTasks models q (Session.begin (q.db model)) is []).1.markCommitted
      (s.committed ++ s.held)).Called i := by
    intro i hi
    exact (hcalled i hi).of_evolves (Evolves.markCommitted _ fun _ h => h)
  obtain ⟨hmqueue, hmdb⟩ := markCommitted_frame
    (runTasks models q (Session.begin (q.db model)) is []).1 (s.committed ++ s.held)
  unfold executeModelBatch closeSession
  simp only [hreg, if_true, hsession, htable]
  refine ⟨hno.markCommitted _, hmqueue.trans hqueue, ?_, hsame⟩
  simp only [setTable, hmdb, hdb]

/-- A group in which something raises leaves a failure behind. -/
theorem executeModelBatch_raised {model : String} (hne : is ≠ []) (hnodup : is.Nodup)
    (hvalid : ∀ i ∈ is, i < q.objects.length)
    (h : models.registered model = true → groupTable models (q.writes is) (q.db model) = none) :
    ¬ (q.executeModelBatch models model is [] none).NoFailures := by
  obtain ⟨i, rest, rfl⟩ := List.exists_cons_of_ne_nil hne
  unfold executeModelBatch
  split_ifs with hreg
  · intro hno
    have hsession : ∀ j ∈ (runTasks models q (Session.begin (q.db model)) (i :: rest) []).2.tasks,
        j ∈ i :: rest := fun j hj =>
      (Evolves.runTasks_session models _ _ [] j hj).resolve_left List.not_mem_nil
    have hloop := hno.of_evolves (Evolves.closeSession models hsession model none)
    have hevolves := Evolves.runTasks (q := q) models (Session.begin (q.db model)) (i :: rest)
      (fun _ h => h) []
    cases hs : runWrites models (Session.begin (q.db model)) (q.writes (i :: rest)) with
    | none => exact runTasks_raised hnodup hvalid hs hloop
    | some s =>
        have hs' := (runTasks_ok (hloop.of_evolves hevolves) hnodup hvalid hs).1
        have hraise := h hreg
        rw [groupTable, hs, Option.bind_some] at hraise
        cases hcommit : s.commit models none with
        | ok table => simp [hcommit, Except.toOption] at hraise
        | error e =>
            simp only [closeSession, hs', hcommit] at hno
            have hfirst := hno.of_evolves (Evolves.foldl
              (fun q j hj => Evolves.retryTask hj e) rest (List.subset_cons_self i rest))
            refine not_noFailures_retryTask ?_ e hfirst
            have hmark := (Evolves.markCommitted (q := (runTasks models q
              (Session.begin (q.db model)) (i :: rest) []).1) s.committed fun _ h => h).length
            exact (hvalid i List.mem_cons_self).trans_eq (hevolves.length.symm.trans hmark.symm)
  · intro hno
    have hfirst := hno.of_evolves (Evolves.foldl
      (fun q j hj => Evolves.failTask hj _) rest (List.subset_cons_self i rest))
    exact not_noFailures_failTask (hvalid i List.mem_cons_self) _ hfirst

@[simp] theorem afterGroup_objects (q : AsyncWriteQueue V) (k : ℕ) (rest : List (String × List ℕ)) :
    (q.afterGroup k rest).objects = q.objects := by
  cases rest <;> rfl

@[simp] theorem afterGroup_queue (q : AsyncWriteQueue V) (k : ℕ) (rest : List (String × List ℕ)) :
    (q.afterGroup k rest).queue = q.queue := by
  cases rest <;> rfl

@[simp] theorem afterGroup_db (q : AsyncWriteQueue V) (k : ℕ) (rest : List (String × List ℕ)) :
    (q.afterGroup k rest).db = q.db := by
  cases rest <;> rfl

/-- The first worker executes the groups of its batch without faults. -/
def executeGroups (models : Models V) (q : AsyncWriteQueue V) :
    List (String × List ℕ) → AsyncWriteQueue V
  | [] => q
  | g :: groups =>
      executeGroups models ((q.executeModelBatch models g.1 g.2 [] none).afterGroup 0 groups) groups

/-- The objects after the groups; where the worker stands is not spoken of. -/
theorem evolves_executeGroups (models : Models V) (groups : List (String × List ℕ)) :
    Evolves (groups.flatMap Prod.snd) q { q.executeGroups models groups with workers := q.workers } := by
  induction groups generalizing q with
  | nil => exact .refl
  | cons g groups ih =>
      have hfirst : Evolves g.2 q (q.executeModelBatch models g.1 g.2 [] none) :=
        .executeModelBatch models g.1 [] none
      obtain ⟨hobjects, hqueue, hcache, -⟩ := afterGroup_spec
        (q.executeModelBatch models g.1 g.2 [] none) 0 groups
      have hrest := @ih ((q.executeModelBatch models g.1 g.2 [] none).afterGroup 0 groups)
      have hnext : Evolves (groups.flatMap Prod.snd) (q.executeModelBatch models g.1 g.2 [] none)
          { q.executeGroups models (g :: groups) with workers := q.workers } := by
        refine ⟨?_, ?_, ?_, ?_, hfirst.workers.symm⟩
        · rw [← hobjects]
          exact hrest.object
        · rw [← hobjects]
          exact hrest.length
        · rw [← hqueue]
          exact hrest.queue
        · rw [← hcache]
          exact hrest.mergeCache
      rw [List.flatMap_cons]
      exact (hfirst.mono (List.subset_append_left _ _)).trans
        (hnext.mono (List.subset_append_right _ _))

/-- The model is registered and the group's writes go through. -/
def GroupPasses (models : Models V) (q : AsyncWriteQueue V) (g : String × List ℕ) : Prop :=
  models.registered g.1 = true ∧ ∃ table, groupTable models (q.writes g.2) (q.db g.1) = some table

section
variable {g : String × List ℕ} {groups : List (String × List ℕ)}

/-- A group does not meddle with the groups of other models. -/
theorem groupTable_after {table : Table V} (hg : ∀ i ∈ g.2, i ∉ is) {model : String}
    (hmodel : g.1 ≠ model) (hdb : (q.executeModelBatch models model is [] none).db =
      Function.update q.db model table) :
    groupTable models (((q.executeModelBatch models model is [] none).afterGroup 0 groups).writes g.2)
        (((q.executeModelBatch models model is [] none).afterGroup 0 groups).db g.1) =
      groupTable models (q.writes g.2) (q.db g.1) := by
  have hevolves : Evolves is q _ := .executeModelBatch models model [] none
  have hsame : ∀ i ∈ g.2, ((q.executeModelBatch models model is [] none).afterGroup 0
      groups).objects[i]? = q.objects[i]? := by
    intro i hi
    rw [afterGroup_objects]
    exact hevolves.untouched (hg i hi)
  rw [writes_congr hsame, afterGroup_db, hdb, Function.update_of_ne hmodel]

theorem executeGroups_ok (hq : q.NoFailures) (hkeys : (groups.map Prod.fst).Nodup)
    (hnodup : (groups.flatMap Prod.snd).Nodup)
    (hvalid : ∀ i ∈ groups.flatMap Prod.snd, i < q.objects.length)
    (h : ∀ g ∈ groups, GroupPasses models q g) :
    (q.executeGroups models groups).NoFailures ∧
      (q.executeGroups models groups).queue = q.queue ∧
      (∀ g ∈ groups, groupTable models (q.writes g.2) (q.db g.1) =
        some ((q.executeGroups models groups).db g.1)) ∧
      (∀ m ∉ groups.map Prod.fst, (q.executeGroups models groups).db m = q.db m) ∧
      ∀ i ∈ groups.flatMap Prod.snd, (q.executeGroups models groups).Called i := by
  induction groups generalizing q with
  | nil => exact ⟨hq, rfl, by simp, fun _ _ => rfl, by simp⟩
  | cons g groups ih =>
      rw [List.map_cons, List.nodup_cons] at hkeys
      rw [List.flatMap_cons] at hnodup hvalid
      rw [List.forall_mem_cons] at h
      obtain ⟨hreg, table, htable⟩ := h.1
      obtain ⟨hno, hqueue, hdb, hcalled⟩ := executeModelBatch_ok hq
        (List.nodup_append.mp hnodup).1 (fun i hi => hvalid i (List.mem_append_left _ hi)) hreg htable
      have hevolves : Evolves g.2 q _ := .executeModelBatch models g.1 [] none
      have hafter : ∀ g' ∈ groups, groupTable models
          (((q.executeModelBatch models g.1 g.2 [] none).afterGroup 0 groups).writes g'.2)
          (((q.executeModelBatch models g.1 g.2 [] none).afterGroup 0 groups).db g'.1) =
            groupTable models (q.writes g'.2) (q.db g'.1) := by
        intro g' hg'
        refine groupTable_after (fun i hi hig => ?_) (fun he => ?_) hdb
        · exact (List.nodup_append.mp hnodup).2.2 i hig i
            (List.mem_flatMap.mpr ⟨g', hg', hi⟩) rfl
        · exact hkeys.1 (he ▸ List.mem_map_of_mem hg')
      have hrun : q.executeGroups models (g :: groups) =
          ((q.executeModelBatch models g.1 g.2 [] none).afterGroup 0 groups).executeGroups models
            groups := rfl
      obtain ⟨hno', hqueue', htables, hothers, hcalled'⟩ :=
        @ih ((q.executeModelBatch models g.1 g.2 [] none).afterGroup 0 groups)
        (by rw [NoFailures, afterGroup_objects]; exact hno) hkeys.2
        (List.nodup_append.mp hnodup).2.1
        (fun i hi => by
          rw [afterGroup_objects, hevolves.length]
          exact hvalid i (List.mem_append_right _ hi))
        (fun g' hg' => ⟨(h.2 g' hg').1, (hafter g' hg').symm ▸ (h.2 g' hg').2⟩)
      rw [afterGroup_queue] at hqueue'
      rw [hrun]
      refine ⟨hno', hqueue'.trans hqueue, fun g' hg' => ?_, fun m hm => ?_, fun i hi => ?_⟩
      · rcases List.mem_cons.mp hg' with rfl | hg'
        · rw [hothers _ hkeys.1, afterGroup_db, hdb, Function.update_self, htable]
        · rw [← hafter g' hg', htables g' hg']
      · rw [List.map_cons, List.mem_cons, not_or] at hm
        rw [hothers m hm.2, afterGroup_db, hdb, Function.update_of_ne hm.1]
      · rw [List.flatMap_cons, List.mem_append] at hi
        rcases hi with hi | hi
        · have hcalled₁ : ((q.executeModelBatch models g.1 g.2 [] none).afterGroup 0
              groups).Called i := by
            rw [Called, afterGroup_objects]
            exact hcalled i hi
          have hlast := hcalled₁.of_evolves (evolves_executeGroups models groups)
          exact hlast
        · exact hcalled' i hi

theorem executeGroups_raised (hkeys : (groups.map Prod.fst).Nodup)
    (hnodup : (groups.flatMap Prod.snd).Nodup)
    (hvalid : ∀ i ∈ groups.flatMap Prod.snd, i < q.objects.length)
    (hne : ∀ g ∈ groups, g.2 ≠ []) (hg : g ∈ groups) (h : ¬ GroupPasses models q g) :
    ¬ (q.executeGroups models groups).NoFailures := by
  induction groups generalizing q with
  | nil => cases hg
  | cons g' groups ih =>
      rw [List.map_cons, List.nodup_cons] at hkeys
      rw [List.flatMap_cons] at hnodup hvalid
      rw [List.forall_mem_cons] at hne
      have hevolves : Evolves g'.2 q _ := .executeModelBatch models g'.1 [] none
      have hvalid' : ∀ i ∈ g'.2, i < q.objects.length := fun i hi =>
        hvalid i (List.mem_append_left _ hi)
      have hrun : q.executeGroups models (g' :: groups) =
          ((q.executeModelBatch models g'.1 g'.2 [] none).afterGroup 0 groups).executeGroups models
            groups := rfl
      rw [hrun]
      intro hno
      have hbetween : ((q.executeModelBatch models g'.1 g'.2 [] none).afterGroup 0
          groups).NoFailures := by
        refine NoFailures.of_evolves (fun t ht => ?_) (evolves_executeGroups models groups)
        exact hno t ht
      have hfirst : (q.executeModelBatch models g'.1 g'.2 [] none).NoFailures := by
        rw [NoFailures, afterGroup_objects] at hbetween
        exact hbetween
      by_cases hpass : GroupPasses models q g'
      · obtain ⟨hreg, table, htable⟩ := hpass
        obtain ⟨-, -, hdb, -⟩ := executeModelBatch_ok (hfirst.of_evolves hevolves)
          (List.nodup_append.mp hnodup).1 hvalid' hreg htable
        rcases List.mem_cons.mp hg with rfl | hg
        · exact h ⟨hreg, table, htable⟩
        · refine ih hkeys.2 (List.nodup_append.mp hnodup).2.1 (fun i hi => ?_) hne.2 hg ?_ hno
          · rw [afterGroup_objects, hevolves.length]
            exact hvalid i (List.mem_append_right _ hi)
          · unfold GroupPasses
            rw [groupTable_after (fun i hi hig => ?_) (fun he => ?_) hdb]
            · exact h
            · exact (List.nodup_append.mp hnodup).2.2 i hig i (List.mem_flatMap.mpr ⟨g, hg, hi⟩) rfl
            · exact hkeys.1 (he ▸ List.mem_map_of_mem hg)
      · refine executeModelBatch_raised hne.1 (List.nodup_append.mp hnodup).1 hvalid'
          (fun hreg => ?_) hfirst
        cases htable : groupTable models (q.writes g'.2) (q.db g'.1) with
        | none => rfl
        | some table => exact absurd ⟨hreg, table, htable⟩ hpass

end

/-- What a batch with these writes does to the table of a model. -/
def modelStep (models : Models V) (m : String) (table : Table V) (ws : List (ℕ × Write V)) :
    Option (Table V) :=
  let ws := ws.filter fun e => e.2.modelClass = m
  if ws.isEmpty then some table
  else if models.registered m then groupTable models ws table else none

/-- The tasks of a batch that write to a model. -/
def ofModel (q : AsyncWriteQueue V) (m : String) (is : List ℕ) : List ℕ :=
  is.filter fun i => (q.objects[i]?).map (fun t => t.write.modelClass) = some m

theorem writes_ofModel (q : AsyncWriteQueue V) (m : String) (is : List ℕ) :
    q.writes (q.ofModel m is) = (q.writes is).filter fun e => e.2.modelClass = m := by
  induction is with
  | nil => rfl
  | cons i is ih =>
      unfold ofModel writes at ih ⊢
      cases ht : q.objects[i]? with
      | none => simpa [ht] using ih
      | some t =>
          by_cases hm : t.write.modelClass = m
          · simpa [ht, hm] using ih
          · simpa [ht, hm] using ih

theorem lookup_addToGroup (model m : String) (i : ℕ) (groups : List (String × List ℕ)) :
    (addToGroup model i groups).lookup m =
      if m = model then some ((groups.lookup m).getD [] ++ [i]) else groups.lookup m := by
  induction groups with
  | nil =>
      by_cases hm : m = model
      · simp [addToGroup, hm]
      · simp [addToGroup, hm]
  | cons g groups ih =>
      obtain ⟨m', js⟩ := g
      unfold addToGroup
      by_cases hm' : m' = model
      · rw [if_pos hm']
        by_cases hm : m = model
        · simp [hm, hm']
        · have hne : (m == m') = false := beq_eq_false_iff_ne.mpr (hm'.symm ▸ hm)
          simp [List.lookup_cons, hm, hne]
      · rw [if_neg hm', List.lookup_cons, List.lookup_cons]
        by_cases hmm : m = m'
        · subst hmm
          simp [hm']
        · have hne : (m == m') = false := beq_eq_false_iff_ne.mpr hmm
          simp only [hne]
          exact ih

theorem keys_addToGroup (model : String) (i : ℕ) (groups : List (String × List ℕ)) :
    (addToGroup model i groups).map Prod.fst =
      if model ∈ groups.map Prod.fst then groups.map Prod.fst
      else groups.map Prod.fst ++ [model] := by
  induction groups with
  | nil => simp [addToGroup]
  | cons g groups ih =>
      unfold addToGroup
      by_cases hm : g.1 = model
      · simp [hm]
      · rw [if_neg hm, List.map_cons, List.map_cons, ih]
        have hne : model ≠ g.1 := fun h => hm h.symm
        by_cases hmem : model ∈ groups.map Prod.fst
        · simp only [hmem, List.mem_cons, or_true, if_true]
        · simp only [hmem, hne, List.mem_cons, or_self, if_false, List.cons_append]

theorem mem_of_lookup {groups : List (String × List ℕ)} {m : String} {js : List ℕ}
    (h : groups.lookup m = some js) : (m, js) ∈ groups := by
  obtain ⟨l₁, l₂, rfl, -⟩ := List.lookup_eq_some_iff.mp h
  simp

theorem lookup_of_mem {groups : List (String × List ℕ)} {m : String} {js : List ℕ}
    (hkeys : (groups.map Prod.fst).Nodup) (h : (m, js) ∈ groups) : groups.lookup m = some js := by
  obtain ⟨l₁, l₂, rfl⟩ := List.append_of_mem h
  refine List.lookup_eq_some_iff.mpr ⟨l₁, l₂, rfl, fun p hp => ?_⟩
  rw [List.map_append, List.nodup_append] at hkeys
  simpa using (hkeys.2.2 p.1 (List.mem_map_of_mem hp) m (by simp)).symm

/-- The groups of a batch are, once for each model, the tasks of that model in order. -/
theorem grouped_spec (h : ∀ i ∈ is, i < q.objects.length) :
    ((q.grouped is).map Prod.fst).Nodup ∧
      ∀ m, (q.grouped is).lookup m = if q.ofModel m is = [] then none else some (q.ofModel m is) := by
  have hfold : ∀ (done : List ℕ) (groups : List (String × List ℕ)), (groups.map Prod.fst).Nodup →
      (∀ m, groups.lookup m = if q.ofModel m done = [] then none else some (q.ofModel m done)) →
      ((is.foldl q.groupTask groups).map Prod.fst).Nodup ∧
        ∀ m, (is.foldl q.groupTask groups).lookup m =
          if q.ofModel m (done ++ is) = [] then none else some (q.ofModel m (done ++ is)) := by
    induction is with
    | nil =>
        intro done groups hkeys hlook
        rw [List.append_nil]
        exact ⟨hkeys, hlook⟩
    | cons i is ih =>
        intro done groups hkeys hlook
        rw [List.forall_mem_cons] at h
        have ht := List.getElem?_eq_getElem h.1
        generalize q.objects[i] = t at ht
        have hstep : q.groupTask groups i = addToGroup t.write.modelClass i groups := by
          rw [groupTask, ht]
        have hnext := ih h.2 (done ++ [i]) (q.groupTask groups i) ?_ fun m => ?_
        · rw [List.append_assoc] at hnext
          exact hnext
        · rw [hstep, keys_addToGroup]
          split_ifs with hmem
          · exact hkeys
          · exact (List.nodup_append.mpr ⟨hkeys, List.nodup_singleton _,
              fun a ha b hb hab => hmem (List.mem_singleton.mp hb ▸ hab ▸ ha)⟩)
        · rw [hstep, lookup_addToGroup, hlook]
          by_cases hm : m = t.write.modelClass
          · have hof : q.ofModel m (done ++ [i]) = q.ofModel m done ++ [i] := by
              simp [ofModel, ht, hm]
            rw [if_pos hm, hof]
            split_ifs with h₁ h₂
            · simp at h₂
            · simp [h₁]
            · simp_all
            · rfl
          · have hof : q.ofModel m (done ++ [i]) = q.ofModel m done := by
              simp [ofModel, ht, Ne.symm hm]
            rw [if_neg hm, hof]
  exact hfold [] [] List.nodup_nil fun _ => rfl

/-- `_execute_batch` of the first worker, without faults. -/
def executeBatch (models : Models V) (q : AsyncWriteQueue V) (is : List ℕ) : AsyncWriteQueue V :=
  (q.setWorker 0 (.executing (q.grouped is))).executeGroups models (q.grouped is)

theorem evolves_executeBatch (models : Models V) (h : ∀ i ∈ is, i < q.objects.length) :
    Evolves is q { q.executeBatch models is with workers := q.workers } := by
  have hgroups := (evolves_executeGroups (q := q.setWorker 0 (.executing (q.grouped is))) models
    (q.grouped is)).mono (grouped_perm h).subset
  exact ⟨hgroups.object, hgroups.length, hgroups.queue, hgroups.mergeCache, rfl⟩

theorem modelStep_eq (m : String) (h : ∀ i ∈ is, i < q.objects.length) :
    modelStep models m (q.db m) (q.writes is) =
      if q.ofModel m is = [] then some (q.db m)
      else if models.registered m then groupTable models (q.writes (q.ofModel m is)) (q.db m)
      else none := by
  have hempty : (q.writes (q.ofModel m is)).isEmpty = true ↔ q.ofModel m is = [] := by
    cases hof : q.ofModel m is with
    | nil => simp [writes]
    | cons i rest =>
        have hi : i ∈ is := List.mem_of_mem_filter (hof ▸ List.mem_cons_self : i ∈ q.ofModel m is)
        simp [writes_cons (List.getElem?_eq_getElem (h i hi))]
  rw [modelStep, ← writes_ofModel]
  simp only [hempty]

/-- The groups of a batch pass exactly if its writes go through for every model. -/
theorem groupPasses_iff (h : ∀ i ∈ is, i < q.objects.length) :
    (∀ g ∈ q.grouped is, GroupPasses models q g) ↔
      ∀ m, ∃ table, modelStep models m (q.db m) (q.writes is) = some table := by
  obtain ⟨hkeys, hlook⟩ := grouped_spec h
  simp only [modelStep_eq _ h]
  constructor
  · intro hpass m
    by_cases hof : q.ofModel m is = []
    · exact ⟨q.db m, if_pos hof⟩
    · have hmem : (m, q.ofModel m is) ∈ q.grouped is :=
        mem_of_lookup ((hlook m).trans (if_neg hof))
      obtain ⟨hreg, table, htable⟩ := hpass _ hmem
      exact ⟨table, by rw [if_neg hof, if_pos hreg, htable]⟩
  · rintro hall ⟨m, js⟩ hg
    have hm := lookup_of_mem hkeys hg
    rw [hlook m] at hm
    obtain ⟨table, htable⟩ := hall m
    split_ifs at hm htable with hof hreg
    obtain rfl := Option.some.inj hm
    exact ⟨hreg, table, htable⟩

theorem executeBatch_raised (hnodup : is.Nodup) (h : ∀ i ∈ is, i < q.objects.length) {m : String}
    (hm : modelStep models m (q.db m) (q.writes is) = none) :
    ¬ (q.executeBatch models is).NoFailures := by
  have hperm := grouped_perm h
  obtain ⟨hkeys, hlook⟩ := grouped_spec h
  have hfail : ¬ ∀ g ∈ q.grouped is, GroupPasses models q g := by
    intro hpass
    obtain ⟨table, htable⟩ := (groupPasses_iff h).mp hpass m
    rw [hm] at htable
    cases htable
  push Not at hfail
  obtain ⟨g, hg, hno⟩ := hfail
  refine executeGroups_raised hkeys (hperm.nodup_iff.mpr hnodup)
    (fun i hi => h i (hperm.subset hi)) (fun g hg => ?_) hg hno
  have hgroup := lookup_of_mem hkeys hg
  rw [hlook] at hgroup
  split_ifs at hgroup with hof
  exact Option.some.inj hgroup ▸ hof

theorem executeBatch_ok (hq : q.NoFailures) (hnodup : is.Nodup)
    (h : ∀ i ∈ is, i < q.objects.length)
    (hall : ∀ m, ∃ table, modelStep models m (q.db m) (q.writes is) = some table) :
    (q.executeBatch models is).NoFailures ∧ (q.executeBatch models is).queue = q.queue ∧
      (∀ m, modelStep models m (q.db m) (q.writes is) = some ((q.executeBatch models is).db m)) ∧
      ∀ i ∈ is, (q.executeBatch models is).Called i := by
  have hperm := grouped_perm h
  obtain ⟨hkeys, hlook⟩ := grouped_spec h
  obtain ⟨hno, hqueue, htables, hothers, hcalled⟩ := executeGroups_ok
    (q := q.setWorker 0 (.executing (q.grouped is))) hq hkeys
    (hperm.nodup_iff.mpr hnodup) (fun i hi => h i (hperm.subset hi)) ((groupPasses_iff h).mpr hall)
  refine ⟨hno, hqueue, fun m => ?_, fun i hi => hcalled i (hperm.mem_iff.mpr hi)⟩
  rw [modelStep_eq m h]
  by_cases hof : q.ofModel m is = []
  · have hnot : m ∉ (q.grouped is).map Prod.fst := by
      intro hm
      obtain ⟨⟨m', js⟩, hg, rfl⟩ := List.mem_map.mp hm
      have hgroup := lookup_of_mem hkeys hg
      rw [hlook, if_pos hof] at hgroup
      cases hgroup
    rw [if_pos hof]
    exact congrArg some (hothers m hnot).symm
  · have hmem : (m, q.ofModel m is) ∈ q.grouped is :=
      mem_of_lookup ((hlook m).trans (if_neg hof))
    obtain ⟨hreg, -⟩ := (groupPasses_iff h).mpr hall _ hmem
    rw [if_neg hof, if_pos hreg]
    exact htables _ hmem

/-- The first worker has popped its batch, which leaves the merge cache. -/
def takeBatch (q : AsyncWriteQueue V) (is : List ℕ) : AsyncWriteQueue V :=
  { q.setWorker 0 (.collecting is) with
    queue := q.queue.drop is.length
    mergeCache := q.mergeCache.filter fun e => e.2 ∉ is }

/-- `_worker_loop` of the first worker, batch after batch, without faults. -/
def drain (models : Models V) (q : AsyncWriteQueue V) : List (List ℕ) → AsyncWriteQueue V
  | [] => q
  | is :: batches => drain models ((q.takeBatch is).executeBatch models is) batches

/-- The steps by which the first worker does so. -/
def drainActions (models : Models V) (q : AsyncWriteQueue V) : List (List ℕ) → List (Action V)
  | [] => []
  | is :: batches =>
      .enter 0 :: (List.replicate is.length (.pop 0) ++
        .startBatch 0 :: (List.replicate (q.grouped is).length (.runGroup 0 [] none) ++
          drainActions models ((q.takeBatch is).executeBatch models is) batches))

/-- The heap in batches: none is empty and none too long. -/
structure Splits (q : AsyncWriteQueue V) (batches : List (List ℕ)) : Prop where
  flatten : batches.flatten = q.queue
  size : ∀ is ∈ batches, is ≠ [] ∧ is.length ≤ q.batchSize

/-- The objects after a batch. -/
theorem evolves_takeBatch (models : Models V) (h : ∀ i ∈ is, i < q.objects.length) :
    Evolves is q { (q.takeBatch is).executeBatch models is with
      queue := q.queue, mergeCache := q.mergeCache, workers := q.workers } := by
  have hbatch := evolves_executeBatch (q := q.takeBatch is) models h
  exact ⟨hbatch.object, hbatch.length, fun j hj => .inl hj, rfl, rfl⟩

theorem NoFailures.of_drain {batches : List (List ℕ)}
    (hvalid : ∀ i ∈ batches.flatten, i < q.objects.length)
    (h : (q.drain models batches).NoFailures) : q.NoFailures := by
  induction batches generalizing q with
  | nil => exact h
  | cons is batches ih =>
      rw [List.flatten_cons, List.forall_mem_append] at hvalid
      have hevolves := evolves_takeBatch (q := q) models hvalid.1
      have hafter : ((q.takeBatch is).executeBatch models is).NoFailures := by
        refine ih (fun i hi => ?_) h
        exact (hvalid.2 i hi).trans_eq hevolves.length.symm
      refine NoFailures.of_evolves (fun t ht => ?_) hevolves
      exact hafter t ht

theorem Called.of_drain {batches : List (List ℕ)} {j : ℕ}
    (hvalid : ∀ i ∈ batches.flatten, i < q.objects.length) (h : q.Called j) :
    (q.drain models batches).Called j := by
  induction batches generalizing q with
  | nil => exact h
  | cons is batches ih =>
      rw [List.flatten_cons, List.forall_mem_append] at hvalid
      have hevolves := evolves_takeBatch (q := q) models hvalid.1
      have hcalled := h.of_evolves hevolves
      refine ih (fun i hi => ?_) hcalled
      exact (hvalid.2 i hi).trans_eq hevolves.length.symm

/-- A task outside the batches stays as it was. -/
theorem drain_untouched {batches : List (List ℕ)} {j : ℕ}
    (hvalid : ∀ i ∈ batches.flatten, i < q.objects.length) (hj : j ∉ batches.flatten) :
    (q.drain models batches).objects[j]? = q.objects[j]? := by
  induction batches generalizing q with
  | nil => rfl
  | cons is batches ih =>
      rw [List.flatten_cons, List.forall_mem_append] at hvalid
      rw [List.flatten_cons, List.mem_append, not_or] at hj
      have hevolves := evolves_takeBatch (q := q) models hvalid.1
      have hrest : (q.drain models (is :: batches)).objects[j]? =
          ((q.takeBatch is).executeBatch models is).objects[j]? :=
        ih (fun i hi => (hvalid.2 i hi).trans_eq hevolves.length.symm) hj.2
      exact hrest.trans (hevolves.untouched hj.1)

/-- A batch that leaves no failure behind. -/
theorem takeBatch_ok (hnodup : is.Nodup) (hvalid : ∀ i ∈ is, i < q.objects.length)
    (hno : ((q.takeBatch is).executeBatch models is).NoFailures) :
    ((q.takeBatch is).executeBatch models is).queue = q.queue.drop is.length ∧
      (∀ m, modelStep models m (q.db m) (q.writes is) =
        some (((q.takeBatch is).executeBatch models is).db m)) ∧
      ∀ i ∈ is, ((q.takeBatch is).executeBatch models is).Called i := by
  have hpasses : ∀ m, ∃ table, modelStep models m (q.db m) (q.writes is) = some table := by
    intro m
    cases hm : modelStep models m (q.db m) (q.writes is) with
    | some table => exact ⟨table, rfl⟩
    | none => exact absurd hno (executeBatch_raised (q := q.takeBatch is) hnodup hvalid hm)
  have hbefore : q.NoFailures := by
    refine NoFailures.of_evolves (fun t ht => ?_) (evolves_takeBatch models hvalid)
    exact hno t ht
  exact (executeBatch_ok (q := q.takeBatch is) hbefore hnodup hvalid hpasses).2

/-- Draining without failures: every table is what the batches make of it, and every task
of the heap has called back. -/
theorem drain_ok {batches : List (List ℕ)} (hnodup : batches.flatten.Nodup)
    (hvalid : ∀ i ∈ batches.flatten, i < q.objects.length)
    (hno : (q.drain models batches).NoFailures) :
    (∀ m, (batches.map q.writes).foldlM (modelStep models m) (q.db m) =
      some ((q.drain models batches).db m)) ∧
        ∀ i ∈ batches.flatten, (q.drain models batches).Called i := by
  induction batches generalizing q with
  | nil => exact ⟨fun m => rfl, fun i hi => absurd hi List.not_mem_nil⟩
  | cons is batches ih =>
      rw [List.flatten_cons, List.nodup_append] at hnodup
      rw [List.flatten_cons, List.forall_mem_append] at hvalid
      have hevolves := evolves_takeBatch (q := q) models hvalid.1
      have hlater : ∀ i ∈ batches.flatten,
          i < ((q.takeBatch is).executeBatch models is).objects.length := by
        intro i hi
        exact (hvalid.2 i hi).trans_eq hevolves.length.symm
      have hafter : ((q.takeBatch is).executeBatch models is).NoFailures :=
        NoFailures.of_drain hlater hno
      obtain ⟨-, hdb, hcalled⟩ := takeBatch_ok hnodup.1 hvalid.1 hafter
      have hwrites : batches.map ((q.takeBatch is).executeBatch models is).writes =
          batches.map q.writes := by
        refine List.map_congr_left fun js hjs => writes_congr fun j hj => ?_
        refine hevolves.untouched fun hmem => ?_
        exact hnodup.2.2 j hmem j (List.mem_flatten_of_mem hjs hj) rfl
      obtain ⟨htables, hall⟩ := ih hnodup.2.1 hlater hno
      refine ⟨fun m => ?_, fun i hi => ?_⟩
      · rw [List.map_cons, List.foldlM_cons, hdb m, ← hwrites]
        exact htables m
      · rcases List.mem_append.mp hi with hi | hi
        · show (((q.takeBatch is).executeBatch models is).drain models batches).Called i
          exact (hcalled i hi).of_drain hlater
        · exact hall i hi

theorem exec_pops {done rest : List ℕ} {ws : List Worker} (hw : q.workers = .collecting done :: ws)
    (hq : q.queue = is ++ rest) (hsize : done.length + is.length ≤ q.batchSize) :
    PartialRun.exec (step models) q (List.replicate is.length (.pop 0)) =
      some { q with
        workers := .collecting (done ++ is) :: ws
        queue := rest
        mergeCache := q.mergeCache.filter fun e => e.2 ∉ is } := by
  induction is generalizing q done with
  | nil =>
      cases q
      simp_all
  | cons i is ih =>
      have hpop : step models q (.pop 0) = some { q with
          workers := .collecting (done ++ [i]) :: ws
          queue := is ++ rest
          mergeCache := q.mergeCache.filter fun e => e.2 ≠ i } := by
        have hlt : done.length < q.batchSize := by
          rw [List.length_cons] at hsize
          omega
        simp [step, popTask, hw, hq, hlt, setWorker]
      have hsize' : (done ++ [i]).length + is.length ≤ q.batchSize := by
        rw [List.length_append, List.length_singleton]
        rw [List.length_cons] at hsize
        omega
      rw [List.length_cons, List.replicate_succ, PartialRun.exec_cons, hpop, Option.bind_some]
      refine Eq.trans (ih rfl rfl hsize') ?_
      simp [List.filter_filter, Bool.and_comm]

theorem exec_groups {groups : List (String × List ℕ)} {ws : List Worker}
    (hw : q.workers = .executing groups :: ws) :
    PartialRun.exec (step models) q (List.replicate groups.length (.runGroup 0 [] none)) =
      some (q.executeGroups models groups) := by
  induction groups generalizing q with
  | nil => rfl
  | cons g groups ih =>
      have hstep : step models q (.runGroup 0 [] none) =
          some ((q.executeModelBatch models g.1 g.2 [] none).afterGroup 0 groups) := by
        simp [step, hw]
      have hevolves : Evolves g.2 q _ := .executeModelBatch models g.1 [] none
      rw [List.length_cons, List.replicate_succ, PartialRun.exec_cons, hstep, Option.bind_some,
        executeGroups]
      cases groups with
      | nil => rfl
      | cons g' groups =>
          refine ih ?_
          show (q.executeModelBatch models g.1 g.2 [] none).workers.set 0 _ = _
          rw [hevolves.workers, hw]
          rfl

/-- After the last group the worker is at the test of `_running` again. -/
theorem executeGroups_worker {groups : List (String × List ℕ)} {ws : List Worker} {w : Worker}
    (hw : q.workers = w :: ws) (hne : groups ≠ []) :
    (q.executeGroups models groups).workers = .looping :: ws ∧
      (q.executeGroups models groups).running = q.running ∧
      (q.executeGroups models groups).batchSize = q.batchSize := by
  induction groups generalizing q w with
  | nil => exact absurd rfl hne
  | cons g groups ih =>
      have hevolves : Evolves g.2 q (q.executeModelBatch models g.1 g.2 [] none) :=
        .executeModelBatch models g.1 [] none
      have htouches : Touches q (q.executeModelBatch models g.1 g.2 [] none) :=
        .executeModelBatch models g.1 g.2 [] none
      cases groups with
      | nil =>
          refine ⟨?_, htouches.running, htouches.batchSize⟩
          show (q.executeModelBatch models g.1 g.2 [] none).workers.set 0 .looping = _
          rw [hevolves.workers, hw]
          rfl
      | cons g' groups =>
          have hnext : ((q.executeModelBatch models g.1 g.2 [] none).afterGroup 0
              (g' :: groups)).workers = .executing (g' :: groups) :: ws := by
            show (q.executeModelBatch models g.1 g.2 [] none).workers.set 0 _ = _
            rw [hevolves.workers, hw]
            rfl
          obtain ⟨hworkers, hrunning, hsize⟩ := ih hnext (List.cons_ne_nil g' groups)
          exact ⟨hworkers, hrunning.trans htouches.running, hsize.trans htouches.batchSize⟩

/-- One batch of the first worker. -/
theorem exec_batch {rest : List ℕ} {ws : List Worker} (hw : q.workers = .looping :: ws)
    (hrunning : q.running = true) (hq : q.queue = is ++ rest) (hne : is ≠ [])
    (hsize : is.length ≤ q.batchSize) :
    PartialRun.exec (step models) q (.enter 0 :: (List.replicate is.length (.pop 0) ++
      .startBatch 0 :: List.replicate (q.grouped is).length (.runGroup 0 [] none))) =
        some ((q.takeBatch is).executeBatch models is) := by
  have henter : step models q (.enter 0) = some (q.setWorker 0 (.collecting [])) := by
    simp [step, hw, hrunning]
  have hpops : PartialRun.exec (step models) (q.setWorker 0 (.collecting []))
      (List.replicate is.length (.pop 0)) = some (q.takeBatch is) := by
    have hcollecting : (q.setWorker 0 (.collecting [])).workers = .collecting [] :: ws := by
      rw [setWorker, hw]
      rfl
    refine Eq.trans (exec_pops hcollecting hq ?_) ?_
    · rw [List.length_nil, Nat.zero_add]
      exact hsize
    · simp [takeBatch, setWorker, hw, hq]
  have hworkers : (q.takeBatch is).workers = .collecting is :: ws := by
    show q.workers.set 0 _ = _
    rw [hw]
    rfl
  have hstart : step models (q.takeBatch is) (.startBatch 0) =
      some ((q.takeBatch is).setWorker 0 (.executing (q.grouped is))) := by
    obtain ⟨i, is, rfl⟩ := List.exists_cons_of_ne_nil hne
    simp only [step, hworkers, List.getElem?_cons_zero]
    rfl
  rw [PartialRun.exec_cons, henter, Option.bind_some, PartialRun.exec_append, hpops,
    Option.bind_some, PartialRun.exec_cons, hstart, Option.bind_some]
  have hexecuting : ((q.takeBatch is).setWorker 0 (.executing (q.grouped is))).workers =
      .executing (q.grouped is) :: ws := by
    rw [setWorker, hworkers]
    rfl
  exact exec_groups hexecuting

/-- Draining without failures is a run of the first worker. -/
theorem exec_drain {batches : List (List ℕ)} {ws : List Worker}
    (hw : q.workers = .looping :: ws) (hrunning : q.running = true) (hsplit : q.Splits batches)
    (hnodup : q.queue.Nodup) (hvalid : ∀ i ∈ q.queue, i < q.objects.length)
    (hno : (q.drain models batches).NoFailures) :
    PartialRun.exec (step models) q (q.drainActions models batches) =
      some (q.drain models batches) := by
  induction batches generalizing q with
  | nil => rfl
  | cons is batches ih =>
      have hq : q.queue = is ++ batches.flatten := by rw [← hsplit.flatten, List.flatten_cons]
      have hsize := List.forall_mem_cons.mp hsplit.size
      rw [hq] at hnodup hvalid
      rw [List.forall_mem_append] at hvalid
      rw [List.nodup_append] at hnodup
      have hevolves := evolves_takeBatch (q := q) models hvalid.1
      have hlater : ∀ i ∈ batches.flatten,
          i < ((q.takeBatch is).executeBatch models is).objects.length := by
        intro i hi
        exact (hvalid.2 i hi).trans_eq hevolves.length.symm
      have hqueue : ((q.takeBatch is).executeBatch models is).queue = batches.flatten := by
        rw [(takeBatch_ok hnodup.1 hvalid.1 (NoFailures.of_drain hlater hno)).1, hq, List.drop_left]
      have hgroups : q.grouped is ≠ [] := by
        intro hnil
        have hperm := grouped_perm hvalid.1
        rw [hnil] at hperm
        exact hsize.1.1 hperm.symm.eq_nil
      have hworkers : ((q.takeBatch is).setWorker 0 (.executing (q.grouped is))).workers =
          .executing (q.grouped is) :: ws := by
        show (q.workers.set 0 _).set 0 _ = _
        rw [hw]
        rfl
      obtain ⟨hw', hrunning', hsize'⟩ := @executeGroups_worker _ _ models _ _ _ _ hworkers hgroups
      have hrest := @ih ((q.takeBatch is).executeBatch models is) hw' (hrunning'.trans hrunning)
        ⟨hqueue.symm, fun js hjs => ⟨(hsize.2 js hjs).1, (hsize.2 js hjs).2.trans_eq hsize'.symm⟩⟩
        (hqueue ▸ hnodup.2.1) (hqueue ▸ hlater) hno
      have hfirst : PartialRun.exec (step models) q _ = some ((q.takeBatch is).executeBatch models is) :=
        exec_batch hw hrunning hq hsize.1.1 hsize.1.2
      have hactions : q.drainActions models (is :: batches) =
          .enter 0 :: (List.replicate is.length (.pop 0) ++
            .startBatch 0 :: List.replicate (q.grouped is).length (.runGroup 0 [] none)) ++
              ((q.takeBatch is).executeBatch models is).drainActions models batches := by
        simp [drainActions]
      rw [hactions, PartialRun.exec_append, hfirst]
      exact hrest

end AsyncWriteQueue

end SmartMedia.WriteQueue
